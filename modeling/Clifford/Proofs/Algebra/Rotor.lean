import Clifford.Proofs.Algebra.Magnitude
import Clifford.Proofs.Algebra.Verification
import Clifford.Proofs.Values.Exterior

/-!
# Rotors and their logarithms

The logarithm of a rotor divides the angle between its scalar and its bivector by the norm of the
bivector, and scales the bivector with the quotient. So the norm of the logarithm is the angle, and
the exponential, which divides the sine of the norm by the norm, scales back: the sine of the angle
is the norm of the bivector again, and the cosine is the scalar. Norms are taken by a short way for
a single component and by a root for several, with the sign of the metric in the squares; both give
the same number, which is positive where the squared norm is.

## Main definitions

- `Values.bivector` — the coefficients at the blades of two vectors

## Main results

- `Algebra.log_gives`, `Algebra.exp_gives_of_pos`, `Algebra.exp_gives` — what logarithm and
  exponential scale a bivector with
- `Algebra.exp_log_agrees` — the exponential undoes the logarithm
-/

namespace Clifford

variable {σ K S V : Type} [Number K]

/-! ### Scalars and bivectors -/

namespace Values

variable {R : Type*} [CommRing R] {f : Values R}

/-- The coefficients at the blades of two vectors. -/
def bivector (f : Values R) : Values R := kept (fun b => b.grade == 2) f

theorem bivector_zero (f : Values R) : bivector f 0 = 0 := by
  rw [bivector, kept, Blade.grade_zero]
  rfl

/-- Without other grades, there is nothing beside the scalar and the bivector. -/
theorem scalar_add_bivector (h : ∀ b : Blade, b.grade ≠ 0 → b.grade ≠ 2 → f b = 0) :
    scalar (f 0) + bivector f = f := by
  funext b
  rw [Pi.add_apply]
  by_cases hzero : b = 0
  · rw [hzero, scalar_zero, bivector_zero, add_zero]
  · rw [scalar_of_ne hzero, zero_add, bivector, kept]
    by_cases htwo : b.grade = 2
    · rw [if_pos (by simpa using htwo)]
    · rw [if_neg (by simpa using htwo), h b (mt Blade.grade_eq_zero.1 hzero) htwo]

/-- A scalar adds its square to the squared norm of what has no scalar. -/
theorem normSquared_scalar_add (q : Nat → R) (x : R) (hf : f 0 = 0) :
    normSquared q (scalar x + f) = x * x + normSquared q f := by
  have hscalar : normSquared q (scalar x) = x * x := by
    rw [scalar, normSquared_single, Blade.weight_zero, one_mul]
  rw [← hscalar, normSquared, normSquared, normSquared, ← Finset.sum_add_distrib]
  refine Finset.sum_congr rfl fun b _ => ?_
  rw [Pi.add_apply]
  by_cases hb : b = 0
  · rw [hb, hf]
    ring
  · rw [scalar_of_ne hb]
    ring

/-- A sine on the bivector and a cosine beside it are a point of the unit circle. -/
theorem normSquared_turn (q : Nat → R) {x v : R} (hf : f 0 = 0)
    (hunit : x * x + v * v * normSquared q f = 1) : normSquared q (scalar x + v • f) = 1 := by
  have hscalar : (v • f) 0 = 0 := by
    rw [Pi.smul_apply, hf, smul_zero]
  rw [normSquared_scalar_add q x hscalar, normSquared_smul, hunit]

end Values

namespace Algebra

/-! ### Logarithms and exponentials -/

section Roots

variable [OrderedNumber K] [Target σ K S V] {M : Reading σ K S V} {A : Algebra K S} {s : σ}
  {q : Nat → K} {m : Multivector K S} {f : Values K}

/-- What the exponential computes from a positive squared norm: the cosine of its root, and the sine
over the root. -/
theorem turn_gives {α : Type} (hM : M.Sound) (hopen : M.Open s []) {square : Factor K S} {ns : K}
    (hpos : 0 < ns) (hsquare : M.HasValue s square ns)
    {k : Factor K S → Factor K S → Emission σ K α} {Q : α → σ → Prop}
    (hk : ∀ cosine weight s' v, M.Advances s s' →
      M.HasValue s' cosine (Number.cos (Number.sqrt ns)) → M.HasValue s' weight v →
      v * Number.sqrt ns = Number.sin (Number.sqrt ns) → (k cosine weight).Gives s' Q) :
    Emission.Gives (do
      let angle ← call .sqrt [square]
      let cosine ← call .cos [angle]
      let sine ← call .sin [angle]
      let weight ← combine .div sine angle
      k cosine weight) s Q := by
  refine .bind (.mono (call_gives hM .sqrt hopen (.cons hsquare.known .nil)) ?_)
  intro angle s₁ ⟨hadv₁, hangle⟩
  rw [List.map_singleton, hsquare.value_eq] at hangle
  change M.HasValue s₁ angle (Number.sqrt ns) at hangle
  refine .bind (.mono (call_gives hM .cos hadv₁.ready (.cons hangle.known .nil)) ?_)
  intro cosine s₂ ⟨hadv₂, hcosine⟩
  rw [List.map_singleton, hangle.value_eq] at hcosine
  have hangle₂ := hadv₂.symbols.hasValue hangle
  refine .bind (.mono (call_gives hM .sin hadv₂.ready (.cons hangle₂.known .nil)) ?_)
  intro sine s₃ ⟨hadv₃, hsine⟩
  rw [List.map_singleton, hangle₂.value_eq] at hsine
  have hangle₃ := hadv₃.symbols.hasValue hangle₂
  refine .bind (.mono (combine_gives hM .div hadv₃.ready hsine.known hangle₃.known) ?_)
  intro weight s₄ ⟨hadv₄, hweight, hquotient⟩
  rw [hsine.value_eq, hangle₃.value_eq] at hquotient
  exact hk cosine weight s₄ _ (((hadv₁.trans hadv₂).trans hadv₃).trans hadv₄)
    ((hadv₃.trans hadv₄).symbols.hasValue hcosine) ⟨hweight, rfl⟩
    (hquotient.mul_cancel (Number.sqrt_ne_zero hpos))

/-- **Where the squared norm is positive, the exponential takes sine and cosine of its root.** It
adds the cosine to the operand times the sine over the root. What has no scalar has a squared norm
of one then, which verification tolerates. -/
theorem exp_gives_of_pos (hM : M.Sound) (hA : M.Ready A s q)
    (hcircle : ∀ x : K, Number.cos x * Number.cos x + Number.sin x * Number.sin x = 1)
    (htolerates : A.Tolerates 1) (hm : M.Denotes A s m f) (hunit : m.knownUnit = false)
    (hscalar : f 0 = 0) (hpos : 0 < Values.normSquared q f) :
    (A.exp m : Emission σ K (Multivector K S)).Gives s fun r s' => M.Advances s s' ∧
      ∃ v, v * Number.sqrt (Values.normSquared q f) =
          Number.sin (Number.sqrt (Values.normSquared q f)) ∧
        M.Denotes A s' r
          (Values.scalar (Number.cos (Number.sqrt (Values.normSquared q f))) + v • f) := by
  refine .bind (check_gives hm.owner ?_)
  refine .bind (.mono (normSquared_of_unmarked hM hA hm hunit) ?_)
  intro square s₁ ⟨hadv₁, hsquared⟩
  have hzero : ¬ square.isZero = true := fun h =>
    hpos.ne (hsquared.value_eq ▸ (Reading.value_of_isZero h).symm)
  rw [if_neg hzero]
  refine .bind (.mono (annotate_gives hM hadv₁.ready "exp") ?_)
  intro _ s₂ hadv₂
  refine turn_gives hM hadv₂.ready hpos (hadv₂.symbols.hasValue hsquared) ?_
  intro cosine weight s₃ v hadv₃ hcosine hweight hv
  have hadv := (hadv₁.trans hadv₂).trans hadv₃
  have hcontribute := Reading.Contribute.append
    (.singleton (.cons hcosine.known .nil) (Contribution.values_singleton 0 cosine false))
    ((hm.mono hadv.symbols).contribute_scaled hweight.known)
  rw [hcosine.value_eq, hweight.value_eq] at hcontribute
  refine .bind (.mono (build_gives hM hadv.ready hcontribute) ?_)
  intro r s₄ ⟨hadv₄, hr, _⟩
  have hroot := OrderedNumber.sqrt_mul_sqrt (Values.normSquared q f) (lt_asymm hpos)
  generalize Number.sqrt (Values.normSquared q f) = θ at hv hr hroot
  change M.Denotes A s₄ r (Values.scalar (Number.cos θ) + v • f) at hr
  have hturn : Values.normSquared q (Values.scalar (Number.cos θ) + v • f) = 1 := by
    apply Values.normSquared_turn q hscalar
    rw [← hroot, mul_mul_mul_comm, hv]
    exact hcircle θ
  rw [← hturn] at htolerates
  have hadv := hadv.trans hadv₄
  refine .mono (markUnit_gives (hA.advance hadv) hr htolerates) ?_
  intro u s₅ ⟨hadv₅, hu, _⟩
  exact ⟨hadv.trans hadv₅, v, hv, hu⟩

end Roots

section Angles

variable [AngularNumber K] [Target σ K S V] {M : Reading σ K S V} {A : Algebra K S} {s : σ}
  {q : Nat → K} {m rotor : Multivector K S} {f : Values K}

/-- **The logarithm multiplies the bivector with the angle over the norm.** It exists where the
squared norm of the bivector is positive, and the norm is a positive root of it, whether it has been
taken as a root or as the absolute value of a lone coefficient. -/
theorem log_gives (hM : M.Sound) (hA : M.Ready A s q) (hrotor : M.Denotes A s rotor f)
    (hpos : 0 < Values.normSquared q (Values.bivector f)) :
    (A.log rotor : Emission σ K (Multivector K S)).Gives s fun r s' => M.Advances s s' ∧
      r.knownUnit = false ∧ ∃ x w, 0 < x ∧ x * x = Values.normSquared q (Values.bivector f) ∧
        w * x = Number.atan2 x (f 0) ∧ M.Denotes A s' r (w • Values.bivector f) := by
  refine .bind (check_gives hrotor.owner ?_)
  refine .bind (.mono (extract_gives hM hA.ready hrotor fun b => b.grade == 2) ?_)
  intro bivector s₁ ⟨hadv₁, hbivector, hunmarked⟩
  change M.Denotes A s₁ bivector (Values.bivector f) at hbivector
  refine .bind (.mono (norm_gives hM (hA.advance hadv₁) hbivector hunmarked) ?_)
  intro norm s₂ ⟨hadv₂, x, hnorm, hnonneg, hsquare⟩
  rw [A.magnitude_of_not_neg (lt_asymm hpos)] at hsquare
  have hx : 0 < x := by
    apply lt_of_le_of_ne (not_lt.1 hnonneg)
    rintro rfl
    rw [← hsquare, mul_zero] at hpos
    exact lt_irrefl 0 hpos
  have hzero : ¬ norm.isZero = true := fun h =>
    hx.ne (hnorm.value_eq ▸ (Reading.value_of_isZero h).symm)
  rw [if_neg hzero]
  have hadv := hadv₁.trans hadv₂
  refine .bind (.mono (annotate_gives hM hadv.ready "log") ?_)
  intro _ s₃ hadv₃
  have hadv := hadv.trans hadv₃
  have hnorm₃ := hadv₃.symbols.hasValue hnorm
  have hscalar := (hrotor.mono hadv.symbols).hasValue 0
  refine .bind (.mono (call_gives hM .atan2 hadv.ready
    (.cons hnorm₃.known (.cons hscalar.known .nil))) ?_)
  intro angle s₄ ⟨hadv₄, hangle⟩
  change M.HasValue s₄ angle (Number.atan2 (M.value s₃ norm) (M.value s₃ (rotor.value 0))) at hangle
  rw [hnorm₃.value_eq, hscalar.value_eq] at hangle
  have hnorm₄ := hadv₄.symbols.hasValue hnorm₃
  have hadv := hadv.trans hadv₄
  refine .bind (.mono (combine_gives hM .div hadv.ready hangle.known hnorm₄.known) ?_)
  intro factor s₅ ⟨hadv₅, hknown, hquotient⟩
  rw [hangle.value_eq, hnorm₄.value_eq] at hquotient
  have hbivector₅ := hbivector.mono (hadv₂.trans (hadv₃.trans (hadv₄.trans hadv₅))).symbols
  refine .mono (scale_gives hM hadv₅.ready hknown hbivector₅) ?_
  intro r s₆ ⟨hadv₆, hr, hunmarked⟩
  exact ⟨(hadv.trans hadv₅).trans hadv₆, hunmarked, x, M.value s₅ factor, hx, hsquare,
    hquotient.mul_cancel hx.ne', hr⟩

/-- **The exponential multiplies with the sine of the norm over the norm**, and adds the cosine,
where the norm is given as a positive root of the squared norm. -/
theorem exp_gives (hM : M.Sound) (hA : M.Ready A s q) (htolerates : A.Tolerates 1)
    (hm : M.Denotes A s m f) (hunit : m.knownUnit = false) (hscalar : f 0 = 0) {θ : K}
    (hθ : 0 < θ) (hsquare : Values.normSquared q f = θ * θ) :
    (A.exp m : Emission σ K (Multivector K S)).Gives s fun r s' => M.Advances s s' ∧
      ∃ v, v * θ = Number.sin θ ∧ M.Denotes A s' r (Values.scalar (Number.cos θ) + v • f) := by
  have hgives := exp_gives_of_pos hM hA AngularNumber.cos_mul_cos_add_sin_mul_sin htolerates hm
    hunit hscalar (hsquare ▸ mul_pos hθ hθ)
  rwa [hsquare, Number.sqrt_mul_self hθ] at hgives

/-- **The exponential undoes the logarithm.** In any metric of numbers, let a multivector of a
scalar and a bivector have a positive squared norm in the bivector, and let the square of the scalar
and this squared norm have the sum one. Then it has a logarithm, and the exponential of the
logarithm agrees with it. Norms may be verified with any tolerance that is not negative, negative
squared norms clamped or not, and the multivector marked as a unit or not. -/
theorem exp_log_agrees (hM : M.Sound) (hopen : M.Open s [])
    (hmetric : ∀ square ∈ A.metric, square.isNumber = true)
    (htolerance : ∀ tolerance, A.settings.unitTolerance? = some tolerance → ¬ tolerance < 0)
    (hrotor : M.Member A s rotor)
    (hgrades : ∀ b : Blade, b.grade ≠ 0 → b.grade ≠ 2 → M.values s rotor b = 0) :
    let scalar := M.values s rotor 0
    let ns := Values.normSquared (M.squares s A.metric) (Values.bivector (M.values s rotor))
    0 < ns → scalar * scalar + ns = 1 →
      Emission.Gives (do
        let logarithm ← A.log rotor
        A.exp logarithm) s fun r s' => M.Agree s' r rotor := by
  intro scalar ns hpos hunit
  have hA : M.Ready A s (M.squares s A.metric) := Reading.ready_of_numbers hopen hmetric
  refine .bind (.mono (log_gives hM hA hrotor.denotes hpos) ?_)
  intro logarithm s₁ ⟨hadv₁, hunmarked, x, w, hx, hsquare, hangle, hlogarithm⟩
  -- The angle is the norm of the logarithm.
  have hcircle : scalar * scalar + x * x = 1 := hsquare ▸ hunit
  have hθ : 0 < w * x := hangle ▸ AngularNumber.atan2_pos x scalar hx hcircle
  have hnorm : Values.normSquared (M.squares s A.metric)
      (w • Values.bivector (M.values s rotor)) = w * x * (w * x) := by
    rw [Values.normSquared_smul, ← hsquare, mul_mul_mul_comm]
  have hscalar : (w • Values.bivector (M.values s rotor)) 0 = 0 := by
    rw [Pi.smul_apply, Values.bivector_zero, smul_zero]
  have htolerates : A.Tolerates 1 :=
    tolerates_one htolerance (RootedNumber.sqrt_nonneg 1 (not_lt_of_ge zero_le_one))
  refine .mono (exp_gives hM (hA.advance hadv₁) htolerates hlogarithm hunmarked hscalar hθ hnorm) ?_
  intro r s₂ ⟨hadv₂, v, hsine, hr⟩
  -- The sine of the angle is the norm of the bivector again.
  rw [hangle, AngularNumber.sin_atan2 x scalar hx hcircle, ← hangle, ← mul_assoc] at hsine
  have hfactor : v * w = 1 := mul_right_cancel₀ hx.ne' (hsine.trans (one_mul x).symm)
  rw [hangle, AngularNumber.cos_atan2 x scalar hx hcircle, smul_smul, hfactor, one_smul,
    Values.scalar_add_bivector hgrades] at hr
  exact hr.agree (hrotor.denotes.mono (hadv₁.trans hadv₂).symbols)

end Angles

end Algebra

/-! ### Planes -/

/-- A plane with a metric of numbers. -/
def Algebra.plane (x y : K) (settings : Settings K) : Algebra K Empty where
  id := 0
  metric := [.number x, .number y]
  names := #["1", "e1", "e2", "e12"]
  settings
  dimension_le := Nat.le_of_ble_eq_true rfl
  size_names := rfl

/-- A scalar and a multiple of the product of both vectors. -/
def Multivector.inPlane (x y : K) : Multivector K Empty where
  owner := 0
  components := [(0, .number x), (.full 2, .number y)]

theorem Blade.positions_full_two : (full 2).positions = [0, 1] := by
  rw [positions_eq_filter]
  decide

theorem Blade.grade_full_two : (full 2).grade = 2 := by
  rw [grade_eq_length, positions_full_two]
  rfl

section Planes

variable {t : NumericTarget K} {settings : Settings K} {x y square square' : K}

omit [Number K] in
theorem Multivector.member_inPlane : (NumericTarget.reading K).Member
    (Algebra.plane square square' settings) t (inPlane x y) where
  owner := rfl
  nodup := by
    change [(0 : Blade), .full 2].Nodup
    decide
  known c _ := NumericTarget.known t c.2

variable [ExactNumber K]

theorem Multivector.values_inPlane : (NumericTarget.reading K).values t (inPlane x y) =
    Values.scalar x + Values.single (.full 2) y := by
  have hscalar : (0 : Blade) ∉ [Blade.full 2] := by decide
  refine (Reading.componentValues_cons hscalar).trans ?_
  rw [Reading.componentValues_cons List.not_mem_nil, Reading.componentValues_nil, add_zero]
  rfl

theorem Multivector.values_inPlane_zero :
    (NumericTarget.reading K).values t (inPlane x y) 0 = x := by
  rw [values_inPlane, Pi.add_apply, Values.scalar_zero, Values.single_of_ne y (by decide),
    add_zero]

theorem Multivector.values_inPlane_of_grade {b : Blade} (hzero : b.grade ≠ 0)
    (htwo : b.grade ≠ 2) : (NumericTarget.reading K).values t (inPlane x y) b = 0 := by
  have hscalar : b ≠ 0 := mt Blade.grade_eq_zero.2 hzero
  have hbivector : Blade.full 2 ≠ b := by
    rintro rfl
    exact htwo Blade.grade_full_two
  rw [values_inPlane, Pi.add_apply, Values.scalar_of_ne hscalar, Values.single_of_ne y hbivector,
    add_zero]

theorem Multivector.normSquared_bivector_inPlane :
    Values.normSquared
        ((NumericTarget.reading K).squares t (Algebra.plane square square' settings).metric)
        (Values.bivector ((NumericTarget.reading K).values t (inPlane x y))) =
      square * square' * (y * y) := by
  have hbivector : Values.bivector ((NumericTarget.reading K).values t (inPlane x y)) =
      Values.single (.full 2) y := by
    have hsplit : Values.scalar ((NumericTarget.reading K).values t (inPlane x y) 0) +
        Values.bivector ((NumericTarget.reading K).values t (inPlane x y)) =
          (NumericTarget.reading K).values t (inPlane x y) :=
      Values.scalar_add_bivector fun _ => values_inPlane_of_grade
    rw [values_inPlane_zero] at hsplit
    exact add_left_cancel (hsplit.trans values_inPlane)
  rw [hbivector, Values.normSquared_single, Blade.weight_eq_prod_positions,
    Blade.positions_full_two, List.map_cons, List.map_singleton, List.prod_cons,
    List.prod_singleton]
  rfl

end Planes

/-- In a negative plane, whose bivectors have positive squared norms, with exact verification. -/
theorem Algebra.exp_log_agrees_plane :
    let A : Algebra ℝ Empty := plane (-2) (-2) { unitTolerance? := some 0 }
    let rotor : Multivector ℝ Empty := .inPlane (3 / 5) (2 / 5)
    Emission.Gives (do
      let logarithm ← A.log rotor
      A.exp logarithm) NumericTarget.idle fun r t => (NumericTarget.reading ℝ).Agree t r rotor := by
  intro A rotor
  have hmetric : ∀ square ∈ A.metric, square.isNumber = true :=
    List.forall_mem_cons.2 ⟨rfl, List.forall_mem_singleton.2 rfl⟩
  have htolerance : ∀ tolerance, A.settings.unitTolerance? = some tolerance → ¬ tolerance < 0 := by
    intro tolerance h
    obtain rfl : 0 = tolerance := Option.some.inj h
    exact lt_irrefl 0
  refine exp_log_agrees NumericTarget.sound_reading trivial hmetric htolerance
    Multivector.member_inPlane (fun _ => Multivector.values_inPlane_of_grade) ?_ ?_
  · rw [Multivector.normSquared_bivector_inPlane]
    norm_num
  · rw [Multivector.normSquared_bivector_inPlane, Multivector.values_inPlane_zero]
    norm_num

end Clifford
