import Clifford.Proofs.Algebra.Involutions
import Clifford.Proofs.Algebra.Rotor
import Clifford.Proofs.Algebra.UnitHints
import Clifford.Proofs.Number.Real
import Clifford.Proofs.Values.Exterior

/-!
# Exponentials are rotors

Reversion negates a bivector. If the square of a bivector is a scalar, then this scalar is the
squared norm, negated, so a scalar plus a multiple of the bivector, times its reverse, is a scalar
too: the mixed terms cancel, and the squares add up. The exponential is of this form on both of its
ways: one and the bivector itself, where the squared norm is zero, and else the cosine and the sine
over the root of the squared norm. Either way the squares add up to one.

## Main definitions

- `Values.IsBivector` — coefficients of grade two only

## Main results

- `Values.IsBivector.mul_self` — what a bivector with a scalar square squares to
- `Values.IsBivector.turn_mul_reversed` — a scalar and a multiple of it, times the reverse
- `Algebra.exp_gives_turn` — both ways of the exponential lead to a point of the unit circle
- `Algebra.exp_mul_reverse` — the exponential times its reverse is one
-/

namespace Clifford

variable {σ K S V : Type} [Number K]

/-! ### Bivectors -/

theorem Blade.reverseSign_of_grade_two {R : Type*} [CommRing R] {b : Blade} (h : b.grade = 2) :
    reverseSign R b = -1 := by
  have hscalar : b.grade = grade 0 + 2 := by rw [h, grade_zero]
  rw [reverseSign_of_grade_add_two hscalar, reverseSign_eq_swapSign, swapSign_zero_left]

namespace Values

variable {R : Type*} [CommRing R] {q : Nat → R} {f : Values R}

/-- The coefficients of a bivector: those of other grades are zero. -/
def IsBivector (f : Values R) : Prop := ∀ b : Blade, b.grade ≠ 2 → f b = 0

theorem IsBivector.zero (hf : f.IsBivector) : f 0 = 0 := by
  apply hf
  rw [Blade.grade_zero]
  decide

theorem IsBivector.single {b : Blade} (hb : b.grade = 2) (x : R) :
    (Values.single b x).IsBivector := by
  intro c hc
  apply single_of_ne
  intro hbc
  exact hc (hbc ▸ hb)

/-- Reversion negates bivectors. -/
theorem IsBivector.reversed_eq (hf : f.IsBivector) : reversed f = -f := by
  ext b
  rw [Values.reversed_eq, Pi.neg_apply]
  by_cases hb : b.grade = 2
  · rw [Blade.reverseSign_of_grade_two hb, neg_one_mul]
  · rw [hf b hb, mul_zero, neg_zero]

theorem convolve_neg_right (k : Blade → Blade → R) (f g : Values R) :
    convolve k f (-g) = -convolve k f g := by
  rw [← neg_one_smul R g, convolve_smul_right, neg_one_smul]

/-- **A bivector whose square is a scalar squares to its squared norm, negated.** -/
theorem IsBivector.mul_self (hf : f.IsBivector)
    (hsquare : ∀ b ≠ 0, convolve (Blade.twist q) f f b = 0) :
    convolve (Blade.twist q) f f = scalar (-normSquared q f) := by
  ext b
  by_cases hb : b = 0
  · rw [hb, scalar_zero, ← convolve_reversed_zero, hf.reversed_eq, convolve_neg_right,
      Pi.neg_apply, neg_neg]
  · rw [hsquare b hb, scalar_of_ne hb]

theorem IsBivector.reversed_turn (hf : f.IsBivector) (x v : R) :
    reversed (scalar x + v • f) = scalar x + (-v) • f := by
  ext b
  have hscalar := congrFun (reversed_scalar x) b
  have hbivector := congrFun hf.reversed_eq b
  simp only [Values.reversed_eq, Pi.add_apply, Pi.smul_apply, Pi.neg_apply, smul_eq_mul]
    at hscalar hbivector ⊢
  linear_combination hscalar + v * hbivector

/-- **A scalar and a multiple of a bivector, times the reverse.** The mixed terms cancel. -/
theorem IsBivector.turn_mul_reversed (hf : f.IsBivector)
    (hsquare : ∀ b ≠ 0, convolve (Blade.twist q) f f b = 0) (x v : R) :
    convolve (Blade.twist q) (scalar x + v • f) (reversed (scalar x + v • f)) =
      scalar (x * x + v * v * normSquared q f) := by
  have hmixed : x • ((-v) • f) + x • (v • f) = 0 := by
    rw [← smul_add, ← add_smul, neg_add_cancel, zero_smul, smul_zero]
  calc convolve (Blade.twist q) (scalar x + v • f) (reversed (scalar x + v • f))
      = scalar (x * x) + x • ((-v) • f) + (x • (v • f) +
          v • ((-v) • convolve (Blade.twist q) f f)) := by
        rw [hf.reversed_turn, convolve_add_left, convolve_add_right, convolve_add_right,
          convolve_scalar_scalar (Blade.twist_zero_left q 0), scalar_convolve, convolve_scalar,
          convolve_smul_left, convolve_smul_right]
        rfl
    _ = scalar (x * x) + v • ((-v) • convolve (Blade.twist q) f f) := by
        rw [add_assoc, ← add_assoc (x • _), hmixed, zero_add]
    _ = scalar (x * x + v * v * normSquared q f) := by
        rw [hf.mul_self hsquare, scalar, scalar, smul_single, smul_single, ← single_add, scalar]
        congr 1
        ring

end Values

/-- The entries of a metric that are not negative have values that are not. -/
theorem Reading.squares_nonneg [OrderedNumber K] {M : Reading σ K S V} {metric : Metric K S} {s : σ}
    (hmetric : ∀ square ∈ metric, ∃ x, square = .number x ∧ ¬ x < 0) (i : Nat) :
    0 ≤ M.squares s metric i := by
  rw [squares]
  cases hget : metric[i]? with
  | none => exact zero_le_one
  | some square =>
    obtain ⟨x, rfl, hx⟩ := hmetric square (List.mem_of_getElem? hget)
    exact not_lt.1 hx

namespace Algebra

variable [Target σ K S V] {M : Reading σ K S V} {A : Algebra K S} {s : σ} {q : Nat → K}
  {m : Multivector K S} {f : Values K}

/-! ### The two ways of the exponential -/

/-- Where the squared norm is zero, one is added to the operand. -/
theorem exp_gives_of_null [ExactNumber K] (hM : M.Sound) (hA : M.Ready A s q)
    (hmetric : ∀ square ∈ A.metric, square.isNumber = true) (hm : M.Denotes A s m f)
    (hnumbers : ∀ c ∈ m.components, c.2.isNumber = true) (hunit : m.knownUnit = false)
    (hnull : Values.normSquared q f = 0) :
    (A.exp m : Emission σ K (Multivector K S)).Gives s fun r s' =>
      M.Advances s s' ∧ M.Denotes A s' r (Values.scalar 1 + f) := by
  refine .bind (check_gives hm.owner ?_)
  refine .bind (.mono (normSquared_of_null hM hA hm hmetric hnumbers hunit hnull) ?_)
  intro square s₁ ⟨hadv₁, hzero⟩
  rw [if_pos hzero]
  refine .bind (.mono (one_gives hM hadv₁.ready) ?_)
  intro one s₂ ⟨hadv₂, hone, _⟩
  have hadv := hadv₁.trans hadv₂
  refine .bind (.mono (plus_gives hM hadv.ready (.cons hone (.cons (hm.mono hadv.symbols) .nil)))
    ?_)
  intro r s₃ ⟨hadv₃, hr, _⟩
  rw [List.sum_cons, List.sum_singleton] at hr
  exact .pure ⟨hadv.trans hadv₃, hr.withKnownUnit _⟩

variable [OrderedNumber K]

/-- **Both ways of the exponential lead to a point of the unit circle**: a scalar and a multiple of
the operand, whose squared norms add up to one. -/
theorem exp_gives_turn (hM : M.Sound) (hA : M.Ready A s q)
    (hmetric : ∀ square ∈ A.metric, square.isNumber = true) (hq : ∀ i, 0 ≤ q i)
    (hcircle : ∀ x : K, Number.cos x * Number.cos x + Number.sin x * Number.sin x = 1)
    (htolerates : A.Tolerates 1) (hm : M.Denotes A s m f)
    (hnumbers : ∀ c ∈ m.components, c.2.isNumber = true) (hunit : m.knownUnit = false)
    (hscalar : f 0 = 0) :
    (A.exp m : Emission σ K (Multivector K S)).Gives s fun r s' => M.Advances s s' ∧
      ∃ x v, x * x + v * v * Values.normSquared q f = 1 ∧
        M.Denotes A s' r (Values.scalar x + v • f) := by
  rcases (Values.normSquared_nonneg hq f).eq_or_lt with hnull | hpos
  · refine .mono (exp_gives_of_null hM hA hmetric hm hnumbers hunit hnull.symm) ?_
    intro r s' ⟨hadv, hr⟩
    refine ⟨hadv, 1, 1, ?_, ?_⟩
    · rw [← hnull, mul_zero, add_zero, one_mul]
    · rwa [one_smul]
  · refine .mono (exp_gives_of_pos hM hA hcircle htolerates hm hunit hscalar hpos) ?_
    intro r s' ⟨hadv, v, hv, hr⟩
    refine ⟨hadv, _, v, ?_, hr⟩
    have hroot := OrderedNumber.sqrt_mul_sqrt (Values.normSquared q f) (lt_asymm hpos)
    nth_rewrite 3 [← hroot]
    rw [mul_mul_mul_comm, hv]
    exact hcircle _

/-- **The exponential of a bivector that is a blade is a rotor.** In any metric of numbers that are
not negative, let a multivector of numbers have grade two only, and let its square be a scalar. Then
it has an exponential, and this times its reverse is one at the scalar and zero at all other blades,
whether the squared norm is zero, also that of a null bivector, or not. Of sines and cosines it is
only used that their squares add up to one. Verification of unit norms may take place if it accepts
a squared norm of one. -/
theorem exp_mul_reverse (hM : M.Sound) (hopen : M.Open s [])
    (hmetric : ∀ square ∈ A.metric, ∃ x, square = .number x ∧ ¬ x < 0)
    (hcircle : ∀ x : K, Number.cos x * Number.cos x + Number.sin x * Number.sin x = 1)
    (htolerates : A.Tolerates 1) (hm : M.Member A s m)
    (hnumbers : ∀ c ∈ m.components, c.2.isNumber = true) (hunit : m.knownUnit = false)
    (hgrades : ∀ b : Blade, b.grade ≠ 2 → M.values s m b = 0)
    (hsquare : (A.mul .geometric m m : Emission σ K (Multivector K S)).Gives s fun square s' =>
      ∀ b ≠ 0, M.value s' (square.value b) = 0) :
    Emission.Gives (do
      let rotor ← A.exp m
      let reverse ← A.reverse rotor
      A.mul .geometric rotor reverse) s fun r s' =>
        ∀ b, M.HasValue s' (r.value b) (if b = 0 then 1 else 0) := by
  have hliterals : ∀ square ∈ A.metric, square.isNumber = true := by
    intro square hmem
    obtain ⟨x, rfl, _⟩ := hmetric square hmem
    rfl
  have hA : M.Ready A s (M.squares s A.metric) := Reading.ready_of_numbers hopen hliterals
  have hf : (M.values s m).IsBivector := hgrades
  have hscalar : ∀ b ≠ 0, Values.convolve (Blade.twist (M.squares s A.metric))
      (M.values s m) (M.values s m) b = 0 := by
    obtain ⟨square, s', _, ⟨_, hvalues⟩, hzero⟩ :=
      (geometric_gives hM hA hm.denotes hm.denotes).and hsquare
    intro b hb
    exact (hvalues.hasValue b).value_eq.symm.trans (hzero b hb)
  refine .bind (.mono (exp_gives_turn hM hA hliterals (Reading.squares_nonneg hmetric) hcircle
    htolerates hm.denotes hnumbers hunit hf.zero) ?_)
  intro rotor s₁ ⟨hadv₁, x, v, hturn, hrotor⟩
  refine .bind (.mono (acts_reverse hM hadv₁.ready hrotor) ?_)
  intro reverse s₂ ⟨hadv₂, hreverse⟩
  have hadv := hadv₁.trans hadv₂
  refine .mono (geometric_gives hM (hA.advance hadv) (hrotor.mono hadv₂.symbols) hreverse) ?_
  intro r s₃ ⟨_, hr⟩
  rw [hf.turn_mul_reversed hscalar, hturn] at hr
  intro b
  have hvalue := hr.hasValue b
  by_cases hb : b = 0
  · subst hb
    rw [if_pos rfl]
    rwa [Values.scalar_zero] at hvalue
  · rw [if_neg hb]
    rwa [Values.scalar_of_ne hb] at hvalue

end Algebra

/-! ### Bivectors of a plane -/

/-- A multiple of the product of both vectors. -/
def Multivector.bivectorInPlane (x : K) : Multivector K Empty where
  owner := 0
  components := [(.full 2, .number x)]

theorem Multivector.denotes_bivectorInPlane [ExactNumber K] (t : NumericTarget K)
    (settings : Settings K) (square square' x : K) :
    (NumericTarget.reading K).Denotes (Algebra.plane square square' settings) t
      (bivectorInPlane x) (Values.single (.full 2) x) where
  owner := rfl
  nodup := List.nodup_singleton _
  known c _ := NumericTarget.known t c.2
  values_eq := by
    refine (Reading.componentValues_cons List.not_mem_nil).trans ?_
    rw [Reading.componentValues_nil, add_zero]
    rfl

theorem Multivector.values_bivectorInPlane_of_grade [ExactNumber K] {t : NumericTarget K} {x : K}
    (b : Blade) (hb : b.grade ≠ 2) :
    (NumericTarget.reading K).values t (bivectorInPlane x) b = 0 := by
  rw [(denotes_bivectorInPlane t {} 1 1 x).values_eq]
  exact Values.IsBivector.single Blade.grade_full_two x b hb

/-- A single component squares to a scalar. -/
theorem Algebra.square_bivectorInPlane [ExactNumber K] {t : NumericTarget K} {settings : Settings K}
    {square square' x : K} :
    ((plane square square' settings).mul .geometric (.bivectorInPlane x) (.bivectorInPlane x)).Gives
      t fun product t' => ∀ b ≠ 0, (NumericTarget.reading K).value t' (product.value b) = 0 := by
  have hm := Multivector.denotes_bivectorInPlane t settings square square' x
  refine .mono (geometric_gives NumericTarget.sound_reading (NumericTarget.ready _ t) hm hm) ?_
  intro product t' ⟨_, hproduct⟩ b hb
  have hself : Blade.full 2 ^^^ Blade.full 2 = 0 := BitVec.xor_self
  rw [Values.convolve_single_single, hself] at hproduct
  exact (hproduct.hasValue b).value_eq.trans (Values.scalar_of_ne hb _)

/-- In a plane whose bivectors have positive squared norms, and in one whose bivectors are null. -/
theorem Algebra.exp_mul_reverse_planes :
    let rotor (A : Algebra ℝ Empty) (x : ℝ) : Emission (NumericTarget ℝ) ℝ _ := do
      let rotor ← A.exp (.bivectorInPlane x)
      let reverse ← A.reverse rotor
      A.mul .geometric rotor reverse
    (rotor (plane 2 3 { unitTolerance? := some 0 }) 5).Gives NumericTarget.idle (fun r t => ∀ b,
      (NumericTarget.reading ℝ).HasValue t (r.value b) (if b = 0 then 1 else 0)) ∧
    (rotor (plane 2 0 { unitTolerance? := some 0 }) 5).Gives NumericTarget.idle fun r t => ∀ b,
      (NumericTarget.reading ℝ).HasValue t (r.value b) (if b = 0 then 1 else 0) := by
  have htolerates : ∀ square : ℝ,
      (plane 2 square { unitTolerance? := some 0 }).Tolerates 1 := by
    intro square
    refine tolerates_one (fun tolerance h => ?_) (Number.not_sqrt_neg 1)
    obtain rfl : 0 = tolerance := Option.some.inj h
    exact lt_irrefl 0
  have hmetric : ∀ square : ℝ, ¬ square < 0 →
      ∀ entry ∈ (plane 2 square { unitTolerance? := some 0 }).metric,
        ∃ x, entry = .number x ∧ ¬ x < 0 := by
    intro square hsquare
    refine List.forall_mem_cons.2 ⟨⟨2, rfl, by norm_num⟩, ?_⟩
    exact List.forall_mem_singleton.2 ⟨square, rfl, hsquare⟩
  have hrotor := fun (square : ℝ) (hsquare : ¬ square < 0) =>
    exp_mul_reverse (s := NumericTarget.idle) NumericTarget.sound_reading trivial
      (hmetric square hsquare) AngularNumber.cos_mul_cos_add_sin_mul_sin (htolerates square)
      (Multivector.denotes_bivectorInPlane _ _ 2 square 5).toMember
      (List.forall_mem_singleton.2 rfl) rfl
      Multivector.values_bivectorInPlane_of_grade square_bivectorInPlane
  exact ⟨hrotor 3 (by norm_num), hrotor 0 (lt_irrefl 0)⟩

end Clifford
