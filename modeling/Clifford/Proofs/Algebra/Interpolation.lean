import Clifford.Proofs.Algebra.Exponential

/-!
# Interpolation between unit vectors

The geometric product of two vectors is their scalar product and their wedge product, and its
squared norm is the product of theirs. So the square of the scalar product and the squared norm of
the wedge product add up to one for unit vectors: they are the cosine and the sine of the angle that
is computed from them. A point between two unit vectors weights them with the sines of the two
parts of this angle, over the sine of all of it. The squared norm of such a point is one, by the
triangle whose sides are these sines.

## Main results

- `Values.IsVector.mul_eq_add_wedge` — the two parts of the product of vectors
- `Values.IsVector.normSquared_wedge` — Lagrange's identity
- `Algebra.angle_gives`, `Algebra.slerp_gives` — what is prepared for an interpolation
- `Algebra.slerpAt_gives` — the weights of both end points
- `Algebra.slerpAt_on_sphere` — all points are unit vectors, from the first one to the last
-/

namespace Clifford

open Finset

/-! ### Products of two vectors -/

/-- Different vectors of the basis have nothing in common. -/
theorem Blade.and_eq_zero_of_grade_one {a b : Blade} (ha : a.grade = 1) (hb : b.grade = 1)
    (hne : a ^^^ b ≠ 0) : a &&& b = 0 := by
  have hgrades := grade_xor a b
  have hpos : (a ^^^ b).grade ≠ 0 := mt grade_eq_zero.1 hne
  apply grade_eq_zero.1
  omega

namespace Values

variable {R : Type*} [CommRing R] {q : Nat → R} {f g : Values R}

/-- The scalar part of a product is the scalar product. -/
theorem convolve_twist_scalar (q : Nat → R) (f g : Values R) :
    convolve (Blade.twist q) f g 0 = scalarProduct q f g := by
  rw [convolve_apply_zero]
  refine sum_congr rfl fun a _ => ?_
  have hand : a &&& a = a := BitVec.and_self
  rw [Blade.twist, hand, ← Blade.reverseSign_eq_swapSign, Blade.reverseSign]
  ring

theorem IsVector.zero (hf : f.IsVector) : f 0 = 0 := by
  apply hf
  rw [Blade.grade_zero]
  decide

theorem IsVector.scalarProduct_eq (hf : f.IsVector) (g : Values R) :
    scalarProduct q f g = ∑ b : Blade, b.weight q * (f b * g b) := by
  refine sum_congr rfl fun b _ => ?_
  by_cases hb : b.grade = 1
  · rw [← Blade.reverseSign, Blade.reverseSign_of_grade_one hb, one_mul]
  · rw [hf b hb, zero_mul, mul_zero, mul_zero]

/-- The wedge product of two vectors has no scalar. -/
theorem IsVector.wedge_zero (hf : f.IsVector) (g : Values R) : wedge f g 0 = 0 := by
  rw [wedge, convolve_twist_scalar, hf.scalarProduct_eq]
  refine sum_eq_zero fun b _ => ?_
  rw [Blade.weight_null]
  by_cases hb : b = 0
  · rw [hb, hf.zero, zero_mul, mul_zero]
  · rw [if_neg hb, zero_mul]

/-- **The product of two vectors is their scalar product and their wedge product.** Off the scalar,
different vectors of the basis are multiplied, whose squares do not matter. -/
theorem IsVector.mul_eq_add_wedge (hf : f.IsVector) (hg : g.IsVector) :
    convolve (Blade.twist q) f g = scalar (scalarProduct q f g) + wedge f g := by
  ext c
  rw [Pi.add_apply]
  by_cases hc : c = 0
  · rw [hc, scalar_zero, hf.wedge_zero, add_zero, convolve_twist_scalar]
  rw [scalar_of_ne hc, zero_add]
  refine sum_congr rfl fun a _ => sum_congr rfl fun b _ => ?_
  by_cases hxor : a ^^^ b = c
  · rw [if_pos hxor, if_pos hxor]
    by_cases hgrades : a.grade = 1 ∧ b.grade = 1
    · have hand := Blade.and_eq_zero_of_grade_one hgrades.1 hgrades.2 (hxor ▸ hc)
      rw [Blade.twist, Blade.twist, hand, Blade.weight_zero, Blade.weight_zero]
    · have hzero : f a * g b = 0 := by
        rcases not_and_or.1 hgrades with ha | hb
        · rw [hf a ha, zero_mul]
        · rw [hg b hb, mul_zero]
      rw [hzero, mul_zero, mul_zero]
  · rw [if_neg hxor, if_neg hxor]

/-- **Lagrange's identity**: the square of the scalar product and the squared norm of the wedge
product add up to the product of the squared norms. -/
theorem IsVector.normSquared_wedge (hf : f.IsVector) (hg : g.IsVector) :
    scalarProduct q f g * scalarProduct q f g + normSquared q (wedge f g) =
      normSquared q f * normSquared q g := by
  rw [← (Versor.vector hg).normSquared_mul, hf.mul_eq_add_wedge hg,
    normSquared_scalar_add q _ (hf.wedge_zero g)]

/-- The squared norm of a combination of two vectors. -/
theorem IsVector.normSquared_combine (hf : f.IsVector) (g : Values R) (x y : R) :
    normSquared q (x • f + y • g) =
      x * x * normSquared q f + y * y * normSquared q g + 2 * (x * y * scalarProduct q f g) := by
  rw [hf.scalarProduct_eq, normSquared, normSquared, normSquared, mul_sum, mul_sum, mul_sum,
    mul_sum, ← sum_add_distrib, ← sum_add_distrib]
  refine sum_congr rfl fun b _ => ?_
  rw [Pi.add_apply, Pi.smul_apply, Pi.smul_apply, smul_eq_mul, smul_eq_mul]
  ring

end Values

variable {σ K S V : Type} [Number K]

/-- Where a wedge product keeps all pairs of components, no blade of one operand is one of the
other, and so there is no scalar product. -/
theorem Reading.scalarProduct_of_keepsAll [ExactNumber K] {M : Reading σ K S V} {A : Algebra K S}
    {s : σ} {a b : Multivector K S} {f g : Values K} {q : Nat → K} (ha : M.Denotes A s a f)
    (hb : M.Denotes A s b g) (hf : f.IsVector) (hkeep : ProductKind.wedge.keepsAll a b = true) :
    Values.scalarProduct q f g = 0 := by
  refine sum_eq_zero fun c _ => ?_
  have hzero : f c * g c = 0 := by
    by_cases hleft : c ∈ a.blades
    · by_cases hright : c ∈ b.blades
      · have hand := ProductKind.includes_wedge.1
          (List.all_eq_true.1 (List.all_eq_true.1 hkeep c hleft) c hright)
        obtain rfl : c = 0 := BitVec.and_self.symm.trans hand
        rw [hf.zero, zero_mul]
      · rw [hb.eq_zero hright, mul_zero]
    · rw [ha.eq_zero hleft, zero_mul]
  rw [hzero, mul_zero, mul_zero]

namespace Algebra

variable [Target σ K S V] {M : Reading σ K S V} {A : Algebra K S} {s : σ} {q : Nat → K}
  {a b : Multivector K S} {f g : Values K}

/-! ### The angle between two vectors -/

/-- The norm of what is marked as a unit is one, so it is right if the squared norm is one. -/
theorem norm_gives_of_unit [RootedNumber K] {m : Multivector K S} (hM : M.Sound)
    (hA : M.Ready A s q) (hm : M.Denotes A s m f)
    (hunit : m.knownUnit = true → Values.normSquared q f = 1) :
    (A.norm m : Emission σ K (Factor K S)).Gives s fun r s' => M.Advances s s' ∧
      ∃ x, M.HasValue s' r x ∧ ¬ x < 0 ∧ x * x = A.magnitude (Values.normSquared q f) := by
  by_cases hknown : m.knownUnit = true
  · have hone : ¬ (1 : K) < 0 := not_lt_of_ge zero_le_one
    refine .bind (check_gives hm.owner ?_)
    rw [if_pos hknown]
    refine .pure ⟨hA.advances, 1, ⟨Reading.known_number 1, rfl⟩, hone, ?_⟩
    rw [hunit hknown, A.magnitude_of_not_neg hone, one_mul]
  · exact norm_gives hM hA hm (by simpa using hknown)

/-- **The angle of two vectors is that of a point** above the axis: the norm of the wedge product
above, and the scalar product beside. -/
theorem angle_gives [RootedNumber K] (hM : M.Sound) (hA : M.Ready A s q) (hq : ∀ i, 0 ≤ q i)
    (ha : M.Denotes A s a f) (hb : M.Denotes A s b g) (hf : f.IsVector) (hg : g.IsVector)
    (hfone : Values.normSquared q f = 1) (hgone : Values.normSquared q g = 1) :
    (A.angle a b : Emission σ K (Factor K S)).Gives s fun r s' => M.Advances s s' ∧
      ∃ y, ¬ y < 0 ∧ y * y = Values.normSquared q (Values.wedge f g) ∧
        M.HasValue s' r (Number.atan2 y (Values.scalarProduct q f g)) := by
  refine .bind (.mono (mul_gives hM hA ha hb .wedge) ?_)
  intro wedge s₁ ⟨hadv₁, hwedge, hmark⟩
  rw [ProductKind.kernel_wedge] at hwedge
  change M.Denotes A s₁ wedge (Values.wedge f g) at hwedge
  have hunit : wedge.knownUnit = true → Values.normSquared q (Values.wedge f g) = 1 := by
    intro hknown
    rw [hmark, Bool.and_assoc, Bool.and_eq_true] at hknown
    have hlagrange := hf.normSquared_wedge (q := q) hg
    rwa [hfone, hgone, one_mul, Reading.scalarProduct_of_keepsAll ha hb hf hknown.1, mul_zero,
      zero_add] at hlagrange
  refine .bind (.mono (norm_gives_of_unit hM (hA.advance hadv₁) hwedge hunit) ?_)
  intro sine s₂ ⟨hadv₂, y, hsine, hnonneg, hsquare⟩
  have hpos : ¬ Values.normSquared q (Values.wedge f g) < 0 :=
    not_lt_of_ge (Values.normSquared_nonneg hq _)
  rw [A.magnitude_of_not_neg hpos] at hsquare
  have hadv := hadv₁.trans hadv₂
  refine .bind (.mono (scalarProduct_gives hM (hA.advance hadv) (ha.mono hadv.symbols)
    (hb.mono hadv.symbols)) ?_)
  intro cosine s₃ ⟨hadv₃, hcosine⟩
  have hsine₃ := hadv₃.symbols.hasValue hsine
  refine .mono (call_gives hM .atan2 hadv₃.ready
    (.cons hsine₃.known (.cons hcosine.known .nil))) ?_
  intro r s₄ ⟨hadv₄, hr⟩
  change M.HasValue s₄ r (Number.atan2 (M.value s₃ sine) (M.value s₃ cosine)) at hr
  rw [hsine₃.value_eq, hcosine.value_eq] at hr
  exact ⟨(hadv.trans hadv₃).trans hadv₄, y, hnonneg, hsquare, hr⟩

/-- The angle of a point of the upper half of the unit circle that has a sine has the abscissa as
its cosine. -/
theorem cos_of_sin_ne_zero [TrigonometricNumber K] {x y : K} (hnonneg : ¬ y < 0)
    (hcircle : x * x + y * y = 1) (hsin : Number.sin (Number.atan2 y x) ≠ 0) :
    Number.cos (Number.atan2 y x) = x := by
  apply AngularNumber.cos_atan2 y x _ hcircle
  refine lt_of_le_of_ne (not_lt.1 hnonneg) fun hzero => hsin ?_
  subst hzero
  rw [mul_zero, add_zero] at hcircle
  exact TrigonometricNumber.sin_atan2_zero x hcircle

variable [TrigonometricNumber K]

/-- Two vectors are prepared for interpolation with their angle and its sine. -/
theorem slerp_gives (hM : M.Sound) (hA : M.Ready A s q) (hq : ∀ i, 0 ≤ q i)
    (ha : M.Denotes A s a f) (hb : M.Denotes A s b g) (hf : f.IsVector) (hg : g.IsVector)
    (hfone : Values.normSquared q f = 1) (hgone : Values.normSquared q g = 1) :
    (A.slerp a b : Emission σ K (Slerp K S)).Gives s fun circle s' => M.Advances s s' ∧
      (circle.first = a ∧ circle.last = b) ∧
      ∃ y, ¬ y < 0 ∧ y * y = Values.normSquared q (Values.wedge f g) ∧
        M.HasValue s' circle.angle (Number.atan2 y (Values.scalarProduct q f g)) ∧
        M.HasValue s' circle.sine (Number.sin (Number.atan2 y (Values.scalarProduct q f g))) := by
  refine .bind (.mono (angle_gives hM hA hq ha hb hf hg hfone hgone) ?_)
  intro angle s₁ ⟨hadv₁, y, hnonneg, hsquare, hangle⟩
  refine .bind (.mono (call_gives hM .sin hadv₁.ready (.cons hangle.known .nil)) ?_)
  intro sine s₂ ⟨hadv₂, hsine⟩
  rw [List.map_singleton, hangle.value_eq] at hsine
  exact .pure ⟨hadv₁.trans hadv₂, ⟨rfl, rfl⟩, y, hnonneg, hsquare,
    hadv₂.symbols.hasValue hangle, hsine⟩

/-! ### Points between two vectors -/

/-- The weight of an end point is the sine of a part of the angle, over the sine of all of it. -/
theorem slerpWeight_gives (hM : M.Sound) (hopen : M.Open s []) {circle : Slerp K S}
    {fraction : Factor K S} {x θ : K} (hfraction : M.HasValue s fraction x)
    (hangle : M.HasValue s circle.angle θ) (hsine : M.HasValue s circle.sine (Number.sin θ))
    (hsin : Number.sin θ ≠ 0) :
    (slerpWeight circle fraction : Emission σ K (Factor K S)).Gives s fun r s' =>
      M.Advances s s' ∧ ∃ w, M.HasValue s' r w ∧ w * Number.sin θ = Number.sin (x * θ) := by
  refine .bind (.mono (combine_gives_value hM (by decide) hopen hfraction hangle) ?_)
  intro part s₁ ⟨hadv₁, hpart⟩
  change M.HasValue s₁ part (x * θ) at hpart
  refine .bind (.mono (call_gives hM .sin hadv₁.ready (.cons hpart.known .nil)) ?_)
  intro sine s₂ ⟨hadv₂, hpartSine⟩
  rw [List.map_singleton, hpart.value_eq] at hpartSine
  have hsine₂ := (hadv₁.trans hadv₂).symbols.hasValue hsine
  refine .mono (combine_gives hM .div hadv₂.ready hpartSine.known hsine₂.known) ?_
  intro r s₃ ⟨hadv₃, hr, hquotient⟩
  rw [hpartSine.value_eq, hsine₂.value_eq] at hquotient
  exact ⟨(hadv₁.trans hadv₂).trans hadv₃, _, ⟨hr, rfl⟩, hquotient.mul_cancel hsin⟩

/-- **The point at a parameter weights both end points with sines**, whose sum is a unit vector
then. -/
theorem slerpAt_gives (hM : M.Sound) (hA : M.Ready A s q) (htolerates : A.Tolerates 1)
    {circle : Slerp K S} {t : Factor K S} {x θ : K} (ha : M.Denotes A s circle.first f)
    (hb : M.Denotes A s circle.last g) (hf : f.IsVector) (hfone : Values.normSquared q f = 1)
    (hgone : Values.normSquared q g = 1) (ht : M.HasValue s t x)
    (hangle : M.HasValue s circle.angle θ) (hsine : M.HasValue s circle.sine (Number.sin θ))
    (hsin : Number.sin θ ≠ 0) (hcos : Number.cos θ = Values.scalarProduct q f g) :
    (A.slerpAt circle t : Emission σ K (Multivector K S)).Gives s fun r s' => M.Advances s s' ∧
      ∃ v w, v * Number.sin θ = Number.sin ((1 - x) * θ) ∧ w * Number.sin θ = Number.sin (x * θ) ∧
        Values.normSquared q (v • f + w • g) = 1 ∧ M.Denotes A s' r (v • f + w • g) := by
  refine .bind (.mono (annotate_gives hM hA.ready "slerp") ?_)
  intro _ s₁ hadv₁
  have hone : M.HasValue s₁ (.number 1) 1 := ⟨Reading.known_number 1, rfl⟩
  refine .bind (.mono (combine_gives_value hM (by decide) hadv₁.ready hone
    (hadv₁.symbols.hasValue ht)) ?_)
  intro rest s₂ ⟨hadv₂, hrest⟩
  change M.HasValue s₂ rest (1 - x) at hrest
  have hadv := hadv₁.trans hadv₂
  refine .bind (.mono (slerpWeight_gives hM hadv.ready hrest (hadv.symbols.hasValue hangle)
    (hadv.symbols.hasValue hsine) hsin) ?_)
  intro first s₃ ⟨hadv₃, v, hfirst, hv⟩
  have hadv := hadv.trans hadv₃
  refine .bind (.mono (slerpWeight_gives hM hadv.ready (hadv.symbols.hasValue ht)
    (hadv.symbols.hasValue hangle) (hadv.symbols.hasValue hsine) hsin) ?_)
  intro last s₄ ⟨hadv₄, w, hlast, hw⟩
  have hadv := hadv.trans hadv₄
  have hfirst₄ := hadv₄.symbols.hasValue hfirst
  have hcontribute := ((ha.mono hadv.symbols).contribute_scaled hfirst₄.known).append
    ((hb.mono hadv.symbols).contribute_scaled hlast.known)
  rw [hfirst₄.value_eq, hlast.value_eq] at hcontribute
  refine .bind (.mono (build_gives hM hadv.ready hcontribute) ?_)
  intro r s₅ ⟨hadv₅, hr, _⟩
  change M.Denotes A s₅ r (v • f + w • g) at hr
  have hunit : Values.normSquared q (v • f + w • g) = 1 := by
    have htriangle := Number.sin_parts ((1 - x) * θ) (x * θ)
    have hparts : (1 - x) * θ + x * θ = θ := by ring
    rw [hparts, ← hv, ← hw] at htriangle
    rw [hf.normSquared_combine, hfone, hgone, ← hcos]
    apply mul_right_cancel₀ (mul_ne_zero hsin hsin)
    linear_combination htriangle
  have hadv := hadv.trans hadv₅
  rw [← hunit] at htolerates
  refine .mono (markUnit_gives (hA.advance hadv) hr htolerates) ?_
  intro u s₆ ⟨hadv₆, hu, _⟩
  exact ⟨hadv.trans hadv₆, v, w, hv, hw, hunit, hu⟩

/-- **Interpolation stays on the unit sphere.** In any metric of numbers that are not negative, let
two multivectors be vectors whose squared norms are one. Then the interpolation between them can be
prepared; its angle is that of the point with the norm of the wedge product above and the scalar
product beside. If the sine of this angle is not zero, then there is a point at every parameter, at
any time later: its squared norm is one, at zero it agrees with the first vector, and at one with
the last. The vectors may have the same components or different ones, and may be marked as units or
not; verification of unit norms may have any tolerance that is not negative. -/
theorem slerpAt_on_sphere (hM : M.Sound) (hopen : M.Open s [])
    (hmetric : ∀ square ∈ A.metric, ∃ x, square = .number x ∧ ¬ x < 0)
    (htolerance : ∀ tolerance, A.settings.unitTolerance? = some tolerance → ¬ tolerance < 0)
    (ha : M.Member A s a) (hb : M.Member A s b)
    (hfirst : ∀ c : Blade, c.grade ≠ 1 → M.values s a c = 0)
    (hlast : ∀ c : Blade, c.grade ≠ 1 → M.values s b c = 0)
    (hfirstUnit : Values.normSquared (M.squares s A.metric) (M.values s a) = 1)
    (hlastUnit : Values.normSquared (M.squares s A.metric) (M.values s b) = 1) :
    (A.slerp a b : Emission σ K (Slerp K S)).Gives s fun circle s₁ => M.Advances s s₁ ∧
      ∃ y θ, ¬ y < 0 ∧
        y * y = Values.normSquared (M.squares s A.metric)
          (Values.wedge (M.values s a) (M.values s b)) ∧
        θ = Number.atan2 y
          (Values.scalarProduct (M.squares s A.metric) (M.values s a) (M.values s b)) ∧
        M.HasValue s₁ circle.angle θ ∧
        (Number.sin θ ≠ 0 → ∀ s₂ t x, M.Advances s₁ s₂ → M.HasValue s₂ t x →
          (A.slerpAt circle t : Emission σ K (Multivector K S)).Gives s₂ fun r s₃ =>
            M.Member A s₃ r ∧
            Values.normSquared (M.squares s₃ A.metric) (M.values s₃ r) = 1 ∧
            (x = 0 → M.Agree s₃ r a) ∧ (x = 1 → M.Agree s₃ r b)) := by
  have hA : M.Ready A s (M.squares s A.metric) := by
    refine Reading.ready_of_numbers hopen fun square hmem => ?_
    obtain ⟨x, rfl, _⟩ := hmetric square hmem
    rfl
  have hf : (M.values s a).IsVector := hfirst
  have hg : (M.values s b).IsVector := hlast
  have htolerates : A.Tolerates 1 :=
    tolerates_one htolerance (RootedNumber.sqrt_nonneg 1 (not_lt_of_ge zero_le_one))
  refine .mono (slerp_gives hM hA (Reading.squares_nonneg hmetric) ha.denotes hb.denotes hf hg
    hfirstUnit hlastUnit) ?_
  intro circle s₁ ⟨hadv₁, hends, y, hnonneg, hsquare, hangle, hsine⟩
  refine ⟨hadv₁, y, _, hnonneg, hsquare, rfl, hangle, ?_⟩
  have hlagrange := hf.normSquared_wedge (q := M.squares s A.metric) hg
  rw [hfirstUnit, hlastUnit, ← hsquare, one_mul] at hlagrange
  intro hsin s₂ t x hadv₂ ht
  have hcos := cos_of_sin_ne_zero hnonneg hlagrange hsin
  have hadv := hadv₁.trans hadv₂
  have ha₂ : M.Denotes A s₂ circle.first (M.values s a) := by
    rw [hends.1]
    exact ha.denotes.mono hadv.symbols
  have hb₂ : M.Denotes A s₂ circle.last (M.values s b) := by
    rw [hends.2]
    exact hb.denotes.mono hadv.symbols
  refine .mono (slerpAt_gives hM (hA.advance hadv) htolerates ha₂ hb₂ hf hfirstUnit hlastUnit ht
    (hadv₂.symbols.hasValue hangle) (hadv₂.symbols.hasValue hsine) hsin hcos) ?_
  intro r s₃ ⟨hadv₃, v, w, hv, hw, hunit, hr⟩
  have hadv := hadv.trans hadv₃
  refine ⟨hr.toMember, ?_, ?_, ?_⟩
  · rw [hr.values_eq, ← Reading.eq_squares (hA.advance hadv).squares]
    exact hunit
  · intro hx
    rw [hx, sub_zero, one_mul] at hv
    rw [hx, zero_mul, Number.sin_zero] at hw
    have hv : v = 1 := mul_right_cancel₀ hsin (hv.trans (one_mul _).symm)
    have hw : w = 0 := (mul_eq_zero.1 hw).resolve_right hsin
    rw [hv, hw, one_smul, zero_smul, add_zero] at hr
    exact hr.agree (ha.denotes.mono hadv.symbols)
  · intro hx
    rw [hx, sub_self, zero_mul, Number.sin_zero] at hv
    rw [hx, one_mul] at hw
    have hv : v = 0 := (mul_eq_zero.1 hv).resolve_right hsin
    have hw : w = 1 := mul_right_cancel₀ hsin (hw.trans (one_mul _).symm)
    rw [hv, hw, one_smul, zero_smul, zero_add] at hr
    exact hr.agree (hb.denotes.mono hadv.symbols)

end Algebra

/-! ### Vectors of a plane -/

section Planes

variable [ExactNumber K]

theorem Values.scalarProduct_single {R : Type*} [CommRing R] (q : Nat → R) {i : Nat} (hi : i < 32)
    (x : R) (g : Values R) :
    scalarProduct q (single (.vector i) x) g = q i * (x * g (.vector i)) := by
  rw [(IsVector.single hi x).scalarProduct_eq, Fintype.sum_eq_single (.vector i), single_self,
    Blade.weight_vector q hi]
  intro b hb
  rw [single_of_ne x hb.symm, zero_mul, mul_zero]

/-- The vector of a plane with the given coordinates. -/
def Multivector.vectorInPlane (x y : K) : Multivector K Empty where
  owner := 0
  components := [(.vector 0, .number x), (.vector 1, .number y)]

theorem Multivector.values_vectorInPlane (t : NumericTarget K) (x y : K) :
    (NumericTarget.reading K).values t (vectorInPlane x y) =
      Values.single (.vector 0) x + Values.single (.vector 1) y := by
  have hfirst : Blade.vector 0 ∉ [Blade.vector 1] := by decide
  refine (Reading.componentValues_cons hfirst).trans ?_
  rw [Reading.componentValues_cons List.not_mem_nil, Reading.componentValues_nil, add_zero]
  rfl

theorem Multivector.isVector_vectorInPlane (t : NumericTarget K) (x y : K) :
    ((NumericTarget.reading K).values t (vectorInPlane x y)).IsVector := by
  rw [values_vectorInPlane]
  exact (Values.IsVector.single (by decide) x).add (.single (by decide) y)

theorem Multivector.normSquared_vectorInPlane (t : NumericTarget K) (settings : Settings K)
    (square square' x y : K) :
    Values.normSquared
        ((NumericTarget.reading K).squares t (Algebra.plane square square' settings).metric)
        ((NumericTarget.reading K).values t (vectorInPlane x y)) =
      square * (x * x) + square' * (y * y) := by
  have hfirst := Values.IsVector.single (R := K) (i := 0) (by decide) x
  have hcombine := hfirst.normSquared_combine (q := (NumericTarget.reading K).squares t
    (Algebra.plane square square' settings).metric) (Values.single (.vector 1) y) 1 1
  rw [one_smul, one_smul, Values.scalarProduct_single _ (by decide),
    Values.single_of_ne y (by decide), Values.normSquared_single, Values.normSquared_single,
    Blade.weight_vector _ (by decide), Blade.weight_vector _ (by decide)] at hcombine
  rw [values_vectorInPlane, hcombine, mul_zero, mul_zero, mul_zero, mul_zero, add_zero, one_mul,
    one_mul, one_mul]
  rfl

theorem Multivector.normSquared_onLine_inPlane (t : NumericTarget K) (settings : Settings K)
    (square square' x : K) :
    Values.normSquared
        ((NumericTarget.reading K).squares t (Algebra.plane square square' settings).metric)
        ((NumericTarget.reading K).values t (onLine x)) = square * (x * x) := by
  rw [values_onLine, Values.normSquared_single, Blade.weight_vector _ (by decide)]
  rfl

/-- The scalar product of a vector along the first axis and any other one. -/
theorem Multivector.scalarProduct_inPlane (t : NumericTarget K) (settings : Settings K)
    (square square' x x' y' : K) :
    Values.scalarProduct
        ((NumericTarget.reading K).squares t (Algebra.plane square square' settings).metric)
        ((NumericTarget.reading K).values t (onLine x))
        ((NumericTarget.reading K).values t (vectorInPlane x' y')) = square * (x * x') := by
  rw [values_onLine, Values.scalarProduct_single _ (by decide), values_vectorInPlane, Pi.add_apply,
    Values.single_self, Values.single_of_ne y' (by decide), add_zero]
  rfl

/-- What their wedge product has for a squared norm. -/
theorem Multivector.normSquared_wedge_inPlane (t : NumericTarget K) (settings : Settings K)
    (square square' x x' y' : K) :
    Values.normSquared
        ((NumericTarget.reading K).squares t (Algebra.plane square square' settings).metric)
        (Values.wedge ((NumericTarget.reading K).values t (onLine x))
          ((NumericTarget.reading K).values t (vectorInPlane x' y'))) =
      square * square' * (x * x * (y' * y')) := by
  have hlagrange := (isVector_onLine t x).normSquared_wedge (q := (NumericTarget.reading K).squares
    t (Algebra.plane square square' settings).metric) (isVector_vectorInPlane t x' y')
  rw [scalarProduct_inPlane, normSquared_vectorInPlane, normSquared_onLine_inPlane] at hlagrange
  linear_combination hlagrange

end Planes

/-- From a vector along the first axis to one with both components, with exact verification. -/
theorem Algebra.slerpAt_on_sphere_plane :
    let A : Algebra ℝ Empty := plane 4 9 { unitTolerance? := some 0 }
    let a : Multivector ℝ Empty := .onLine (1 / 2)
    let b : Multivector ℝ Empty := .vectorInPlane (3 / 10) (4 / 15)
    let M := NumericTarget.reading ℝ
    (A.slerp a b : Emission (NumericTarget ℝ) ℝ _).Gives NumericTarget.idle fun circle t =>
      (A.slerpAt circle (.number (1 / 3))).Gives t (fun r _ => r.squaredNorm A = 1) ∧
      (A.slerpAt circle (.number 0)).Gives t (fun r t' => M.Agree t' r a) ∧
      (A.slerpAt circle (.number 1)).Gives t fun r t' => M.Agree t' r b := by
  intro A a b M
  have hmetric : ∀ square ∈ A.metric, ∃ x, square = .number x ∧ ¬ x < 0 := by
    refine List.forall_mem_cons.2 ⟨⟨4, rfl, by norm_num⟩, ?_⟩
    exact List.forall_mem_singleton.2 ⟨9, rfl, by norm_num⟩
  have htolerance : ∀ tolerance, A.settings.unitTolerance? = some tolerance → ¬ tolerance < 0 := by
    intro tolerance h
    obtain rfl : 0 = tolerance := Option.some.inj h
    exact lt_irrefl 0
  have ha : M.Member A NumericTarget.idle a :=
    ⟨rfl, List.nodup_singleton _, fun c _ => NumericTarget.known _ c.2⟩
  have hb : M.Member A NumericTarget.idle b := by
    refine ⟨rfl, ?_, fun c _ => NumericTarget.known _ c.2⟩
    change [Blade.vector 0, Blade.vector 1].Nodup
    decide
  refine .mono (slerpAt_on_sphere NumericTarget.sound_reading trivial hmetric htolerance ha hb
    (Multivector.isVector_onLine _ _) (Multivector.isVector_vectorInPlane _ _ _) ?_ ?_) ?_
  · rw [Multivector.normSquared_onLine_inPlane]
    norm_num
  · rw [Multivector.normSquared_vectorInPlane]
    norm_num
  intro circle t ⟨_, y, θ, hnonneg, hsquare, hθ, _, hpoint⟩
  rw [Multivector.normSquared_wedge_inPlane] at hsquare
  rw [Multivector.scalarProduct_inPlane] at hθ
  have hy : y ≠ 0 := by
    intro hzero
    rw [hzero] at hsquare
    norm_num at hsquare
  have hsin : Number.sin θ ≠ 0 := by
    have hpos : 0 < y := lt_of_le_of_ne (not_lt.1 hnonneg) hy.symm
    rw [hθ, AngularNumber.sin_atan2 y _ hpos]
    · exact hy
    · rw [hsquare]
      norm_num
  have hpoint := fun x => hpoint hsin t (.number x) x (.refl trivial) ⟨Reading.known_number x, rfl⟩
  refine ⟨.mono (hpoint _) ?_, .mono (hpoint 0) ?_, .mono (hpoint 1) ?_⟩
  · intro r t' ⟨hr, hunit, _⟩
    rw [Multivector.squaredNorm_eq hr.denotes, Reading.eq_squares (NumericTarget.ready A t').squares]
    exact hunit
  · intro r t' ⟨_, _, hfirst, _⟩
    exact hfirst rfl
  · intro r t' ⟨_, _, _, hlast⟩
    exact hlast rfl

end Clifford
