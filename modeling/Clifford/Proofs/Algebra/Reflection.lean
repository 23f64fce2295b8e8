import Clifford.Proofs.Algebra.Inversion
import Clifford.Proofs.Algebra.UnitHints

/-!
# Reflections in hyperplanes

A reflection is a multiple of the sandwich by its normal. The sandwich is expanded into pairs of
components, the multiple is a quotient of its own, and neither the inverse of the normal nor a
product with it is computed. The result is the negated product with the normal and its inverse all
the same, in metrics with negative and null directions too: for a vector, the reverse in the
sandwich is the vector itself, and its square is the squared norm that is divided by.

Sandwiching twice with a vector multiplies with the square of its squared norm, and so does the
sandwich with squared norms. Both are undone by the multiple.

## Main definitions

- `Algebra.reflectByProducts` — the reflection by plain products and an inverse

## Main results

- `Values.IsVector.conjugate_conjugate` — two sandwiches with one vector
- `Algebra.reflect_involutive_isometry` — reflections undo themselves and keep squared norms
-/

namespace Clifford

/-! ### Sandwiches with a vector -/

namespace Values

variable {R : Type*} [CommRing R] {q : Nat → R} {f g : Values R}

theorem conjugate_smul (q : Nat → R) (z : R) (f g : Values R) :
    conjugate q f (z • g) = z • conjugate q f g := by
  rw [conjugate, conjugate, convolve_smul_right, convolve_smul_left]

theorem conjugate_scalar (q : Nat → R) (x : R) (g : Values R) :
    conjugate q (scalar x) g = (x * x) • g := by
  rw [conjugate, reversed_scalar, convolve_scalar, scalar_convolve]
  funext b
  rw [Pi.smul_apply, smul_eq_mul, mul_assoc]

/-- **Two sandwiches with one vector** multiply with the square of its squared norm. -/
theorem IsVector.conjugate_conjugate (hf : f.IsVector) (g : Values R) :
    conjugate q f (conjugate q f g) = (normSquared q f * normSquared q f) • g := by
  rw [← conjugate_convolve, hf.mul_self, conjugate_scalar]

section Reciprocal

variable {z : R} (hz : z * normSquared q f = -1)
include hz

/-- Dividing by the negated squared norm twice divides by its square. -/
theorem reciprocal_mul_reciprocal : z * z * (normSquared q f * normSquared q f) = 1 := by
  linear_combination (z * normSquared q f - 1) * hz

/-- A multiple of the sandwich that divides by the negated squared norm undoes itself. -/
theorem IsVector.reflect_reflect (hf : f.IsVector) (g : Values R) :
    z • conjugate q f (z • conjugate q f g) = g := by
  rw [conjugate_smul, hf.conjugate_conjugate, smul_smul, smul_smul, reciprocal_mul_reciprocal hz,
    one_smul]

theorem normSquared_reflect (hf : f.Versor q) (g : Values R) :
    normSquared q (z • conjugate q f g) = normSquared q g := by
  rw [normSquared_smul, hf.normSquared_conjugate, ← mul_assoc, reciprocal_mul_reciprocal hz, one_mul]

/-- The multiple of the sandwich is the negated product with an inverse. -/
theorem neg_convolve_reciprocal {w : R} (hw : w * normSquared q f = 1) :
    -convolve (Blade.twist q) (convolve (Blade.twist q) f g) (w • reversed f) =
      z • conjugate q f g := by
  have hreciprocal : z = -w := by
    linear_combination w * hz - z * hw
  rw [convolve_smul_right, hreciprocal, neg_smul]
  rfl

end Reciprocal

end Values

/-! ### Reflections -/

namespace Algebra

variable {σ K S V : Type} [Number K] [Target σ K S V]

/-- The reflection of an operand by plain products: the negated product of the normal, the operand
and the inverse of the normal. -/
def reflectByProducts (A : Algebra K S) (normal x : Multivector K S) :
    Emission σ K (Multivector K S) := do
  let inverse ← A.inverse normal
  let left ← A.mul .geometric normal x
  let product ← A.mul .geometric left inverse
  A.negate product

variable [FieldNumber K] {M : Reading σ K S V} {A : Algebra K S} {s : σ} {q : Nat → K}
  {normal x : Multivector K S} {f g : Values K}

/-- A normal that is not marked can be reflected in unless its squared norm is zero. -/
theorem reflect_gives (hM : M.Sound) (hA : M.Ready A s q) (hnormal : M.Denotes A s normal f)
    (hx : M.Denotes A s x g) (hunit : normal.knownUnit = false)
    (hne : Values.normSquared q f ≠ 0) :
    (A.reflect normal x : Emission σ K (Multivector K S)).Gives s fun r s' => M.Advances s s' ∧
      ∃ z, z * Values.normSquared q f = -1 ∧ M.Denotes A s' r (z • Values.conjugate q f g) := by
  refine .mono ((reflect_ends hM hA hnormal hx).gives (by simp [hunit, hne])) ?_
  intro r s₁ ⟨hadv, _, square, z, _, hsquare, hquotient, hr⟩
  rw [hunit, if_neg Bool.false_ne_true] at hsquare
  rw [hsquare.value_eq] at hquotient
  exact ⟨hadv, z, hquotient.mul_cancel hne, hr⟩

/-- Numbers whose squared norm is zero are no normal. -/
theorem reflect_fails (hM : M.Sound) (hA : M.Ready A s q) (hnormal : M.Denotes A s normal f)
    (hmetric : ∀ square ∈ A.metric, square.isNumber = true)
    (hnumbers : ∀ c ∈ normal.components, c.2.isNumber = true) (hunit : normal.knownUnit = false)
    (hzero : Values.normSquared q f = 0) :
    (A.reflect normal x : Emission σ K (Multivector K S)).Fails s (.divisionByZero "reflect")
      fun s' => M.Advances s s' := by
  refine Emission.Gives.bind_fails
    (.mono (normSquared_of_null hM hA hnormal hmetric hnumbers hunit hzero) ?_)
  intro square s₁ ⟨hadv, hsquare⟩
  rw [if_pos hsquare]
  exact .bind (.throw hadv)

theorem reflectByProducts_gives (hM : M.Sound) (hA : M.Ready A s q)
    (hnormal : M.Denotes A s normal f) (hx : M.Denotes A s x g)
    (hunit : normal.knownUnit = false) {z : K} (hz : z * Values.normSquared q f = -1) :
    (A.reflectByProducts normal x : Emission σ K (Multivector K S)).Gives s fun r s' =>
      M.Advances s s' ∧ M.Denotes A s' r (z • Values.conjugate q f g) := by
  have hne : Values.normSquared q f ≠ 0 := by
    intro hzero
    rw [hzero, mul_zero] at hz
    exact one_ne_zero (neg_eq_zero.1 hz.symm)
  refine .bind (.mono (inverse_gives hM hA hnormal hunit hne) ?_)
  intro inverse s₁ ⟨hadv₁, w, hw, hinverse⟩
  change M.Denotes A s₁ inverse (w • Values.reversed f) at hinverse
  have hadv := hadv₁
  refine .bind (.mono (geometric_gives hM (hA.advance hadv) (hnormal.mono hadv.symbols)
    (hx.mono hadv.symbols)) ?_)
  intro left s₂ ⟨hadv₂, hleft⟩
  have hadv := hadv.trans hadv₂
  refine .bind (.mono (geometric_gives hM (hA.advance hadv) hleft
    (hinverse.mono hadv₂.symbols)) ?_)
  intro product s₃ ⟨hadv₃, hproduct⟩
  have hadv := hadv.trans hadv₃
  refine .mono (negate_gives hM hadv.ready hproduct) ?_
  intro r s₄ ⟨hadv₄, hr, _⟩
  rw [Values.neg_convolve_reciprocal hz hw] at hr
  exact ⟨hadv.trans hadv₄, hr⟩

/-- **Reflections undo themselves and keep squared norms.** In any metric of numbers, nothing can
be reflected in a vector of numbers whose squared norm is zero. If the squared norm is another
number, then every operand can be reflected; the reflection agrees with the negated product of the
normal, the operand and the inverse of the normal; reflected once more it agrees with the operand;
and it has the squared norm of the operand. The operand may have components of all grades, and
symbols for coefficients, and may be marked as a unit. -/
theorem reflect_involutive_isometry (hM : M.Sound) (hopen : M.Open s [])
    (hmetric : ∀ square ∈ A.metric, square.isNumber = true) (hnormal : M.Member A s normal)
    (hvector : (M.values s normal).IsVector) (hunit : normal.knownUnit = false)
    (hx : M.Member A s x) :
    let ns := Values.normSquared (M.squares s A.metric) (M.values s normal)
    ((∀ c ∈ normal.components, c.2.isNumber = true) → ns = 0 →
      (A.reflect normal x : Emission σ K (Multivector K S)).Fails s (.divisionByZero "reflect")
        fun s' => M.Advances s s') ∧
    (ns ≠ 0 → Emission.Gives (do
      let reflected ← A.reflect normal x
      let byProducts ← A.reflectByProducts normal x
      let twice ← A.reflect normal reflected
      pure (reflected, byProducts, twice)) s fun (reflected, byProducts, twice) s' =>
        M.Agree s' reflected byProducts ∧ M.Agree s' twice x ∧
          Values.normSquared (M.squares s A.metric) (M.values s' reflected) =
            Values.normSquared (M.squares s A.metric) (M.values s x)) := by
  intro ns
  have hA : M.Ready A s (M.squares s A.metric) := Reading.ready_of_numbers hopen hmetric
  have hnormal₀ := hnormal.denotes
  have hx₀ := hx.denotes
  constructor
  · intro hnumbers hzero
    exact reflect_fails hM hA hnormal₀ hmetric hnumbers hunit hzero
  · intro hne
    refine .bind (.mono (reflect_gives hM hA hnormal₀ hx₀ hunit hne) ?_)
    intro reflected s₁ ⟨hadv₁, z, hz, hreflected⟩
    have hadv := hadv₁
    refine .bind (.mono (reflectByProducts_gives hM (hA.advance hadv)
      (hnormal₀.mono hadv.symbols) (hx₀.mono hadv.symbols) hunit hz) ?_)
    intro byProducts s₂ ⟨hadv₂, hbyProducts⟩
    have hadv := hadv.trans hadv₂
    refine .bind (.mono (reflect_gives hM (hA.advance hadv) (hnormal₀.mono hadv.symbols)
      (hreflected.mono hadv₂.symbols) hunit hne) ?_)
    intro twice s₃ ⟨hadv₃, z', hz', htwice⟩
    have hadv := hadv.trans hadv₃
    -- Both reflections divide by the same number.
    have hsame : z' = z := mul_right_cancel₀ hne (hz'.trans hz.symm)
    rw [hsame, hvector.reflect_reflect hz] at htwice
    have hreflected₃ := hreflected.mono (hadv₂.trans hadv₃).symbols
    refine .pure ⟨hreflected₃.agree (hbyProducts.mono hadv₃.symbols),
      htwice.agree (hx₀.mono hadv.symbols), ?_⟩
    rw [hreflected₃.values_eq]
    exact Values.normSquared_reflect hz (.vector hvector) _

end Algebra

/-- A scalar and a vector, reflected in a negative vector, and nothing in a null one. -/
theorem Algebra.reflect_involutive_isometry_lines :
    let M := NumericTarget.reading ℚ
    let A : Algebra ℚ Empty := line (-1) {}
    let normal : Multivector ℚ Empty := .onLine 2
    let x : Multivector ℚ Empty := .inLine 1 3
    (((line 0 {}).reflect normal x).Fails NumericTarget.idle (.divisionByZero "reflect")
      fun t => M.Advances .idle t) ∧
    Emission.Gives (do
      let reflected ← A.reflect normal x
      let byProducts ← A.reflectByProducts normal x
      let twice ← A.reflect normal reflected
      pure (reflected, byProducts, twice)) NumericTarget.idle fun (reflected, byProducts, twice) t =>
        M.Agree t reflected byProducts ∧ M.Agree t twice x ∧
          Values.normSquared (M.squares .idle A.metric) (M.values t reflected) =
            Values.normSquared (M.squares .idle A.metric) (M.values .idle x) := by
  have hreflect := fun square : ℚ => reflect_involutive_isometry NumericTarget.sound_reading
    (s := NumericTarget.idle) trivial (isNumber_line square {})
    (Multivector.member_onLine .idle {} square 2) (Multivector.isVector_onLine .idle 2) rfl
    (Multivector.member_inLine .idle {} square 1 3)
  simp only [Multivector.normSquared_onLine] at hreflect
  constructor
  · exact (hreflect 0).1 (by decide) (by decide +kernel)
  · exact (hreflect (-1)).2 (by decide +kernel)

end Clifford
