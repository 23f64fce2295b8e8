import Clifford.Proofs.Algebra.Numeric
import Clifford.Proofs.Algebra.UnitHints
import Clifford.Proofs.Number.Real

/-!
# Inverses of normalized versors

A normalized versor is stated to be a unit whatever the sign of its squared norm is, and a unit is
inverted by reversion alone. The reverse of a normalized versor is its inverse only if the squared
norm is positive; if it is negative, it is the negated inverse.

## Main results

- `Algebra.normalize_inverse_eq_sign` — a normalized versor times its inverse
-/

namespace Clifford

variable {σ K S V : Type} [Number K]

theorem Values.Versor.reversed_mul {R : Type*} [CommRing R] {q : Nat → R} {f : Values R}
    (hf : f.Versor q) :
    convolve (Blade.twist q) (Values.reversed f) f = Values.scalar (normSquared q f) := by
  obtain ⟨n, hright, hleft⟩ := hf.exists_norm
  rw [hleft, ← hright, hf.mul_reversed]

namespace Algebra

variable [OrderedNumber K] [IsEmpty S] [Target σ K S V] {M : Reading σ K S V} {A : Algebra K S}
  {q : Nat → K} {s : σ} {m : Multivector K S} {f : Values K}

/-- **A normalized versor has the sign of the squared norm for its squared norm.** -/
theorem normalize_sign (hM : M.Sound) (hA : M.Ready A s q) (hm : M.Denotes A s m f)
    (hf : f.Versor q) (hne : Values.normSquared q f ≠ 0)
    (hunit : m.knownUnit = true → Number.abs (Values.normSquared q f) = 1) :
    M.Ends (A.settings.unitTolerance?.isSome = true) (A.normalize m) s fun u s' =>
      u.knownUnit = true ∧ ∃ g, M.Denotes A s' u g ∧ g.Versor q ∧
        Values.normSquared q g = Number.sign (Values.normSquared q f) := by
  refine .mono (normalize_ends hM hA hm) (fun h => h.resolve_right hne) ?_
  rintro u s' hadv ⟨hknown, ⟨hm₁, hu⟩ | ⟨b, hlone, heuclidean, hzero, hu⟩ |
    ⟨square, z, -, -, hz, hu⟩⟩
  · refine ⟨hknown, f, hu, hf, ?_⟩
    have hsign := Number.sign_mul_abs (Values.normSquared q f)
    rw [hunit hm₁, mul_one] at hsign
    exact hsign.symm
  · refine ⟨hknown, _, hu, .single b _, ?_⟩
    have hweight := weight_of_isEuclidean hA.squares heuclidean
    have hvalue : M.value s (m.value b) ≠ 0 := value_ne_zero hzero
    have hsquare := normSquared_of_loneEuclidean? hA.squares hm hlone
    rw [Values.normSquared_single, hweight, one_mul, hsquare,
      Number.sign_of_pos (mul_self_pos.2 hvalue)]
    exact Number.sign_mul_sign (hadv.symbols.value_eq (hm.known_value b) ▸ hvalue)
  · refine ⟨hknown, _, hu, hf.scale z, ?_⟩
    rw [Values.normSquared_scale, Number.reciprocal_sqrt_sign hne hz]

/-- **A normalized versor times its inverse is the sign of the squared norm.** If a versor whose
squared norm is not zero can be normalized, then the result can be inverted, and both products with
the inverse are the sign of the squared norm: one if it is positive, and minus one if it is
negative. -/
theorem normalize_inverse_eq_sign (hM : M.Sound) (hA : M.Ready A s q) (hm : M.Denotes A s m f)
    (hf : f.Versor q) (hne : Values.normSquared q f ≠ 0)
    (hunit : m.knownUnit = true → Number.abs (Values.normSquared q f) = 1) :
    M.Ends (A.settings.unitTolerance?.isSome = true) (A.normalize m) s fun u s₁ => Emission.Gives (do
      let inverse ← A.inverse u
      let left ← A.mul .geometric inverse u
      let right ← A.mul .geometric u inverse
      pure (left, right)) s₁ fun (left, right) s₂ =>
        M.Denotes A s₂ left (Values.scalar (Number.sign (Values.normSquared q f))) ∧
          M.Denotes A s₂ right (Values.scalar (Number.sign (Values.normSquared q f))) := by
  refine .mono (normalize_sign hM hA hm hf hne hunit) (fun h => h) ?_
  rintro u s₁ hadv₁ ⟨hknown, g, hu, hg, hsign⟩
  have hA₁ := hA.advance hadv₁
  refine .bind (.mono (inverse_of_unit hM hA₁.ready hu hknown) ?_)
  rintro inverse s₂ ⟨hadv₂, hinverse, -⟩
  have hA₂ := hA₁.advance hadv₂
  have hu₂ := hu.mono hadv₂.symbols
  refine .bind (.mono (geometric_gives hM hA₂ hinverse hu₂) ?_)
  rintro left s₃ ⟨hadv₃, hleft⟩
  refine .bind (.mono (geometric_gives hM (hA₂.advance hadv₃) (hu₂.mono hadv₃.symbols)
    (hinverse.mono hadv₃.symbols)) ?_)
  rintro right s₄ ⟨hadv₄, hright⟩
  rw [hg.reversed_mul, hsign] at hleft
  rw [hg.mul_reversed, hsign] at hright
  exact .pure ⟨hleft.mono hadv₄.symbols, hright⟩

end Algebra

/-! ### A negative line -/

/-- The line whose vector squares to minus one. -/
def Algebra.negativeLine (K : Type) [Number K] : Algebra K Empty := line (-1) {}

/-- A multiple of the vector of a line. -/
def Multivector.onLine (x : K) : Multivector K Empty where
  owner := 0
  components := [(.vector 0, .number x)]

omit [Number K] in
theorem Algebra.isNumber_line (square : K) (settings : Settings K) :
    ∀ x ∈ (Algebra.line square settings).metric, x.isNumber = true :=
  List.forall_mem_singleton.2 rfl

omit [Number K] in
theorem Multivector.isNumber_onLine (x : K) : ∀ c ∈ (onLine x).components, c.2.isNumber = true :=
  List.forall_mem_singleton.2 rfl

omit [Number K] in
theorem Multivector.member_onLine (t : NumericTarget K) (settings : Settings K) (square x : K) :
    (NumericTarget.reading K).Member (Algebra.line square settings) t (onLine x) :=
  ⟨rfl, List.nodup_singleton _, fun c _ => NumericTarget.known t c.2⟩

theorem Multivector.values_onLine [ExactNumber K] (t : NumericTarget K) (x : K) :
    (NumericTarget.reading K).values t (onLine x) = Values.single (.vector 0) x := by
  refine (Reading.componentValues_cons List.not_mem_nil).trans ?_
  rw [Reading.componentValues_nil, add_zero]
  rfl

theorem Multivector.isVector_onLine [ExactNumber K] (t : NumericTarget K) (x : K) :
    ((NumericTarget.reading K).values t (onLine x)).IsVector := by
  rw [values_onLine]
  exact .single (by decide) x

theorem Multivector.normSquared_onLine [ExactNumber K] (t : NumericTarget K)
    (settings : Settings K) (square x : K) :
    Values.normSquared ((NumericTarget.reading K).squares t (Algebra.line square settings).metric)
      ((NumericTarget.reading K).values t (onLine x)) = square * (x * x) := by
  rw [values_onLine, Values.normSquared_single, Blade.weight_vector _ (by decide)]
  rfl

section

variable [OrderedNumber K]

theorem Multivector.denotes_onLine (t : NumericTarget K) (x : K) :
    (NumericTarget.reading K).Denotes (Algebra.negativeLine K) t (onLine x)
      (Values.single (.vector 0) x) where
  owner := rfl
  nodup := List.nodup_singleton _
  known c _ := NumericTarget.known t c.2
  values_eq := values_onLine t x

theorem Algebra.versor_negativeLine (x : K) :
    (Values.single (.vector 0) x).Versor (negativeLine K).square := .single _ x

theorem Algebra.normSquared_negativeLine (x : K) :
    Values.normSquared (negativeLine K).square (Values.single (.vector 0) x) = -(x * x) := by
  rw [Values.normSquared_single, Blade.weight_vector _ (by decide)]
  exact neg_one_mul (x * x)

end

theorem Algebra.normalize_inverse_eq_sign_negativeLine :
    ((negativeLine ℝ).normalize (.onLine 2)).Gives NumericTarget.idle fun u t₁ =>
      (NumericTarget.reading ℝ).Advances .idle t₁ ∧ Emission.Gives (do
        let inverse ← (negativeLine ℝ).inverse u
        let left ← (negativeLine ℝ).mul .geometric inverse u
        let right ← (negativeLine ℝ).mul .geometric u inverse
        pure (left, right)) t₁ fun (left, right) t₂ =>
          (NumericTarget.reading ℝ).Denotes (negativeLine ℝ) t₂ left (Values.scalar (-1)) ∧
            (NumericTarget.reading ℝ).Denotes (negativeLine ℝ) t₂ right (Values.scalar (-1)) := by
  have hnorm := normSquared_negativeLine (2 : ℝ)
  have hneg : -((2 : ℝ) * 2) < 0 := by norm_num
  have hsign : Number.sign (-((2 : ℝ) * 2)) = -1 := by
    rw [Number.sign, if_neg (lt_asymm hneg), if_pos hneg]
  have hends := normalize_inverse_eq_sign NumericTarget.sound_reading
    (NumericTarget.ready (negativeLine ℝ) .idle) (Multivector.denotes_onLine .idle 2)
    (versor_negativeLine 2) (by rw [hnorm]; exact hneg.ne)
    fun h => absurd h Bool.false_ne_true
  rw [hnorm, hsign] at hends
  exact hends.gives Bool.false_ne_true

end Clifford
