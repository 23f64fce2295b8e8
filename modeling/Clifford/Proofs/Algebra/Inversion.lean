import Clifford.Proofs.Algebra.Involutions
import Clifford.Proofs.Algebra.Literals
import Clifford.Proofs.Algebra.Normalization
import Clifford.Proofs.Values.Exterior

/-!
# Inverses of versors

Where a multivector commutes with its reverse and their product is a scalar, this scalar is the
squared norm, and the inverse is the reverse times its reciprocal. The inverse of a single component
is computed by another formula, in which the reversion is a sign and the metric is divided by; it
gives the same multiple of the reverse, in metrics with negative directions as well. A literal zero
for the squared norm is refused, and for numbers it is literal whenever it is zero.

## Main definitions

- `Algebra.reversedProducts` — the products of a multivector with its reverse

## Main results

- `Algebra.inverse_gives` — an inverse is the reverse times the reciprocal of the squared norm
- `Algebra.inverse_fails` — numbers whose squared norm is zero have no inverse
- `Algebra.inverse_two_sided` — an inverse is one on both sides
-/

namespace Clifford

variable {σ K S V : Type} [Number K]

/-- A coefficient that is a sign over the squared blade and over the given coefficient makes the
multiple of the reverse that inverts the squared norm. -/
theorem Values.single_eq_mul_reversed {R : Type*} [CommRing R] {b : Blade} {v w x : R}
    (hx : x * v * w = Blade.reverseSign R b) :
    x * x * w * (w * (v * v)) = 1 ∧
      single b x = fun c => x * x * w * reversed (single b v) c := by
  -- The sign is its own inverse, so the coefficient need not be divided once more.
  have hsquare : x * v * w * (x * v * w) = 1 := by rw [hx, Blade.reverseSign_mul_self]
  refine ⟨by linear_combination hsquare, ?_⟩
  funext c
  by_cases hc : b = c
  · rw [← hc, reversed_eq, single_self, single_self, ← hx]
    linear_combination -x * hsquare
  · rw [reversed_eq, single_of_ne x hc, single_of_ne v hc, mul_zero, mul_zero]

namespace Algebra

variable [Target σ K S V]

/-- The products of a multivector with its reverse, the multivector first and the reverse first. -/
def reversedProducts (A : Algebra K S) (m : Multivector K S) :
    Emission σ K (Multivector K S × Multivector K S) := do
  let reverse ← A.reverse m
  let right ← A.mul .geometric m reverse
  let left ← A.mul .geometric reverse m
  pure (right, left)

section Exact

variable [ExactNumber K] {M : Reading σ K S V} {A : Algebra K S} {s : σ} {q : Nat → K}
  {m : Multivector K S} {f : Values K}

theorem reversedProducts_gives (hM : M.Sound) (hA : M.Ready A s q) (hm : M.Denotes A s m f) :
    (A.reversedProducts m).Gives s fun (right, left) s' =>
      M.Denotes A s' right (Values.convolve (Blade.twist q) f (Values.reversed f)) ∧
        M.Denotes A s' left (Values.convolve (Blade.twist q) (Values.reversed f) f) := by
  refine .bind (.mono (acts_reverse hM hA.ready hm) ?_)
  intro reverse s₁ ⟨hadv₁, hreverse⟩
  have hA₁ := hA.advance hadv₁
  have hm₁ := hm.mono hadv₁.symbols
  refine .bind (.mono (geometric_gives hM hA₁ hm₁ hreverse) ?_)
  intro right s₂ ⟨hadv₂, hright⟩
  refine .bind (.mono (geometric_gives hM (hA₁.advance hadv₂) (hreverse.mono hadv₂.symbols)
    (hm₁.mono hadv₂.symbols)) ?_)
  intro left s₃ ⟨hadv₃, hleft⟩
  exact .pure ⟨hright.mono hadv₃.symbols, hleft⟩

/-- Both products with the reverse are the same scalar, which is then the squared norm. -/
theorem eq_normSquared_of_reversedProducts (hM : M.Sound) (hA : M.Ready A s q)
    (hm : M.Denotes A s m f) {x : K}
    (hscalar : (A.reversedProducts m).Gives s fun (right, left) s' =>
      M.Denotes A s' right (Values.scalar x) ∧ M.Denotes A s' left (Values.scalar x)) :
    Values.convolve (Blade.twist q) f (Values.reversed f) = Values.scalar x ∧
      Values.convolve (Blade.twist q) (Values.reversed f) f = Values.scalar x ∧
      Values.normSquared q f = x := by
  obtain ⟨⟨right, left⟩, s', -, ⟨hright, hleft⟩, hright', hleft'⟩ :=
    (reversedProducts_gives hM hA hm).and hscalar
  have hx := hright.values_eq.symm.trans hright'.values_eq
  refine ⟨hx, hleft.values_eq.symm.trans hleft'.values_eq, ?_⟩
  rw [← Values.convolve_reversed_zero, hx, Values.scalar_zero]

end Exact

variable [FieldNumber K] {M : Reading σ K S V} {A : Algebra K S} {s : σ} {q : Nat → K}
  {m : Multivector K S} {f : Values K}

/-- The inverse of a single component is a multiple of its reverse by the reciprocal of the squared
norm. -/
theorem inverseComponent_eq_reversed (hM : M.Sound) (hA : M.Ready A s q)
    (hm : M.Denotes A s m f) {b : Blade} {value : Factor K S} (hsingle : m.components = [(b, value)])
    {square : K} (hsquare : (A.metric.factors? b).bind Term.product? = some square)
    (hne : Values.normSquared q f ≠ 0) :
    (A.inverseComponent b value square : Emission σ K (Multivector K S)).Gives s fun r s' =>
      M.Advances s s' ∧ ∃ z, z * Values.normSquared q f = 1 ∧
        M.Denotes A s' r fun c => z * Values.reversed f c := by
  have hvalue : M.Known s value := hm.known (b, value) (by rw [hsingle]; simp)
  have hf : f = Values.single b (M.value s value) := by
    rw [← hm.values_eq, Reading.values, hsingle, Reading.componentValues_cons List.not_mem_nil,
      Reading.componentValues_nil, add_zero]
  have hweight : b.weight q = square := by
    obtain ⟨squares, hsquares, hproduct⟩ := Option.bind_eq_some_iff.1 hsquare
    rw [← (hA.squares.factors?_eq_some hsquares).2, Reading.termValue_of_product? hproduct]
  rw [hf, Values.normSquared_single, hweight] at hne ⊢
  refine .mono (inverseComponent_gives hM hA.ready b hvalue square) ?_
  intro r s₁ ⟨hadv, ⟨x, hquotient, hr⟩, _⟩
  -- Neither factor of the squared norm is zero, so both divisions can be undone.
  have hvalue_ne : M.value s value ≠ 0 := by
    intro h
    rw [h, mul_zero, mul_zero] at hne
    exact hne rfl
  have hx : x * M.value s value * square = Blade.reverseSign K b := by
    rw [hquotient.mul_cancel hvalue_ne]
    exact FieldNumber.div_mul_cancel _ (left_ne_zero_of_mul hne)
  obtain ⟨hz, hmultiple⟩ := Values.single_eq_mul_reversed hx
  rw [hmultiple] at hr
  exact ⟨hadv, _, hz, hr⟩

/-- **An inverse is the reverse times the reciprocal of the squared norm**, whichever formula it is
computed by. -/
theorem inverse_gives (hM : M.Sound) (hA : M.Ready A s q) (hm : M.Denotes A s m f)
    (hunit : m.knownUnit = false) (hne : Values.normSquared q f ≠ 0) :
    (A.inverse m : Emission σ K (Multivector K S)).Gives s fun r s' => M.Advances s s' ∧
      ∃ z, z * Values.normSquared q f = 1 ∧ M.Denotes A s' r fun b => z * Values.reversed f b := by
  refine .bind (check_gives hm.owner ?_)
  rw [hunit, if_neg Bool.false_ne_true]
  refine .bind (.mono (normSquared_of_unmarked hM hA hm hunit) ?_)
  intro square s₁ ⟨hadv₁, hsquare⟩
  -- A literal zero would have the value zero.
  have hzero : ¬ square.isZero = true := fun h =>
    hne (hsquare.value_eq.symm.trans (Reading.value_of_isZero h))
  rw [if_neg hzero]
  refine .bind (.mono (annotate_gives hM hadv₁.ready "inverse") ?_)
  intro _ s₂ hadv₂
  have hadv := hadv₁.trans hadv₂
  have hm₂ := hm.mono hadv.symbols
  have hsquare₂ := hadv₂.symbols.hasValue hsquare
  have hreverse : (A.inverseByReverse m square).Gives s₂ fun r s' => M.Advances s s' ∧
      ∃ z, z * Values.normSquared q f = 1 ∧
        M.Denotes A s' r fun b => z * Values.reversed f b := by
    refine .mono (inverseByReverse_gives hM hadv₂.ready hm₂ hsquare₂.known) ?_
    intro r s₃ ⟨hadv₃, ⟨z, hquotient, hr⟩, _⟩
    rw [hsquare₂.value_eq] at hquotient
    exact ⟨hadv.trans hadv₃, z, hquotient.mul_cancel hne, hr⟩
  split
  · rename_i b value hsingle
    split
    · rename_i bladeSquare hbladeSquare
      refine .mono (inverseComponent_eq_reversed hM (hA.advance hadv) hm₂ hsingle hbladeSquare
        hne) ?_
      exact fun r s₃ h => ⟨hadv.trans h.1, h.2⟩
    · exact hreverse
  · exact hreverse

/-- **Numbers whose squared norm is zero have no inverse.** -/
theorem inverse_fails (hM : M.Sound) (hA : M.Ready A s q) (hm : M.Denotes A s m f)
    (hmetric : ∀ square ∈ A.metric, square.isNumber = true)
    (hnumbers : ∀ c ∈ m.components, c.2.isNumber = true) (hunit : m.knownUnit = false)
    (hzero : Values.normSquared q f = 0) :
    (A.inverse m : Emission σ K (Multivector K S)).Fails s (.divisionByZero "inverse")
      fun s' => M.Advances s s' := by
  refine Emission.Gives.bind_fails (check_gives hm.owner ?_)
  rw [hunit, if_neg Bool.false_ne_true]
  refine Emission.Gives.bind_fails
    (.mono (normSquared_of_null hM hA hm hmetric hnumbers hunit hzero) ?_)
  intro square s₁ ⟨hadv, hsquare⟩
  rw [if_pos hsquare]
  exact .bind (.throw hadv)

/-- **An inverse is one on both sides.** If both products of numbers with their reverse are the same
scalar, then there is no inverse if the scalar is zero, and otherwise the products with the inverse
are both one. The metric may have any numbers for its entries. -/
theorem inverse_two_sided (hM : M.Sound) (hopen : M.Open s [])
    (hmetric : ∀ square ∈ A.metric, square.isNumber = true) (hm : M.Member A s m)
    (hnumbers : ∀ c ∈ m.components, c.2.isNumber = true) (hunit : m.knownUnit = false) {x : K}
    (hscalar : (A.reversedProducts m).Gives s fun (right, left) s' =>
      M.Denotes A s' right (Values.scalar x) ∧ M.Denotes A s' left (Values.scalar x)) :
    (x = 0 → (A.inverse m : Emission σ K (Multivector K S)).Fails s (.divisionByZero "inverse")
      fun s' => M.Advances s s') ∧
    (x ≠ 0 → Emission.Gives (do
      let inverse ← A.inverse m
      let left ← A.mul .geometric inverse m
      let right ← A.mul .geometric m inverse
      pure (left, right)) s fun (left, right) s' =>
        M.Denotes A s' left (Values.scalar 1) ∧ M.Denotes A s' right (Values.scalar 1)) := by
  have hA : M.Ready A s (M.squares s A.metric) := Reading.ready_of_numbers hopen hmetric
  have hm₀ := hm.denotes
  generalize M.squares s A.metric = q at hA
  generalize M.values s m = f at hm₀
  obtain ⟨hmul, hmul', hnorm⟩ := eq_normSquared_of_reversedProducts hM hA hm₀ hscalar
  constructor
  · intro hzero
    exact inverse_fails hM hA hm₀ hmetric hnumbers hunit (hnorm.trans hzero)
  · intro hne
    have hinverse := inverse_gives hM hA hm₀ hunit (hnorm ▸ hne)
    rw [hnorm] at hinverse
    refine .bind (.mono hinverse ?_)
    intro inverse s₁ ⟨hadv₁, z, hz, hr⟩
    have hA₁ := hA.advance hadv₁
    have hm₁ := hm₀.mono hadv₁.symbols
    change M.Denotes A s₁ inverse (z • Values.reversed f) at hr
    refine .bind (.mono (geometric_gives hM hA₁ hr hm₁) ?_)
    intro left s₂ ⟨hadv₂, hleft⟩
    refine .bind (.mono (geometric_gives hM (hA₁.advance hadv₂) (hm₁.mono hadv₂.symbols)
      (hr.mono hadv₂.symbols)) ?_)
    intro right s₃ ⟨hadv₃, hright⟩
    -- The reciprocal can be moved out of either product, and cancels the scalar.
    have hone : z • Values.scalar x = Values.scalar 1 := by
      rw [Values.scalar, Values.smul_single, hz, Values.scalar]
    rw [Values.convolve_smul_left, hmul', hone] at hleft
    rw [Values.convolve_smul_right, hmul, hone] at hright
    exact .pure ⟨hleft.mono hadv₃.symbols, hright⟩

end Algebra

/-! ### Vectors of lines -/

/-- A scalar and a multiple of the vector of a line. -/
def Multivector.inLine (x y : K) : Multivector K Empty where
  owner := 0
  components := [(0, .number x), (.vector 0, .number y)]

omit [Number K] in
theorem Multivector.member_inLine (t : NumericTarget K) (settings : Settings K) (square x y : K) :
    (NumericTarget.reading K).Member (Algebra.line square settings) t (inLine x y) where
  owner := rfl
  nodup := by
    change ([0, Blade.vector 0] : List Blade).Nodup
    decide
  known c _ := NumericTarget.known t c.2

section Lines

variable [ExactNumber K]

/-- A zero for the scalar adds nothing. -/
theorem Multivector.denotes_inLine (t : NumericTarget K) (square y : K) :
    (NumericTarget.reading K).Denotes (Algebra.line square {}) t (inLine 0 y)
      (Values.single (.vector 0) y) where
  toMember := member_inLine t {} square 0 y
  values_eq := by
    have hscalar : (0 : Blade) ∉ [Blade.vector 0] := by decide
    refine (Reading.componentValues_cons hscalar).trans ?_
    rw [Reading.componentValues_cons List.not_mem_nil, Reading.componentValues_nil, add_zero,
      Reading.value_number, Reading.value_number, Values.single_zero, zero_add]

theorem Algebra.reversedProducts_inLine (t : NumericTarget K) (square y : K) :
    ((line square {}).reversedProducts (.inLine 0 y)).Gives t fun (right, left) t' =>
      (NumericTarget.reading K).Denotes (line square {}) t' right
          (Values.scalar (square * (y * y))) ∧
        (NumericTarget.reading K).Denotes (line square {}) t' left
          (Values.scalar (square * (y * y))) := by
  have hversor : (Values.single (.vector 0) y).Versor (line square {}).square := .single _ y
  have hnorm : Values.normSquared (line square {}).square (Values.single (.vector 0) y) =
      square * (y * y) := by
    rw [Values.normSquared_single, Blade.weight_vector _ (by decide)]
    rfl
  have hgives := reversedProducts_gives NumericTarget.sound_reading
    (NumericTarget.ready (line square {}) t) (Multivector.denotes_inLine t square y)
  rwa [hversor.mul_reversed, hversor.reversed_mul, hnorm] at hgives

end Lines

/-- A vector beside an explicit zero, on a negative line and on a null one. -/
theorem Algebra.inverse_two_sided_lines :
    let m : Multivector ℚ Empty := .inLine 0 2
    (Emission.Gives (do
      let inverse ← (line (-1) {}).inverse m
      let left ← (line (-1) {}).mul .geometric inverse m
      let right ← (line (-1) {}).mul .geometric m inverse
      pure (left, right)) NumericTarget.idle fun (left, right) t =>
        (NumericTarget.reading ℚ).Denotes (line (-1) {}) t left (Values.scalar 1) ∧
          (NumericTarget.reading ℚ).Denotes (line (-1) {}) t right (Values.scalar 1)) ∧
    ((line 0 {}).inverse m).Fails NumericTarget.idle (.divisionByZero "inverse")
      fun t => (NumericTarget.reading ℚ).Advances .idle t := by
  have hnumbers : ∀ c ∈ (Multivector.inLine (0 : ℚ) 2).components, c.2.isNumber = true := by
    decide
  constructor
  · exact (inverse_two_sided NumericTarget.sound_reading trivial (by decide)
      (Multivector.denotes_inLine .idle (-1) 2).toMember hnumbers rfl
      (reversedProducts_inLine .idle (-1) 2)).2 (by decide +kernel)
  · exact (inverse_two_sided NumericTarget.sound_reading trivial (by decide)
      (Multivector.denotes_inLine .idle 0 2).toMember hnumbers rfl
      (reversedProducts_inLine .idle 0 2)).1 (by decide +kernel)

end Clifford
