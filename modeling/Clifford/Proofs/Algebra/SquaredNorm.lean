import Clifford.Proofs.Algebra.Involutions

/-!
# Squared norms of products

The squared norm adds up squares without any sign, and still is the scalar part of the product with
the reverse: the sign of multiplying a blade with itself is that of reversing it. Multiplying by a
versor, from either side, multiplies it by the squared norm of the versor, in any diagonal metric.

## Main definitions

- `Algebra.normedProduct` — a geometric product together with its squared norm

## Main results

- `Algebra.normSquared_multiplicative` — both properties, for any diagonal metric
-/

namespace Clifford

namespace Algebra

variable {σ K S V : Type} [Number K] [Target σ K S V]

/-- A geometric product together with its squared norm. -/
def normedProduct (A : Algebra K S) (a b : Multivector K S) :
    Emission σ K (Multivector K S × Factor K S) := do
  let product ← A.mul .geometric a b
  let norm ← A.normSquared product
  pure (product, norm)

variable [ExactNumber K] {M : Reading σ K S V} {A : Algebra K S} {s : σ} {q : Nat → K}
  {a b : Multivector K S} {f g : Values K}

/-- A product with an unmarked factor is not marked, so its squared norm is computed. -/
theorem normedProduct_gives (hM : M.Sound) (hA : M.Ready A s q) (ha : M.Denotes A s a f)
    (hb : M.Denotes A s b g) (hunmarked : (a.knownUnit && b.knownUnit) = false) :
    (A.normedProduct a b).Gives s fun (product, norm) s' => M.Advances s s' ∧
      product.knownUnit = false ∧
      M.HasValue s' norm (Values.normSquared q (Values.convolve (Blade.twist q) f g)) := by
  refine .bind (.mono (mul_gives hM hA ha hb .geometric) ?_)
  intro product s₁ ⟨hadv₁, hproduct, hmark⟩
  rw [ProductKind.kernel_geometric] at hproduct
  rw [Bool.and_assoc, hunmarked, Bool.and_false] at hmark
  refine .bind (.mono (normSquared_of_unmarked hM (hA.advance hadv₁) hproduct hmark) ?_)
  intro norm s₂ ⟨hadv₂, hnorm⟩
  exact .pure ⟨hadv₁.trans hadv₂, hmark, hnorm⟩

/-- **The squared norm is the scalar part of the product with the reverse, and multiplying by a
versor from either side multiplies it by that of the versor.** Of the first multivector `a` nothing
is assumed; if it is marked as a unit, then its squared norm is taken to be one, and the products
still have the scalar part of `a` times its reverse as a factor. The metric may have any entries
that have values, among them zeros, negative numbers and symbols. -/
theorem normSquared_multiplicative (hM : M.Sound) (hopen : M.Open s [])
    (hmetric : ∀ square ∈ A.metric, M.Known s square) (ha : M.Member A s a)
    (hb : M.Member A s b) (hversor : (M.values s b).Versor (M.squares s A.metric))
    (hunmarked : b.knownUnit = false) :
    Emission.Gives (do
      let reverse ← A.reverse a
      let square ← A.mul .geometric a reverse
      let norm ← A.normSquared a
      let ofVersor ← A.normSquared b
      let left ← A.normedProduct a b
      let right ← A.normedProduct b a
      pure (square, norm, ofVersor, left, right)) s
        fun (square, norm, ofVersor, left, right) s' => ∃ x y,
          M.HasValue s' (square.value 0) x ∧
          M.HasValue s' norm (if a.knownUnit then 1 else x) ∧
          M.HasValue s' ofVersor y ∧
          (left.1.knownUnit = false ∧ M.HasValue s' left.2 (x * y)) ∧
          right.1.knownUnit = false ∧ M.HasValue s' right.2 (x * y) := by
  have hA : M.Ready A s (M.squares s A.metric) := ⟨hopen, Reading.squares_spec hmetric⟩
  have ha₀ := ha.denotes
  have hb₀ := hb.denotes
  generalize M.squares s A.metric = q at hA hversor
  generalize M.values s a = f at ha₀
  generalize M.values s b = g at hb₀ hversor
  refine .bind (.mono (acts_reverse hM hA.ready ha₀) ?_)
  intro reverse s₁ ⟨hadv₁, hreverse⟩
  have hadv := hadv₁
  refine .bind (.mono (geometric_gives hM (hA.advance hadv) (ha₀.mono hadv.symbols) hreverse) ?_)
  intro square s₂ ⟨hadv₂, hsquare⟩
  have hadv := hadv.trans hadv₂
  refine .bind (.mono (normSquared_emits hM (hA.advance hadv) (ha₀.mono hadv.symbols)) ?_)
  intro norm s₃ ⟨hadv₃, hnorm⟩
  have hadv := hadv.trans hadv₃
  refine .bind (.mono (normSquared_of_unmarked hM (hA.advance hadv) (hb₀.mono hadv.symbols)
    hunmarked) ?_)
  intro ofVersor s₄ ⟨hadv₄, hofVersor⟩
  have hadv := hadv.trans hadv₄
  refine .bind (.mono (normedProduct_gives hM (hA.advance hadv) (ha₀.mono hadv.symbols)
    (hb₀.mono hadv.symbols) (by rw [hunmarked, Bool.and_false])) ?_)
  intro left s₅ ⟨hadv₅, hleft, hofLeft⟩
  have hadv := hadv.trans hadv₅
  refine .bind (.mono (normedProduct_gives hM (hA.advance hadv) (hb₀.mono hadv.symbols)
    (ha₀.mono hadv.symbols) (by rw [hunmarked, Bool.false_and])) ?_)
  intro right s₆ ⟨hadv₆, hright, hofRight⟩
  -- What the results stand for; the two products differ in the side of the versor only.
  have hscalar := hsquare.hasValue 0
  rw [Values.convolve_reversed_zero] at hscalar
  rw [hversor.normSquared_mul] at hofLeft
  rw [hversor.normSquared_mul_left, mul_comm] at hofRight
  have hadv₄₆ := (hadv₄.trans hadv₅).trans hadv₆
  exact .pure ⟨_, _, (hadv₃.trans hadv₄₆).symbols.hasValue hscalar,
    hadv₄₆.symbols.hasValue hnorm, (hadv₅.trans hadv₆).symbols.hasValue hofVersor,
    ⟨hleft, hadv₆.symbols.hasValue hofLeft⟩, hright, hofRight⟩

end Algebra

/-! ### A vector of the plane with a symbol -/

theorem Values.versor_plane {K : Type} [Number K] [ExactNumber K] (q : Nat → K) (x y : K) :
    Versor q (single (.vector 0) x + single (.vector 1) y) :=
  .vector ((IsVector.single (by decide) x).add (.single (by decide) y))

/-- The vector of the plane with an input for its first coordinate. -/
def Multivector.vectorInInputPlane (x : ℚ) : Multivector ℚ Handle where
  owner := 0
  components := [(.vector 0, Program.singleInput.1), (.vector 1, .number x)]

theorem Multivector.denotes_vectorInInputPlane (x y : ℚ) :
    (Program.reading fun _ => some x).Denotes Algebra.inputPlane Program.singleInput.2
      (vectorInInputPlane y) (Values.single (.vector 0) x + Values.single (.vector 1) y) where
  owner := rfl
  nodup := by
    change ([Blade.vector 0, Blade.vector 1] : List Blade).Nodup
    decide
  known := by
    rintro c (_ | ⟨_, _ | ⟨_, ⟨⟩⟩⟩)
    · exact Program.known_singleInput x
    · exact Reading.known_number y
  values_eq := by
    have hfirst : Blade.vector 0 ∉ [Blade.vector 1] := by decide
    refine (Reading.componentValues_cons hfirst).trans ?_
    rw [Reading.componentValues_cons List.not_mem_nil, Reading.componentValues_nil, add_zero,
      Program.value_singleInput, Reading.value_number]
    rfl

theorem Algebra.normSquared_multiplicative_inputPlane :
    let a : Multivector ℚ Handle := .inInputPlane 1
    let b : Multivector ℚ Handle := .vectorInInputPlane 3
    let M := Program.reading fun _ => some 5
    Emission.Gives (do
      let reverse ← inputPlane.reverse a
      let square ← inputPlane.mul .geometric a reverse
      let norm ← inputPlane.normSquared a
      let ofVersor ← inputPlane.normSquared b
      let left ← inputPlane.normedProduct a b
      let right ← inputPlane.normedProduct b a
      pure (square, norm, ofVersor, left, right)) Program.singleInput.2
        fun (square, norm, ofVersor, left, right) s' => ∃ x y,
          M.HasValue s' (square.value 0) x ∧ M.HasValue s' norm x ∧
          M.HasValue s' ofVersor y ∧
          (left.1.knownUnit = false ∧ M.HasValue s' left.2 (x * y)) ∧
          right.1.knownUnit = false ∧ M.HasValue s' right.2 (x * y) := by
  have hb := Multivector.denotes_vectorInInputPlane 5 3
  refine normSquared_multiplicative Program.sound_reading (Program.orderly_singleInput _)
    (known_inputPlane _) (Multivector.member_inInputPlane _ 1) hb.toMember ?_ rfl
  rw [hb.values_eq]
  exact Values.versor_plane _ 5 3

end Clifford
