import Clifford.Proofs.Algebra.Elements
import Clifford.Proofs.Algebra.Product
import Clifford.Proofs.Number.Rational
import Clifford.Proofs.Program.Reading

/-!
# The algebra of the geometric product

Coefficient functions under the geometric product form a unital ring: both ways to bracket a
product of three sum the same triples of blades, because the factor of the product is a cocycle.

## Main results

- `Algebra.geometric_product_associative_unital` — associativity, and `one` as a unit on both sides
-/

namespace Clifford

namespace Values

variable {R : Type*} [CommRing R]

theorem geometric_assoc (q : Nat → R) (f g h : Values R) :
    convolve (Blade.twist q) (convolve (Blade.twist q) f g) h =
      convolve (Blade.twist q) f (convolve (Blade.twist q) g h) :=
  convolve_assoc (fun a b c => Blade.twist_cocycle q a b c) f g h

theorem scalar_one_geometric (q : Nat → R) (f : Values R) :
    convolve (Blade.twist q) (scalar 1) f = f :=
  one_convolve (Blade.twist_zero_left q) f

theorem geometric_scalar_one (q : Nat → R) (f : Values R) :
    convolve (Blade.twist q) f (scalar 1) = f :=
  convolve_one (Blade.twist_zero_right q) f

end Values

/-! ### A plane with a symbol -/

/-- The expression of an input, and the program that has only this input. -/
def Program.singleInput : Factor ℚ Handle × Program ℚ := (Program.input "q").run {}

theorem Program.orderly_singleInput (x : ℚ) : singleInput.2.Orderly (fun _ => some x) [] :=
  orderly_empty.stores (input_yields wellFormed_empty (x := x) (β := fun _ => some x) rfl).1

theorem Program.known_singleInput (x : ℚ) :
    (reading fun _ => some x).Known singleInput.2 singleInput.1 :=
  (input_yields wellFormed_empty (x := x) (β := fun _ => some x) rfl).2.1

theorem Program.value_singleInput (x : ℚ) :
    (reading fun _ => some x).value singleInput.2 singleInput.1 = x :=
  (input_yields wellFormed_empty (x := x) (β := fun _ => some x) rfl).2.2

/-- The plane whose first vector squares to an input, and whose second one is null. -/
def Algebra.inputPlane : Algebra ℚ Handle where
  id := 0
  metric := [Program.singleInput.1, .number 0]
  names := #["", "e0", "e1", "e01"]
  dimension_le := by decide
  size_names := rfl

theorem Algebra.known_inputPlane (x : ℚ) : ∀ square ∈ inputPlane.metric,
    (Program.reading fun _ => some x).Known Program.singleInput.2 square := by
  rintro square (_ | ⟨_, _ | ⟨_, ⟨⟩⟩⟩)
  · exact Program.known_singleInput x
  · exact Reading.known_number 0

/-- A multivector of the plane with the given scalar, the input times the first vector, and a
negative multiple of the area. -/
def Multivector.inInputPlane (x : ℚ) : Multivector ℚ Handle where
  owner := 0
  components := [(0, .number x), (1, Program.singleInput.1), (3, .number (-2))]

theorem Multivector.member_inInputPlane (x y : ℚ) :
    (Program.reading fun _ => some x).Member Algebra.inputPlane Program.singleInput.2
      (inInputPlane y) where
  owner := rfl
  nodup := by
    change ([0, 1, 3] : List Blade).Nodup
    decide
  known := by
    rintro c (_ | ⟨_, _ | ⟨_, _ | ⟨_, ⟨⟩⟩⟩⟩)
    · exact Reading.known_number y
    · exact Program.known_singleInput x
    · exact Reading.known_number (-2)

namespace Algebra

variable {σ K S V : Type} [Number K] [ExactNumber K] [Target σ K S V] {M : Reading σ K S V}
  {A : Algebra K S} {s : σ} {a b c : Multivector K S}

theorem geometric_gives {f g : Values K} {q : Nat → K} (hM : M.Sound) (hA : M.Ready A s q)
    (ha : M.Denotes A s a f) (hb : M.Denotes A s b g) :
    (A.mul .geometric a b : Emission σ K (Multivector K S)).Gives s fun r s' =>
      M.Advances s s' ∧ M.Denotes A s' r (Values.convolve (Blade.twist q) f g) := by
  refine .mono (mul_gives hM hA ha hb .geometric) ?_
  rintro r s' ⟨hadv, hr, -⟩
  rw [ProductKind.kernel_geometric] at hr
  exact ⟨hadv, hr⟩

/-- **The geometric product is associative, and the unit scalar is a unit for it on both sides.**
The metric may have any entries that have values, among them zeros, negative numbers and symbols.
Both brackets and both products with one are computed one after another on the same target, and
compared in the state that this leaves behind. -/
theorem geometric_product_associative_unital (hM : M.Sound) (hopen : M.Open s [])
    (hmetric : ∀ square ∈ A.metric, M.Known s square) (ha : M.Member A s a)
    (hb : M.Member A s b) (hc : M.Member A s c) :
    Emission.Gives (do
      let ab ← A.mul .geometric a b
      let left ← A.mul .geometric ab c
      let bc ← A.mul .geometric b c
      let right ← A.mul .geometric a bc
      let one ← A.one
      let oneLeft ← A.mul .geometric one a
      let oneRight ← A.mul .geometric a one
      pure (left, right, oneLeft, oneRight)) s fun (left, right, oneLeft, oneRight) s' =>
        M.Agree s' left right ∧ M.Agree s' oneLeft a ∧ M.Agree s' oneRight a := by
  have hA : M.Ready A s (M.squares s A.metric) := ⟨hopen, Reading.squares_spec hmetric⟩
  have ha₀ := ha.denotes
  have hb₀ := hb.denotes
  have hc₀ := hc.denotes
  refine .bind (.mono (geometric_gives hM hA ha₀ hb₀) ?_)
  rintro ab s₁ ⟨hadv₁, hab⟩
  have hadv := hadv₁
  refine .bind (.mono (geometric_gives hM (hA.advance hadv) hab (hc₀.mono hadv.symbols)) ?_)
  rintro left s₂ ⟨hadv₂, hleft⟩
  have hadv := hadv.trans hadv₂
  refine .bind (.mono (geometric_gives hM (hA.advance hadv) (hb₀.mono hadv.symbols)
    (hc₀.mono hadv.symbols)) ?_)
  rintro bc s₃ ⟨hadv₃, hbc⟩
  have hadv := hadv.trans hadv₃
  refine .bind (.mono (geometric_gives hM (hA.advance hadv) (ha₀.mono hadv.symbols) hbc) ?_)
  rintro right s₄ ⟨hadv₄, hright⟩
  have hadv := hadv.trans hadv₄
  refine .bind (.mono (one_gives hM hadv.ready) ?_)
  rintro one s₅ ⟨hadv₅, hone, -⟩
  have hadv := hadv.trans hadv₅
  refine .bind (.mono (geometric_gives hM (hA.advance hadv) hone (ha₀.mono hadv.symbols)) ?_)
  rintro oneLeft s₆ ⟨hadv₆, honeLeft⟩
  have hadv := hadv.trans hadv₆
  refine .bind (.mono (geometric_gives hM (hA.advance hadv) (ha₀.mono hadv.symbols)
    (hone.mono hadv₆.symbols)) ?_)
  rintro oneRight s₇ ⟨hadv₇, honeRight⟩
  have hadv := hadv.trans hadv₇
  have hsame := ha₀.mono hadv.symbols
  rw [Values.geometric_assoc] at hleft
  rw [Values.scalar_one_geometric] at honeLeft
  rw [Values.geometric_scalar_one] at honeRight
  have hleft' := hleft.mono (((((hadv₃.trans hadv₄).trans hadv₅).trans hadv₆).trans hadv₇).symbols)
  have hright' := hright.mono (((hadv₅.trans hadv₆).trans hadv₇).symbols)
  exact .pure ⟨hleft'.agree hright', (honeLeft.mono hadv₇.symbols).agree hsame,
    honeRight.agree hsame⟩

theorem geometric_product_associative_unital_inputPlane :
    Emission.Gives (do
      let ab ← inputPlane.mul .geometric (.inInputPlane 1) (.inInputPlane 2)
      let left ← inputPlane.mul .geometric ab (.inInputPlane 3)
      let bc ← inputPlane.mul .geometric (.inInputPlane 2) (.inInputPlane 3)
      let right ← inputPlane.mul .geometric (.inInputPlane 1) bc
      let one ← inputPlane.one
      let oneLeft ← inputPlane.mul .geometric one (.inInputPlane 1)
      let oneRight ← inputPlane.mul .geometric (.inInputPlane 1) one
      pure (left, right, oneLeft, oneRight)) Program.singleInput.2
        fun (left, right, oneLeft, oneRight) s' =>
          (Program.reading fun _ => some 5).Agree s' left right ∧
            (Program.reading fun _ => some 5).Agree s' oneLeft (.inInputPlane 1) ∧
            (Program.reading fun _ => some 5).Agree s' oneRight (.inInputPlane 1) :=
  geometric_product_associative_unital Program.sound_reading (Program.orderly_singleInput _)
    (known_inputPlane _) (Multivector.member_inInputPlane _ 1) (Multivector.member_inInputPlane _ 2)
    (Multivector.member_inInputPlane _ 3)

end Algebra

end Clifford
