import Clifford.Proofs.Algebra.Norm

/-!
# Algebras of numbers

The numeric target has no symbols, so every coefficient is a number and has a value, and the squared
norm of a multivector can be read off its components.

## Main definitions

- `Factor.toNumber` — a factor without symbols, as a number
- `Algebra.square` — the square of a basis vector
- `Multivector.squaredNorm` — the squared norm of a multivector of numbers
- `Algebra.line` — the algebra of a single vector
-/

namespace Clifford

/-- The number that a factor without symbols is. -/
def Factor.toNumber {K : Type} : Factor K Empty → K
  | number x => x

variable {K : Type} [Number K]

/-- The square of a basis vector of an algebra without symbols; one for positions outside of its
metric. -/
def Algebra.square (A : Algebra K Empty) (i : Nat) : K :=
  (A.metric[i]?.map Factor.toNumber).getD 1

namespace NumericTarget

omit [Number K] in
theorem known (t : NumericTarget K) (f : Factor K Empty) :
    (NumericTarget.reading K).Known t f :=
  match f with
  | .number x => Reading.known_number x

theorem value_eq (t : NumericTarget K) (f : Factor K Empty) :
    (NumericTarget.reading K).value t f = f.toNumber :=
  match f with
  | .number _ => rfl

/-- Every multivector whose blades are listed once has coefficients. -/
theorem denotes {A : Algebra K Empty} {m : Multivector K Empty} (howner : m.owner = A.id)
    (hnodup : m.blades.Nodup) (t : NumericTarget K) :
    (NumericTarget.reading K).Denotes A t m ((NumericTarget.reading K).values t m) :=
  Reading.Member.denotes ⟨howner, hnodup, fun c _ => known t c.2⟩

theorem ready (A : Algebra K Empty) (t : NumericTarget K) :
    (NumericTarget.reading K).Ready A t A.square where
  ready := trivial
  squares i := by
    rw [Algebra.square]
    cases A.metric[i]? with
    | none => rfl
    | some square => exact ⟨known t square, value_eq t square⟩

end NumericTarget

/-- The line whose vector has the given square. -/
def Algebra.line (square : K) (settings : Settings K) : Algebra K Empty where
  id := 0
  metric := [.number square]
  names := #["", "e0"]
  settings
  dimension_le := Nat.le_of_ble_eq_true rfl
  size_names := rfl

variable [ExactNumber K]

/-- The multivector of a single term without a zero has the product of its numbers. -/
theorem Algebra.build_term (A : Algebra K Empty) (b : Blade) (term : Term K Empty) {x : K}
    (hzero : term.hasZero = false) (hproduct : term.product? = some x) :
    (A.build [{ blade := b, term }] : Emission (NumericTarget K) K _) =
      pure { owner := A.id, components := [(b, .number x)] } := by
  have hadd : (Cell.add (.empty (A.cellName b)) term false :
      StateM (NumericTarget K) (Cell K Empty)) = pure ⟨A.cellName b, 0 + x, none⟩ := by
    unfold Cell.add
    rw [hzero, if_neg Bool.false_ne_true]
    split
    · rename_i y hy
      obtain rfl : x = y := Option.some.inj (hproduct.symm.trans hy)
      rfl
    · rename_i hnone
      rw [hproduct] at hnone
      cases hnone
  rw [zero_add] at hadd
  simp only [Algebra.build, Algebra.extend, Draft.addAll, List.foldlM_cons, List.foldlM_nil,
    Draft.add, hadd]
  rfl

/-- The squared norm of a multivector of numbers: each component contributes its square, times the
squares of the vectors of its blade. -/
noncomputable def Multivector.squaredNorm (A : Algebra K Empty) (m : Multivector K Empty) : K :=
  (m.components.map fun c => c.1.weight A.square * (c.2.toNumber * c.2.toNumber)).sum

theorem Multivector.squaredNorm_eq {A : Algebra K Empty} {t : NumericTarget K}
    {m : Multivector K Empty} {f : Values K} (hm : (NumericTarget.reading K).Denotes A t m f) :
    m.squaredNorm A = Values.normSquared A.square f := by
  rw [squaredNorm, Values.normSquared, ← hm.values_eq]
  simp only [← NumericTarget.value_eq t]
  exact Reading.sum_components (fun b x => b.weight A.square * (x * x))
    (fun b => by rw [mul_zero, mul_zero]) hm.nodup

end Clifford
