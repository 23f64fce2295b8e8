import Clifford.Proofs.Algebra.Contractions
import Clifford.Proofs.Algebra.ScalarProduct
import Clifford.Proofs.Blade.Sweeps

/-!
# Products by inclusion of blades

Whether a product keeps a pair of blades is decided by three grades, each counted by a loop over the
bits of a word. What the two blades share is counted twice by their grades and not at all by that of
their symmetric difference, so the grades tell whether they share nothing, or all of one of them:
every product keeps the pairs that lie to each other in one way.

## Main definitions

- `Blade.Within` — every vector of a blade is one of another

## Main results

- `Blade.within_iff_and_eq` — a blade lies within another if they share all of it
- `ProductKind.includes_dot_eq_or` — the dot product keeps what either contraction keeps
- `ProductKind.includes_iff_inclusion` — the products, by how the blades lie to each other
-/

namespace Clifford

namespace Blade

variable {a b : Blade}

/-- Every vector of `a` is one of `b`. -/
def Within (a b : Blade) : Prop := ∀ i, a.getLsbD i = true → b.getLsbD i = true

/-- A blade lies within another if they share all of it. -/
theorem within_iff_and_eq : a.Within b ↔ a &&& b = a := by
  constructor
  · intro h
    refine BitVec.eq_of_getLsbD_eq fun i _ => ?_
    rw [BitVec.getLsbD_and, Bool.and_eq_left_iff_imp]
    exact h i
  · intro h i hi
    rw [← h, BitVec.getLsbD_and, Bool.and_eq_true] at hi
    exact hi.2

end Blade

namespace ProductKind

open Blade (SweepsTo meetPredecessor countVector)

/-- The dot product keeps what either contraction keeps. -/
theorem includes_dot_eq_or (a b : Blade) :
    dot.includes a b = (leftContraction.includes a b || rightContraction.includes a b) := by
  rw [Bool.eq_iff_iff, Bool.or_eq_true]
  simp only [includes, Bool.and_eq_true, decide_eq_true_eq]
  omega

/-- **The products, by how the blades lie to each other.** The grades are counted by a loop over
words that meets each with its predecessor. By these counts, the wedge product keeps the pairs of
blades that share no vector, the contractions those of which one lies within the other, the product
that leaves scalars the pairs of equal blades, and the dot product the pairs of which either lies
within the other. -/
theorem includes_iff_inclusion (a b : Blade) :
    (∀ c : Blade, SweepsTo meetPredecessor (fun count i => some (countVector count i)) c 0 c.grade
      (some c.grade)) ∧
    (wedge.includes a b = true ↔ a &&& b = 0) ∧
    (leftContraction.includes a b = true ↔ a.Within b) ∧
    (rightContraction.includes a b = true ↔ b.Within a) ∧
    (scalar.includes a b = true ↔ a = b) ∧
    (dot.includes a b = true ↔ a.Within b ∨ b.Within a) := by
  have hleft : leftContraction.includes a b = true ↔ a.Within b := by
    rw [includes_leftContraction, Blade.within_iff_and_eq]
  have hright : rightContraction.includes a b = true ↔ b.Within a := by
    rw [includes_rightContraction, Blade.within_iff_and_eq]
  refine ⟨Blade.sweepsTo_countVector, includes_wedge, hleft, hright, includes_scalar, ?_⟩
  rw [includes_dot_eq_or, Bool.or_eq_true, hleft, hright]

end ProductKind

end Clifford
