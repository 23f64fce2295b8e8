import Clifford.Blade
import Clifford.Factor

/-!
# Diagonal metrics

A metric lists the squares of the basis vectors. Multiplying two blades leaves the squares of
the vectors that they share, and the product vanishes where one of these squares is the literal
zero.

## Main definitions

- `Metric.factors?` — the squares of a blade's vectors other than the literal one
- `Metric.isEuclidean` — every vector of a blade squares to the literal one
-/

namespace Clifford

/-- The squares of the basis vectors. -/
abbrev Metric (K S : Type) := List (Factor K S)

namespace Metric

variable {K S : Type} [Number K]

/-- The squares of the vectors at the given positions other than the literal one, in this order,
or nothing if one of them is the literal zero. Positions outside the metric count for one. -/
def factorsAt? (metric : Metric K S) : List Nat → Option (Term K S)
  | [] => some []
  | i :: rest =>
    match metric[i]? with
    | none => factorsAt? metric rest
    | some square =>
      if square.isZero then none
      else if square.isOne then factorsAt? metric rest
      else (factorsAt? metric rest).map (square :: ·)

/-- The factors that a product through the vectors of a blade picks up, or nothing if it vanishes
because one of them is null. -/
def factors? (metric : Metric K S) (b : Blade) : Option (Term K S) :=
  metric.factorsAt? b.positions

/-- Whether every vector of a blade lies inside the metric and squares to the literal one. -/
def isEuclidean (metric : Metric K S) (b : Blade) : Bool :=
  b.positions.all fun i => metric[i]?.any Factor.isOne

end Metric

end Clifford
