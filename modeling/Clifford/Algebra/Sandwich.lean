import Clifford.Algebra.Norm
import Clifford.Algebra.Product

/-!
# Sandwiches

An operator `R` acts on an operand `x` by the sandwich `R x R~` with its reverse. Expanding it
pairs every component of the operator with every other one; the two orders of a pair share one
product of coefficients, and for many operands they cancel.

## Main definitions

- `Sandwich` — an operator with the products of its pairs found so far
- `Sandwich.buckets` — the contributions of all pairs, where the two orders are taken together
- `Sandwich.applyWith`, `Sandwich.apply` — the sandwich of an operand
- `Sandwich.force` — finds the products of all pairs
- `Algebra.sandwichProduct` — the sandwich by plain products
- `Algebra.reflect` — the reflection in the hyperplane of a normal vector

## Design notes

The product of a pair is emitted when it is first needed and kept for later operands. It is kept
also when the operation that needed it fails afterwards, so these functions return the updated
sandwich beside their result.
-/

namespace Clifford

/-- An operator prepared for sandwiches. -/
structure Sandwich (K S : Type) where
  /-- The algebra of the operator. -/
  algebra : Algebra K S
  /-- The operator. -/
  operator : Multivector K S
  /-- The products of pairs found so far. The smaller blade of a pair comes first. -/
  products : List ((Blade × Blade) × Factor K S) := []

/-- Choices for one application of a sandwich. -/
structure SandwichOptions where
  /-- Whether only the products of pairs are wanted, and no result. -/
  dummy : Bool := false
  /-- Whether blades of a grade that the operand does not have are left out. This keeps the result
  only where the operator is a product of vectors. -/
  keepOperandGrades : Bool := false
  deriving DecidableEq, Repr

/-- The contributions of a pair of operator blades with one blade of the operand. -/
structure Bucket where
  /-- The smaller blade of the pair. -/
  low : Blade
  /-- The greater blade of the pair. -/
  high : Blade
  /-- The blade of the operand. -/
  operand : Blade
  /-- The number of contributions, each counted with its sign. -/
  count : Int
  deriving DecidableEq, Repr

namespace Bucket

/-- The blade that a bucket contributes to. -/
def blade (bucket : Bucket) : Blade := bucket.low ^^^ bucket.high ^^^ bucket.operand

end Bucket

namespace Sandwich

/-- The sign of `l i` times the reverse of `r`. -/
def sign (l i r : Blade) : Int :=
  if isOdd (l.productFlips i + (l ^^^ i).productFlips r + r.reverseFlips) then -1 else 1

/-- The signed number of contributions of an unordered pair: one for a blade with itself, two
otherwise. -/
def count (l r i : Blade) : Int := if l = r then sign l i r else sign l i r + sign r i l

/-- The unordered pairs of a list of blades, each blade with itself included. -/
def pairs : List Blade → List (Blade × Blade)
  | [] => []
  | l :: rest => (l, l) :: (rest.map (l, ·) ++ pairs rest)

/-- A pair with its smaller blade first. -/
def ordered (pair : Blade × Blade) : Blade × Blade :=
  if pair.1 ≤ pair.2 then pair else (pair.2, pair.1)

variable {σ K S V : Type} [Number K]

/-- The pairs of operator blades whose product does not vanish, by the order of the operator. -/
def livePairs (P : Sandwich K S) : List (Blade × Blade) :=
  (pairs P.operator.blades).filter fun (l, r) => (P.algebra.metric.factors? (l &&& r)).isSome

/-- The contributions of all pairs of operator blades with all blades of the operand, by the order
of the operator and then of the operand. What vanishes for the metric is left out. -/
def buckets (P : Sandwich K S) (x : Multivector K S) : List Bucket :=
  P.livePairs.flatMap fun (l, r) =>
    let (low, high) := ordered (l, r)
    (x.blades.filter fun i => (P.algebra.metric.factors? ((l ^^^ r) &&& i)).isSome).map fun i =>
      { low, high, operand := i, count := count l r i }

/-- The buckets that do not cancel and that the options keep. -/
def surviving (P : Sandwich K S) (x : Multivector K S) (options : SandwichOptions) :
    List Bucket :=
  let grades := x.grades
  (P.buckets x).filter fun bucket =>
    bucket.count ≠ 0 && (!options.keepOperandGrades || grades.contains bucket.blade.grade)

variable [Target σ K S V]

/-- The product of the coefficients of a pair and of the squares of the vectors that it shares,
found now if it was not found before. The smaller blade comes first. -/
def pairValue (P : Sandwich K S) (pair : Blade × Blade) :
    StateM σ (Factor K S × Sandwich K S) :=
  match P.products.lookup pair with
  | some value => pure (value, P)
  | none =>
    match P.algebra.metric.factors? (pair.1 &&& pair.2) with
    | none => pure (.number 0, P)
    | some squares => do
      let term := squares ++ [P.operator.value pair.1, P.operator.value pair.2]
      let value ← Cell.sum "pair" [(term, false)]
      pure (value, { P with products := (pair, value) :: P.products })

/-- Finds the products of several pairs. -/
def forceAll (P : Sandwich K S) : List (Blade × Blade) → StateM σ (Sandwich K S)
  | [] => pure P
  | pair :: rest => do
    let (_, P) ← P.pairValue pair
    P.forceAll rest

/-- Whether a pair comes before another one. -/
def pairBefore (p q : Blade × Blade) : Bool := p.1 < q.1 || (p.1 == q.1 && p.2 ≤ q.2)

/-- Finds the products of all pairs, by ascending blades. -/
def force (P : Sandwich K S) : StateM σ (Sandwich K S) :=
  P.forceAll ((P.livePairs.map ordered).mergeSort pairBefore)

/-- Adds the contributions of buckets to a draft. -/
def emitBuckets (P : Sandwich K S) (x : Multivector K S) (draft : Draft K V) :
    List Bucket → StateM σ (Draft K V × Sandwich K S)
  | [] => pure (draft, P)
  | bucket :: rest =>
    match P.algebra.metric.factors? ((bucket.low ^^^ bucket.high) &&& bucket.operand) with
    | none => P.emitBuckets x draft rest
    | some squares => do
      let (product, P) ← P.pairValue (bucket.low, bucket.high)
      let term :=
        [product, x.value bucket.operand] ++ squares ++ [.number bucket.count.natAbs]
      let draft ← draft.add P.algebra.cellName
        { blade := bucket.blade, term, negate := bucket.count < 0 }
      P.emitBuckets x draft rest

/-- The multivector of a draft, marked as unit if operator and operand are. -/
def conclude (P : Sandwich K S) (x : Multivector K S) (draft : Draft K V) :
    Emission σ K (Multivector K S) := do
  let result ← P.algebra.finish draft
  if P.operator.knownUnit && x.knownUnit then P.algebra.markUnit result else pure result

/-- The sandwich of an operand. There is no result where only the products of pairs are wanted. -/
def applyWith (P : Sandwich K S) (x : Multivector K S) (options : SandwichOptions) :
    StateM σ (Except (AlgebraError K) (Option (Multivector K S)) × Sandwich K S) :=
  if !P.algebra.owns x then pure (.error .foreignOperand, P)
  else if options.dummy then do
    let P ← P.force
    pure (.ok none, P)
  else do
    P.algebra.announce "sandwich"
    let (draft, P) ← P.emitBuckets x [] (P.surviving x options)
    let result ← (P.conclude x draft).run
    pure (result.map some, P)

/-- The sandwich of an operand. -/
def apply (P : Sandwich K S) (x : Multivector K S) :
    StateM σ (Except (AlgebraError K) (Multivector K S) × Sandwich K S) := do
  let (result, P) ← P.applyWith x {}
  pure (result.map (·.getD P.algebra.zero), P)

end Sandwich

namespace Algebra

variable {σ K S V : Type} [Number K] [Target σ K S V]

/-- Prepares an operator for sandwiches. -/
def sandwich (A : Algebra K S) (operator : Multivector K S) : Emission σ K (Sandwich K S) := do
  A.check operator
  pure { algebra := A, operator }

/-- The sandwich of an operand, by plain products. -/
def sandwichProduct (A : Algebra K S) (operator x : Multivector K S) :
    Emission σ K (Multivector K S) := do
  let reversed ← A.reverse operator
  A.mulAll .geometric [operator, x, reversed]

/-- The reflection of an operand in the hyperplane orthogonal to a vector: the negated sandwich,
divided by the squared norm of the vector. -/
def reflect (A : Algebra K S) (normal x : Multivector K S) : Emission σ K (Multivector K S) := do
  let square ← A.normSquared normal
  if square.isZero then throw (.divisionByZero "reflect")
  let P ← A.sandwich normal
  let (result, _) ← ExceptT.lift (P.apply x)
  let conjugated ← ExceptT.mk (pure result)
  let factor ← combine .div (.number (-1)) square
  let reflected ← A.scale factor conjugated
  pure (reflected.withKnownUnit x.knownUnit)

end Algebra

end Clifford
