import Clifford.Algebra.Elements

/-!
# Products

Every product is the geometric product restricted to some pairs of blades: a pair of grades `r`
and `s` whose symmetric difference has grade `t` is kept or dropped depending on these three.

## Main definitions

- `ProductKind` — the six products, with `includes`
- `Algebra.mul` — the product of two multivectors
- `Algebra.mulAll` — the product of a list of multivectors
- `Algebra.scalarProduct` — the scalar part of the geometric product, as a factor
-/

namespace Clifford

/-- Which pairs of blades a product keeps. -/
inductive ProductKind where
  /-- All pairs. -/
  | geometric
  /-- Those whose grades add up. -/
  | wedge
  /-- Those where the grade of the left one is taken off the grade of the right one. -/
  | leftContraction
  /-- Those where the grade of the right one is taken off the grade of the left one. -/
  | rightContraction
  /-- Those that leave a scalar. -/
  | scalar
  /-- Those where the smaller grade is taken off the greater one. -/
  | dot
  deriving DecidableEq, Repr

namespace ProductKind

/-- Whether a pair of blades contributes to the product. -/
def includes (kind : ProductKind) (a b : Blade) : Bool :=
  let r := a.grade
  let s := b.grade
  let t := (a ^^^ b).grade
  match kind with
  | geometric => true
  | wedge => t = r + s
  | leftContraction => r ≤ s && t = s - r
  | rightContraction => s ≤ r && t = r - s
  | scalar => t = 0
  | dot => t = max r s - min r s

/-- The name under which the product is announced. -/
def title : ProductKind → String
  | geometric => "geometric product"
  | wedge => "wedge product"
  | leftContraction => "left contraction"
  | rightContraction => "right contraction"
  | scalar => "scalar product"
  | dot => "dot product"

/-- Whether the product of two multivectors keeps all pairs of blades. -/
def keepsAll {K S : Type} (kind : ProductKind) (a b : Multivector K S) : Bool :=
  a.blades.all fun l => b.blades.all fun r => kind.includes l r

end ProductKind

namespace Algebra

variable {σ K S V : Type} [Number K]

/-- The contribution of a pair of components, if the product of their blades does not vanish. -/
def pairContribution? (A : Algebra K S) (a b : Blade × Factor K S) :
    Option (Contribution K S) :=
  (A.metric.factors? (a.1 &&& b.1)).map fun squares =>
    { blade := a.1 ^^^ b.1
      term := squares ++ [a.2, b.2]
      negate := isOdd (a.1.productFlips b.1) }

/-- The contributions of all pairs of components that the product keeps. -/
def productContributions (A : Algebra K S) (kind : ProductKind) (a b : Multivector K S) :
    List (Contribution K S) :=
  a.components.flatMap fun left =>
    b.components.filterMap fun right =>
      if kind.includes left.1 right.1 then A.pairContribution? left right else none

variable [Target σ K S V]

/-- The product of two multivectors. Its norm is known to be one if this holds of both operands
and no pair was dropped. -/
def mul (A : Algebra K S) (kind : ProductKind) (a b : Multivector K S) :
    Emission σ K (Multivector K S) := do
  A.check a
  A.check b
  A.annotate kind.title
  let result ← A.build (A.productContributions kind a b)
  pure (result.withKnownUnit (kind.keepsAll a b && a.knownUnit && b.knownUnit))

/-- The product of several multivectors, from the left. The empty product is one, and a single
operand is returned as it is. -/
def mulAll (A : Algebra K S) (kind : ProductKind) :
    List (Multivector K S) → Emission σ K (Multivector K S)
  | [] => A.one
  | first :: rest => do
    A.check first
    rest.foldlM (fun product m => A.mul kind product m) first

/-- The scalar part of the geometric product. Only blades of both operands contribute, each with
the square and the reversion sign of the blade. -/
def scalarProduct (A : Algebra K S) (a b : Multivector K S) : Emission σ K (Factor K S) := do
  A.check a
  A.check b
  A.annotate "scalar product"
  sum "scalar" (a.components.filterMap fun (blade, left) => do
    let right ← b.get? blade
    let squares ← A.metric.factors? blade
    pure (squares ++ [left, right], isOdd blade.reverseFlips))

end Algebra

end Clifford
