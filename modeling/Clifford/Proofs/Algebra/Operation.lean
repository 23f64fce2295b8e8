import Clifford.Script.Run

/-!
# Operations with their arguments

Everything that an algebra does for its callers, as one type: what a caller passes to an operation
is the argument of a constructor. A statement about all operations is a statement about this type.

## Main definitions

- `Operation` — an operation with all its arguments
- `Operation.run` — performs it in an algebra
-/

namespace Clifford

/-- An operation with all its arguments. -/
inductive Operation (K S : Type) where
  /-- The unit scalar. -/
  | one
  /-- The unit pseudoscalar. -/
  | pseudoscalar
  /-- The list of the basis vectors. -/
  | basisVectors
  /-- A scalar as a multivector. -/
  | scalar (x : Factor K S)
  /-- The vector with one coefficient for each basis vector. -/
  | vector (coefficients : List (Factor K S))
  /-- The multivector with coefficients of named blades. -/
  | named (components : List (String × Factor K S))
  /-- A scalar function. -/
  | call (f : ScalarFunction) (args : Term K S)
  /-- A binary operator on scalars. -/
  | combine (op : Operator) (left right : Factor K S)
  /-- The product with a scalar. -/
  | scale (x : Factor K S) (m : Multivector K S)
  /-- An operation on a multivector. -/
  | unary (op : UnaryOperation) (m : Multivector K S)
  /-- An operation on two multivectors. -/
  | binary (op : BinaryOperation) (a b : Multivector K S)
  /-- A scalar of a multivector. -/
  | measure (op : Measure) (m : Multivector K S)
  /-- A scalar of two multivectors. -/
  | compare (op : Comparison) (a b : Multivector K S)
  /-- A sum. -/
  | plus (ms : List (Multivector K S))
  /-- A product of several multivectors. -/
  | mulAll (kind : ProductKind) (ms : List (Multivector K S))
  /-- The image under the extension of a linear map. -/
  | outermorphism (m : Multivector K S) (matrix : SparseMatrix K S)
  /-- Prepares the interpolation between two unit vectors. -/
  | slerp (a b : Multivector K S)
  /-- The point between two unit vectors at a parameter. -/
  | slerpAt (circle : Slerp K S) (t : Factor K S)
  /-- Prepares an operator for sandwiches. -/
  | sandwich (operator : Multivector K S)
  /-- The sandwich of an operand by a prepared operator. -/
  | apply (P : Sandwich K S) (x : Multivector K S) (options : SandwichOptions)
  /-- Finds all products of pairs of a prepared operator. -/
  | force (P : Sandwich K S)
  /-- The sandwich of an operand by several operators. -/
  | chain (operators : List (Multivector K S)) (x : Multivector K S)

/-- The sandwich of an operand, as a computation whose failure is the failure of the sandwich. -/
def Sandwich.applied {σ K S V : Type} [Number K] [Target σ K S V] (P : Sandwich K S)
    (x : Multivector K S) (options : SandwichOptions) :
    Emission σ K (Option (Multivector K S)) := do
  let (result, _) ← ExceptT.lift (P.applyWith x options)
  ExceptT.mk (pure result)

/-- Performs an operation in an algebra. -/
def Operation.run {σ K S V : Type} [Number K] [Ord S] [Target σ K S V] (A : Algebra K S) :
    Operation K S → Emission σ K (StepResult K S)
  | one => .multivector <$> A.one
  | pseudoscalar => .multivector <$> A.pseudoscalar
  | basisVectors => .multivectors <$> A.basisVectors
  | scalar x => .multivector <$> A.scalar x
  | vector coefficients => .multivector <$> A.vector coefficients
  | named components => .multivector <$> A.ofNamed components
  | call f args => .scalar <$> Algebra.call f args
  | combine op left right => .scalar <$> Algebra.combine op left right
  | scale x m => .multivector <$> A.scale x m
  | unary op m => .multivector <$> op.perform A m
  | binary op a b => .multivector <$> op.perform A a b
  | measure op m => .scalar <$> op.perform A m
  | compare op a b => .scalar <$> op.perform A a b
  | plus ms => .multivector <$> A.plus ms
  | mulAll kind ms => .multivector <$> A.mulAll kind ms
  | outermorphism m matrix => .multivector <$> A.outermorphism m matrix
  | slerp a b => (fun circle => .points circle []) <$> A.slerp a b
  | slerpAt circle t => .multivector <$> A.slerpAt circle t
  | sandwich operator => .sandwich <$> A.sandwich operator
  | apply P x options => (fun m => m.elim .nothing .multivector) <$> P.applied x options
  | force P => .sandwich <$> ExceptT.lift P.force
  | chain operators x => .multivector <$> A.sandwichChain operators x

end Clifford
