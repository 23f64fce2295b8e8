import Clifford.Algebra.Product
import Clifford.Algebra.Sandwich

/-!
# Scripts

A script is a list of steps. Each step makes elements of an algebra or applies an operation to
the results of earlier steps, which it refers to by number. A script does not mention a target,
so the same script can be run for any of them.

## Main definitions

- `MvRef`, `FactorRef` — references to multivectors and to factors
- `Step` — one step of a script
- `Script` — a list of steps
-/

namespace Clifford

/-- A reference to a multivector. -/
inductive MvRef where
  /-- The multivector that a step made. -/
  | result (step : Nat)
  /-- A multivector of the list that a step made. -/
  | item (step index : Nat)
  deriving DecidableEq, Repr

/-- A reference to a factor. -/
inductive FactorRef (K : Type) where
  /-- A number. -/
  | number (x : K)
  /-- An input. -/
  | input (name : String)
  /-- A coefficient of a multivector. -/
  | coefficient (m : MvRef) (b : Blade)
  /-- The scalar that a step made. -/
  | result (step : Nat)
  deriving DecidableEq, Repr

/-- Operations that take a multivector to a multivector. -/
inductive UnaryOperation where
  /-- The negation. -/
  | negate
  /-- The grade involution. -/
  | gradeInvolution
  /-- The reverse. -/
  | reverse
  /-- The Clifford conjugate. -/
  | conjugate
  /-- The components of a grade. -/
  | extractGrade (k : Nat)
  /-- The components of the given blades. -/
  | extract (blades : List Blade)
  /-- The inverse of a product of vectors. -/
  | inverse
  /-- A product of vectors scaled to unit norm. -/
  | normalize
  /-- The dual. -/
  | dual
  /-- The multivector of which it is the dual. -/
  | undual
  /-- The exponential of a bivector. -/
  | exp
  /-- The logarithm of a rotor. -/
  | log
  deriving DecidableEq, Repr

/-- Operations that take two multivectors to a multivector. -/
inductive BinaryOperation where
  /-- The difference. -/
  | minus
  /-- A product. -/
  | mul (kind : ProductKind)
  /-- The sandwich of the second by the first, by plain products. -/
  | sandwichProduct
  /-- The reflection of the second in the hyperplane of the first. -/
  | reflect
  deriving DecidableEq, Repr

/-- Scalars of a multivector. -/
inductive Measure where
  /-- The squared norm. -/
  | normSquared
  /-- The magnitude. -/
  | norm
  deriving DecidableEq, Repr

/-- Scalars of two multivectors. -/
inductive Comparison where
  /-- The scalar part of the geometric product. -/
  | scalarProduct
  /-- The norm of the difference. -/
  | dist
  /-- The angle between vectors. -/
  | angle
  deriving DecidableEq, Repr

/-- One step of a script. -/
inductive Step (K : Type) where
  /-- The multivector without components. -/
  | zero
  /-- The unit scalar. -/
  | one
  /-- The unit pseudoscalar. -/
  | pseudoscalar
  /-- The list of the basis vectors. -/
  | basisVectors
  /-- A scalar as a multivector. -/
  | scalar (x : FactorRef K)
  /-- The vector with one coefficient for each basis vector. -/
  | vector (coefficients : List (FactorRef K))
  /-- The multivector with coefficients of named blades. -/
  | named (components : List (String × FactorRef K))
  /-- A scalar function. -/
  | call (f : ScalarFunction) (args : List (FactorRef K))
  /-- A binary operator on scalars. -/
  | combine (op : Operator) (left right : FactorRef K)
  /-- The coefficient of a blade. -/
  | coefficient (m : MvRef) (b : Blade)
  /-- The product with a scalar. -/
  | scale (x : FactorRef K) (m : MvRef)
  /-- The same components with another statement about the norm. -/
  | withKnownUnit (m : MvRef) (knownUnit : Bool)
  /-- An operation on a multivector. -/
  | unary (op : UnaryOperation) (m : MvRef)
  /-- An operation on two multivectors. -/
  | binary (op : BinaryOperation) (a b : MvRef)
  /-- A scalar of a multivector. -/
  | measure (op : Measure) (m : MvRef)
  /-- A scalar of two multivectors. -/
  | compare (op : Comparison) (a b : MvRef)
  /-- A sum. -/
  | plus (ms : List MvRef)
  /-- A product of several multivectors. -/
  | mulAll (kind : ProductKind) (ms : List MvRef)
  /-- The image under the extension of a linear map. -/
  | outermorphism (m : MvRef) (matrix : List (List (Option (FactorRef K))))
  /-- Points between two unit vectors at several parameters. -/
  | slerp (a b : MvRef) (ts : List (FactorRef K))
  /-- Prepares an operator for sandwiches. -/
  | sandwich (operator : MvRef)
  /-- The sandwich of an operand by the operator that a step has prepared. -/
  | apply (step : Nat) (x : MvRef) (options : SandwichOptions)
  /-- Finds all products of pairs of the operator that a step has prepared. -/
  | force (step : Nat)
  /-- The sandwich of an operand by several operators. -/
  | chain (operators : List MvRef) (x : MvRef)
  deriving Repr

/-- Steps that follow each other. -/
abbrev Script (K : Type) := List (Step K)

end Clifford
