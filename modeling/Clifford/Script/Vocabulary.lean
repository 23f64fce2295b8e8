import Clifford.Script

/-!
# The words of scripts

The words by which the text of a script names functions, operators, products and operations. An
unknown word names nothing.

## Main definitions

- `ScalarFunction.named?`, `Operator.named?`, `ProductKind.named?` — what a word names among these
- `UnaryOperation.named?`, `BinaryOperation.named?`, `Measure.named?`, `Comparison.named?` — the
  operation that a word names
- `Step.named?` — the step that a word names all by itself
-/

namespace Clifford

/-- The function with a name. -/
def ScalarFunction.named? : String → Option ScalarFunction
  | "sqrt" => some .sqrt
  | "abs" => some .abs
  | "sign" => some .sign
  | "sin" => some .sin
  | "cos" => some .cos
  | "atan2" => some .atan2
  | "max" => some .max
  | _ => none

/-- The words of functions are their names in listings. -/
theorem ScalarFunction.named?_name (f : ScalarFunction) : named? f.name = some f := by
  cases f <;> rfl

/-- The operator that a word names. -/
def Operator.named? : String → Option Operator
  | "add" => some .add
  | "sub" => some .sub
  | "mul" => some .mul
  | "div" => some .div
  | _ => none

/-- The product that a word names. -/
def ProductKind.named? : String → Option ProductKind
  | "gp" => some .geometric
  | "wedge" => some .wedge
  | "lc" => some .leftContraction
  | "rc" => some .rightContraction
  | "scalar" => some .scalar
  | "dot" => some .dot
  | _ => none

/-- The operation on a multivector that a word names. -/
def UnaryOperation.named? : String → Option UnaryOperation
  | "negate" => some .negate
  | "invol" => some .gradeInvolution
  | "reverse" => some .reverse
  | "conj" => some .conjugate
  | "inverse" => some .inverse
  | "normalize" => some .normalize
  | "dual" => some .dual
  | "undual" => some .undual
  | "exp" => some .exp
  | "log" => some .log
  | _ => none

/-- The operation on two multivectors that a word names. The scalar product goes by another word
than the kind of product, since that word makes a multivector of a scalar. -/
def BinaryOperation.named? : String → Option BinaryOperation
  | "minus" => some .minus
  | "gp" => some (.mul .geometric)
  | "wedge" => some (.mul .wedge)
  | "lc" => some (.mul .leftContraction)
  | "rc" => some (.mul .rightContraction)
  | "dot" => some (.mul .dot)
  | "spmv" => some (.mul .scalar)
  | _ => none

/-- The scalar of a multivector that a word names. -/
def Measure.named? : String → Option Measure
  | "norm2" => some .normSquared
  | "norm" => some .norm
  | _ => none

/-- The scalar of two multivectors that a word names. -/
def Comparison.named? : String → Option Comparison
  | "sp" => some .scalarProduct
  | "dist" => some .dist
  | "angle" => some .angle
  | _ => none

/-- The step that a word names without any operand. -/
def Step.named? {K : Type} : String → Option (Step K)
  | "zero" => some .zero
  | "one" => some .one
  | "ps" => some .pseudoscalar
  | "basis" => some .basisVectors
  | _ => none

end Clifford
