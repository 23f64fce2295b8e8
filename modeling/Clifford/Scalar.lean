import Clifford.Number

/-!
# Scalar functions and operators

The functions and operators that a scalar expression may apply, each with its name in listings
and its value on numbers.

## Main definitions

- `ScalarFunction` — the functions, with `name`, `arity` and `eval`
- `Operator` — the four binary operators, with `token` and `eval`
-/

namespace Clifford

/-- The functions of scalars. -/
inductive ScalarFunction where
  /-- Square root. -/
  | sqrt
  /-- Absolute value. -/
  | abs
  /-- Sign. -/
  | sign
  /-- Sine. -/
  | sin
  /-- Cosine. -/
  | cos
  /-- Angle from ordinate and abscissa. -/
  | atan2
  /-- Greater of two. -/
  | max
  deriving DecidableEq, Hashable, Repr

namespace ScalarFunction

/-- The name of a function in listings. -/
def name : ScalarFunction → String
  | sqrt => "sqrt"
  | abs => "abs"
  | sign => "sign"
  | sin => "sin"
  | cos => "cos"
  | atan2 => "atan2"
  | max => "max"

/-- The number of arguments that a function takes. -/
def arity : ScalarFunction → Nat
  | atan2 | max => 2
  | _ => 1

/-- The value of a function on numbers. With the wrong number of arguments it is undefined. -/
def eval {K : Type} [Number K] : ScalarFunction → List K → K
  | sqrt, [x] => Number.sqrt x
  | abs, [x] => Number.abs x
  | sign, [x] => Number.sign x
  | sin, [x] => Number.sin x
  | cos, [x] => Number.cos x
  | atan2, [y, x] => Number.atan2 y x
  | max, [x, y] => Number.maximum x y
  | _, _ => Number.undefined

end ScalarFunction

/-- The binary operators on scalars. -/
inductive Operator where
  /-- Addition. -/
  | add
  /-- Subtraction. -/
  | sub
  /-- Multiplication. -/
  | mul
  /-- Division. -/
  | div
  deriving DecidableEq, Hashable, Repr

namespace Operator

/-- The token of an operator in listings. -/
def token : Operator → String
  | add => "+"
  | sub => "-"
  | mul => "*"
  | div => "/"

/-- The value of an operator on numbers. -/
def eval {K : Type} [Number K] : Operator → K → K → K
  | add, x, y => x + y
  | sub, x, y => x - y
  | mul, x, y => x * y
  | div, x, y => x / y

end Operator

end Clifford
