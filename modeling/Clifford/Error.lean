import Clifford.Number

/-!
# Errors

Why building or combining multivectors can fail.

## Main definitions

- `AlgebraError` — the causes of failure
- `AlgebraError.message` — the message for each cause
-/

namespace Clifford

/-- The causes of failure. An operation that fails builds no result. -/
inductive AlgebraError (K : Type) where
  /-- The table of blade names does not have one name for each blade. -/
  | nameTableSize (expected actual : Nat)
  /-- The metric has more basis vectors than a blade has room for. -/
  | tooManyDimensions (limit actual : Nat)
  /-- An operand belongs to another algebra. -/
  | foreignOperand
  /-- A term was added to an accumulator whose value had been read. -/
  | frozenAccumulator (name : String)
  /-- A component is named by no blade. -/
  | unknownBlade (name : String)
  /-- The operation would divide by a literal zero. -/
  | divisionByZero (operation : String)
  /-- The pseudoscalar squares to zero, so it has no inverse. -/
  | nullPseudoscalar
  /-- A list or matrix does not fit the dimension of the algebra. -/
  | dimensionMismatch (expected actual : Nat)
  /-- A result was to be marked as unit, but its norm is too far from one. -/
  | notUnit (norm : K)
  deriving DecidableEq, Repr

/-- The message for a failure. -/
def AlgebraError.message {K : Type} [Numeral K] : AlgebraError K → String
  | nameTableSize expected actual => s!"name table has {actual} entries, expected {expected}"
  | tooManyDimensions limit actual => s!"{actual} dimensions requested, at most {limit} supported"
  | foreignOperand => "multivector belongs to a different algebra"
  | frozenAccumulator name => "accumulator `" ++ name ++ "` is frozen"
  | unknownBlade name => "unexpected component key `" ++ name ++ "`"
  | divisionByZero operation => "division by zero in " ++ operation
  | nullPseudoscalar => "pseudoscalar is null under this metric"
  | dimensionMismatch expected actual =>
    s!"dimension mismatch: expected {expected}, got {actual}"
  | notUnit norm => "multivector marked unit has norm " ++ Numeral.plain norm

end Clifford
