/-!
# Numbers

The arithmetic that literal coefficients are computed in. Everything above this file is written
against the class `Number`, so the same definitions run on floating point and can be read over
any ring, over an ordered field, or over the reals.

## Main definitions

- `Number` — the operations that coefficients need
- `Number.isZero`, `Number.isOne` — the two literals that products are simplified by
- `Number.sign` — the sign of a number, zero for zero
- `Numeral` — numbers that have a text

## Design notes

The class states operations and no laws: floating point satisfies hardly any. Equality is
identity of representations, which tells the two zeros of floating point apart; `isZero` accepts
both of them.
-/

namespace Clifford

/-- The operations on coefficients. -/
class Number (K : Type) extends Zero K, One K, NatCast K, Add K, Sub K, Mul K, Div K, Neg K,
    LT K where
  /-- Identity of two numbers. -/
  decEq : DecidableEq K
  /-- A hash that respects identity. -/
  hashable : Hashable K
  /-- Comparison of two numbers. -/
  decLt : DecidableLT K
  /-- A total order in which coefficients are sorted before they are multiplied. -/
  precedes : K → K → Bool
  /-- The absolute value. -/
  abs : K → K
  /-- The square root. -/
  sqrt : K → K
  /-- The sine. -/
  sin : K → K
  /-- The cosine. -/
  cos : K → K
  /-- The angle of the point with the given ordinate and abscissa. -/
  atan2 : K → K → K
  /-- The greater of two numbers. -/
  maximum : K → K → K

namespace Number

attribute [reducible, instance] decEq hashable decLt

-- the operations of coefficients come first, also where coefficients are a ring or an ordered field
attribute [instance (high)] toZero toOne toNatCast toAdd toSub toMul toDiv toNeg toLT

variable {K : Type} [Number K]

/-- Whether a number is zero, of either sign. -/
def isZero (x : K) : Bool := x = 0 || x = -0

/-- Whether a number is one. -/
def isOne (x : K) : Bool := x = 1

/-- The sign of a number: one, minus one, or the number itself where it is neither positive nor
negative. -/
def sign (x : K) : K := if 0 < x then 1 else if x < 0 then -1 else x

/-- The value of a function that is given the wrong number of arguments: zero divided by zero. -/
def undefined : K := 0 / 0

/-- The product of a list of numbers, from the left and starting with `start`. -/
def productFrom (start : K) (xs : List K) : K := xs.foldl (· * ·) start

end Number

/-- Numbers with a text. Both texts use the fewest digits that identify the number. -/
class Numeral (K : Type) where
  /-- The text in messages: never an exponent, and no decimal point in an integer. -/
  plain : K → String
  /-- The text in listings: always a decimal point or an exponent. -/
  pointed : K → String

end Clifford
