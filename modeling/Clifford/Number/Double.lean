import Clifford.Number
import Clifford.Decimal.Layout

/-!
# Floating-point numbers

The numbers of the 64-bit floating-point format as coefficients.

## Main definitions

- `Double.orderKey` — the place of a number in the total order of all representations
- the instances of `Number` and `Numeral` for `Float`

## Design notes

Two floating-point numbers are identical when their bits are; all undefined results count as one
number. The maximum of an undefined number and another one is the other one.
-/

namespace Clifford

namespace Double

/-- The word of the sign bit. -/
def signBit : UInt64 := 0x8000000000000000

/-- The place of a number among all representations: negative numbers by decreasing magnitude,
then minus zero, zero, and the positive numbers by increasing magnitude. The bits of a positive
number are its place once the sign bit is set; those of a negative number count backwards. -/
def orderKey (x : Float) : UInt64 :=
  let bits := x.toBits
  if bits < signBit then bits ||| signBit else ~~~bits

/-- The greater of two numbers, ignoring an undefined one. -/
def maximum (x y : Float) : Float :=
  if x.isNaN then y else if y.isNaN then x else if x < y then y else x

/-- The text of a number in a layout. -/
def text (l : Layout) (x : Float) : String :=
  if x.isNaN then "NaN"
  else
    let sign := if x.toBits < signBit then "" else "-"
    let size :=
      if x.isInf then "inf"
      else if x == 0 then l.zeroText
      else l.text (Binary.ofBits x.toBits).shortest
    sign ++ size

end Double

instance : Number Float where
  zero := 0
  one := 1
  natCast := Float.ofNat
  decEq := inferInstance
  hashable := ⟨fun x => hash x.toBits⟩
  decLt := inferInstance
  precedes x y := Double.orderKey x ≤ Double.orderKey y
  abs := Float.abs
  sqrt := Float.sqrt
  sin := Float.sin
  cos := Float.cos
  atan2 := Float.atan2
  maximum := Double.maximum

instance : Numeral Float where
  plain := Double.text .message
  pointed := Double.text .listing

end Clifford
