import Clifford.Proofs.Number.Field
import Mathlib.Algebra.Field.Rat
import Mathlib.Algebra.Order.Ring.Rat
import Mathlib.Data.Rat.Sqrt

/-!
# Rational numbers

The rationals are exact numbers with division. Square roots are those of numerator and denominator,
rounded down; the elementary functions, whose values are not rational, are left at zero.

## Main definitions

- the instances of `Number` and `FieldNumber` for the rationals
-/

namespace Clifford

instance : Number ℚ where
  decEq := inferInstance
  hashable := inferInstance
  decLt := inferInstance
  precedes x y := decide (x ≤ y)
  abs x := if x < 0 then -x else x
  sqrt := Rat.sqrt
  sin _ := 0
  cos _ := 0
  atan2 _ _ := 0
  maximum := max

instance : ExactNumber ℚ where
  add_assoc := Rat.add_assoc
  add_comm := Rat.add_comm
  zero_add := Rat.zero_add
  neg_add_cancel := Rat.neg_add_cancel
  sub_eq_add_neg := Rat.sub_eq_add_neg
  mul_assoc := Rat.mul_assoc
  mul_comm := Rat.mul_comm
  one_mul := Rat.one_mul
  mul_add := Rat.mul_add
  natCast_zero := Nat.cast_zero
  natCast_succ := Nat.cast_succ

instance : FieldNumber ℚ where
  zero_ne_one := Rat.zero_ne_one
  div_mul_cancel x _ hy := div_mul_cancel₀ x hy

end Clifford
