import Clifford.Number
import Mathlib.Algebra.BigOperators.Group.List.Basic
import Mathlib.Algebra.Ring.Defs
import Mathlib.Data.Nat.Cast.Basic

/-!
# Exact numbers

Numbers whose sums and products obey the laws of a commutative ring. No law is asked of division,
of the order or of the elementary functions, so the same class covers the rationals, the reals and
rings without any order.

## Main definitions

- `ExactNumber` — the ring laws for the operations of `Number`
- `ExactNumber.commRing` — the commutative ring that they make up

## Main results

- `Number.isZero_iff`, `Number.isOne_iff` — the tests for literals test for zero and one
- `Number.productFrom_eq` — products from the left are products
-/

namespace Clifford

/-- Numbers whose arithmetic is exact: sums, differences and products obey the ring laws. -/
class ExactNumber (K : Type) [Number K] : Prop where
  /-- Addition is associative. -/
  add_assoc (x y z : K) : x + y + z = x + (y + z)
  /-- Addition is commutative. -/
  add_comm (x y : K) : x + y = y + x
  /-- Zero is neutral for addition. -/
  zero_add (x : K) : 0 + x = x
  /-- Every number has a negative. -/
  neg_add_cancel (x : K) : -x + x = 0
  /-- A difference is the sum with the negative. -/
  sub_eq_add_neg (x y : K) : x - y = x + -y
  /-- Multiplication is associative. -/
  mul_assoc (x y z : K) : x * y * z = x * (y * z)
  /-- Multiplication is commutative. -/
  mul_comm (x y : K) : x * y = y * x
  /-- One is neutral for multiplication. -/
  one_mul (x : K) : 1 * x = x
  /-- Multiplication distributes over addition. -/
  mul_add (x y z : K) : x * (y + z) = x * y + x * z
  /-- The literal zero is zero. -/
  natCast_zero : ((0 : Nat) : K) = 0
  /-- Literals count up by one. -/
  natCast_succ (n : Nat) : ((n + 1 : Nat) : K) = n + 1

namespace ExactNumber

variable {K : Type} [Number K] [ExactNumber K]

/-- Zero is neutral for addition on the right. -/
protected theorem add_zero (x : K) : x + 0 = x := by
  rw [add_comm, zero_add]

/-- One is neutral for multiplication on the right. -/
protected theorem mul_one (x : K) : x * 1 = x := by
  rw [mul_comm, one_mul]

/-- A product with zero is zero: it is its own double. -/
protected theorem mul_zero (x : K) : x * 0 = 0 := by
  have hdouble : x * 0 = x * 0 + x * 0 := by rw [← mul_add, zero_add]
  calc x * 0 = -(x * 0) + x * 0 + x * 0 := by rw [neg_add_cancel, zero_add]
    _ = -(x * 0) + (x * 0 + x * 0) := add_assoc _ _ _
    _ = 0 := by rw [← hdouble, neg_add_cancel]

/-- The commutative ring of exact numbers. -/
instance (priority := low) commRing : CommRing K where
  add_assoc := add_assoc
  zero_add := zero_add
  add_zero := ExactNumber.add_zero
  add_comm := add_comm
  nsmul := nsmulRec
  neg_add_cancel := neg_add_cancel
  sub_eq_add_neg := sub_eq_add_neg
  zsmul := zsmulRec
  mul_assoc := mul_assoc
  mul_comm := mul_comm
  one_mul := one_mul
  mul_one := ExactNumber.mul_one
  left_distrib := mul_add
  right_distrib x y z := by rw [mul_comm, mul_add, mul_comm z x, mul_comm z y]
  zero_mul x := by rw [mul_comm, ExactNumber.mul_zero]
  mul_zero := ExactNumber.mul_zero
  natCast_zero := natCast_zero
  natCast_succ := natCast_succ

end ExactNumber

namespace Number

variable {K : Type} [Number K]

@[simp] theorem isOne_iff {x : K} : isOne x = true ↔ x = 1 := by
  simp [isOne]

variable [ExactNumber K]

@[simp] theorem isZero_iff {x : K} : isZero x = true ↔ x = 0 := by
  simp [isZero]

/-- A product from the left is the product of the list, times the number it starts with. -/
theorem productFrom_eq (start : K) (xs : List K) : productFrom start xs = start * xs.prod := by
  induction xs generalizing start with
  | nil => simp [productFrom]
  | cons x rest ih =>
    have hstep : productFrom start (x :: rest) = productFrom (start * x) rest := rfl
    rw [hstep, ih, List.prod_cons, mul_assoc]

theorem foldl_add_eq (start : K) (xs : List K) : xs.foldl (· + ·) start = start + xs.sum := by
  induction xs generalizing start with
  | nil => simp
  | cons x rest ih => rw [List.foldl_cons, ih, List.sum_cons, add_assoc]

end Number

end Clifford
