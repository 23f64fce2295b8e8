import Clifford.Proofs.Target.Operators

/-!
# Exact numbers with division

Exact numbers that can be divided by whatever is not zero. Nothing is asked of an order.

## Main definitions

- `FieldNumber` — the laws of a field

## Main results

- `FieldNumber.noZeroDivisors` — a product is zero only if a factor is
- `Operator.Evaluates.mul_cancel` — multiplying with the divisor undoes division
-/

namespace Clifford

/-- Exact numbers with division. -/
class FieldNumber (K : Type) [Number K] : Prop extends ExactNumber K where
  /-- Zero and one are different. -/
  zero_ne_one : (0 : K) ≠ 1
  /-- Multiplying with the divisor undoes division. -/
  div_mul_cancel (x : K) {y : K} : y ≠ 0 → x / y * y = x

variable {K : Type} [Number K] [FieldNumber K] {x y z : K}

namespace FieldNumber

instance (priority := low) nontrivial : Nontrivial K := ⟨0, 1, zero_ne_one⟩

/-- A factor other than zero can be divided out of a product. -/
instance (priority := low) noZeroDivisors : NoZeroDivisors K where
  eq_zero_or_eq_zero_of_mul_eq_zero := by
    intro x y hproduct
    by_cases hy : y = 0
    · exact .inr hy
    · left
      calc x = x * (1 / y * y) := by rw [div_mul_cancel 1 hy, mul_one]
        _ = 1 / y * (x * y) := by rw [mul_left_comm]
        _ = 0 := by rw [hproduct, mul_zero]

end FieldNumber

/-- Multiplying with the divisor undoes division, also where it is left out. -/
theorem Operator.Evaluates.mul_cancel (hz : Operator.div.Evaluates x y z) (hy : y ≠ 0) :
    z * y = x := by
  rcases hz with rfl | ⟨-, rfl, rfl⟩
  · exact FieldNumber.div_mul_cancel x hy
  · exact mul_one z

end Clifford
