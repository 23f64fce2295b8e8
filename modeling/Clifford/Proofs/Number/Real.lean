import Clifford.Proofs.Number.Ordered
import Mathlib.Analysis.SpecialFunctions.Complex.Arg

/-!
# Real numbers

The reals are exact numbers with an order and principal roots, and have all elementary functions.
The angle of a point is its argument as a complex number.

## Main definitions

- the instances of `Number`, `OrderedNumber`, `RootedNumber`, `AngularNumber` and
  `TrigonometricNumber` for the reals
-/

namespace Clifford

noncomputable instance : Number ℝ where
  decEq := inferInstance
  hashable := ⟨fun _ => 0⟩
  decLt := inferInstance
  precedes x y := decide (x ≤ y)
  abs x := if x < 0 then -x else x
  sqrt := Real.sqrt
  sin := Real.sin
  cos := Real.cos
  atan2 y x := Complex.arg ⟨x, y⟩
  maximum := max

instance : OrderedNumber ℝ where
  add_assoc := add_assoc
  add_comm := add_comm
  zero_add := zero_add
  neg_add_cancel := neg_add_cancel
  sub_eq_add_neg := sub_eq_add_neg
  mul_assoc := mul_assoc
  mul_comm := mul_comm
  one_mul := one_mul
  mul_add := mul_add
  natCast_zero := Nat.cast_zero
  natCast_succ := Nat.cast_succ
  zero_ne_one := zero_ne_one
  div_mul_cancel x _ hy := div_mul_cancel₀ x hy
  lt_irrefl := lt_irrefl
  lt_trans _ _ _ := lt_trans
  eq_of_not_lt _ _ h h' := le_antisymm (not_lt.1 h') (not_lt.1 h)
  add_lt_add_left _ _ z h := add_lt_add_right h z
  mul_pos _ _ := mul_pos
  abs_eq _ := rfl
  sqrt_mul_sqrt _ h := Real.mul_self_sqrt (not_lt.1 h)

instance : RootedNumber ℝ where
  sqrt_nonneg x _ := not_lt_of_ge (Real.sqrt_nonneg x)
  maximum_eq := max_def_lt

theorem Number.norm_of_unit {x y : ℝ} (hunit : x * x + y * y = 1) : ‖(⟨x, y⟩ : ℂ)‖ = 1 := by
  rw [Complex.norm_eq_sqrt_sq_add_sq, pow_two, pow_two]
  exact (congrArg Real.sqrt hunit).trans Real.sqrt_one

instance : AngularNumber ℝ where
  cos_mul_cos_add_sin_mul_sin x := by
    have hcircle := Real.cos_sq_add_sin_sq x
    rwa [pow_two, pow_two] at hcircle
  atan2_pos y x hy _ := by
    have hnonneg : 0 ≤ Complex.arg ⟨x, y⟩ := Complex.arg_nonneg_iff.2 hy.le
    refine lt_of_le_of_ne hnonneg fun hzero => ?_
    exact hy.ne' (Complex.arg_eq_zero_iff.1 hzero.symm).2
  sin_atan2 y x _ hunit := by
    refine (Complex.sin_arg _).trans ?_
    rw [Number.norm_of_unit hunit, div_one]
  cos_atan2 y x hy hunit := by
    have hne : (⟨x, y⟩ : ℂ) ≠ 0 := fun hzero => hy.ne' (congrArg Complex.im hzero)
    refine (Complex.cos_arg hne).trans ?_
    rw [Number.norm_of_unit hunit, div_one]

instance : TrigonometricNumber ℝ where
  sin_add := Real.sin_add
  cos_add := Real.cos_add
  sin_atan2_zero x _ := by
    refine (Complex.sin_arg _).trans ?_
    exact zero_div _

theorem Number.not_sqrt_neg (x : ℝ) : ¬ sqrt x < 0 := not_lt_of_ge (Real.sqrt_nonneg x)

end Clifford
