import Clifford.Proofs.Number.Field
import Mathlib.Algebra.Order.Ring.Defs
import Mathlib.Tactic.LinearCombination
import Mathlib.Tactic.Ring

/-!
# Exact numbers with an order

Exact numbers that can be compared and divided, with absolute values, and with roots of what is not
negative; and those with angles.

## Main definitions

- `OrderedNumber` — the laws of an ordered field, of absolute values and of square roots
- `RootedNumber` — in addition, roots are not negative, and the laws of maxima
- `AngularNumber` — in addition, the laws of sines, cosines and angles
- `TrigonometricNumber` — in addition, the sines and cosines of sums
- `OrderedNumber.linearOrder` — the order, as a linear order

## Main results

- `Number.sign_mul_sign` — the sign of what is not zero squares to one
- `Number.reciprocal_sqrt_abs`, `Number.reciprocal_sqrt_sign` — the reciprocal root of a magnitude
  squares to its reciprocal
- `Number.sin_zero`, `Number.sin_parts` — what follows from the sines and cosines of sums
-/

namespace Clifford

/-- Exact numbers with an order, division, absolute values and square roots. -/
class OrderedNumber (K : Type) [Number K] : Prop extends ExactNumber K where
  /-- Zero and one are different. -/
  zero_ne_one : (0 : K) ≠ 1
  /-- Multiplying with the divisor undoes division. -/
  div_mul_cancel (x : K) {y : K} : y ≠ 0 → x / y * y = x
  /-- No number is less than itself. -/
  lt_irrefl (x : K) : ¬ x < x
  /-- The order is transitive. -/
  lt_trans (x y z : K) : x < y → y < z → x < z
  /-- Two numbers of which none is less are the same. -/
  eq_of_not_lt (x y : K) : ¬ x < y → ¬ y < x → x = y
  /-- Adding a number keeps the order. -/
  add_lt_add_left (x y z : K) : x < y → z + x < z + y
  /-- A product of positive numbers is positive. -/
  mul_pos (x y : K) : 0 < x → 0 < y → 0 < x * y
  /-- The absolute value of a number is the number or its negative. -/
  abs_eq (x : K) : Number.abs x = if x < 0 then -x else x
  /-- What is not negative has a square root. -/
  sqrt_mul_sqrt (x : K) : ¬ x < 0 → Number.sqrt x * Number.sqrt x = x

/-- Exact numbers with an order, whose square roots are the principal ones, and any two of which
have a greater one. -/
class RootedNumber (K : Type) [Number K] : Prop extends OrderedNumber K where
  /-- The square root of what is not negative is not negative. -/
  sqrt_nonneg (x : K) : ¬ x < 0 → ¬ Number.sqrt x < 0
  /-- The greater of two numbers is one of them. -/
  maximum_eq (x y : K) : Number.maximum x y = if x < y then y else x

/-- Exact numbers with an order and principal roots, whose sines and cosines are those of points of
the unit circle. The points of its upper half have angles, which are positive. -/
class AngularNumber (K : Type) [Number K] : Prop extends RootedNumber K where
  /-- Cosine and sine are coordinates of a point of the unit circle. -/
  cos_mul_cos_add_sin_mul_sin (x : K) :
    Number.cos x * Number.cos x + Number.sin x * Number.sin x = 1
  /-- A point of the upper half of the unit circle has a positive angle. -/
  atan2_pos (y x : K) : 0 < y → x * x + y * y = 1 → 0 < Number.atan2 y x
  /-- The sine of the angle is the ordinate. -/
  sin_atan2 (y x : K) : 0 < y → x * x + y * y = 1 → Number.sin (Number.atan2 y x) = y
  /-- The cosine of the angle is the abscissa. -/
  cos_atan2 (y x : K) : 0 < y → x * x + y * y = 1 → Number.cos (Number.atan2 y x) = x

/-- Numbers with angles that can be added, where the points of the axis have angles without a
sine. -/
class TrigonometricNumber (K : Type) [Number K] : Prop extends AngularNumber K where
  /-- The sine of a sum. -/
  sin_add (x y : K) : Number.sin (x + y) = Number.sin x * Number.cos y + Number.cos x * Number.sin y
  /-- The cosine of a sum. -/
  cos_add (x y : K) : Number.cos (x + y) = Number.cos x * Number.cos y - Number.sin x * Number.sin y
  /-- Both points of the unit circle that lie on the axis have an angle without a sine. -/
  sin_atan2_zero (x : K) : x * x = 1 → Number.sin (Number.atan2 0 x) = 0

namespace OrderedNumber

variable {K : Type} [Number K] [OrderedNumber K]

instance (priority := low) fieldNumber : FieldNumber K where
  zero_ne_one := zero_ne_one
  div_mul_cancel := div_mul_cancel

/-- The linear order of the numbers. -/
instance (priority := low) linearOrder : LinearOrder K :=
  have : IsStrictTotalOrder K (· < ·) :=
    { trichotomous := eq_of_not_lt, irrefl := lt_irrefl, trans := lt_trans }
  linearOrderOfSTO (· < ·)

instance (priority := low) isOrderedAddMonoid : IsOrderedAddMonoid K where
  add_le_add_left x y h z := by
    rcases h with rfl | h
    · exact le_rfl
    · rw [add_comm x, add_comm y]
      exact .inr (add_lt_add_left x y z h)

/-- A negative one would have a positive square, which is one. -/
instance (priority := low) zeroLEOneClass : ZeroLEOneClass K where
  zero_le_one := by
    refine not_lt.1 fun hneg => ?_
    have hpos : (0 : K) < -1 := neg_pos.2 hneg
    have hsquare : (0 : K) < -1 * -1 := mul_pos _ _ hpos hpos
    rw [neg_mul_neg, one_mul] at hsquare
    exact lt_irrefl _ (lt_trans _ _ _ hsquare hneg)

instance (priority := low) nontrivial : Nontrivial K := ⟨0, 1, zero_ne_one⟩

instance (priority := low) isStrictOrderedRing : IsStrictOrderedRing K := .of_mul_pos mul_pos

end OrderedNumber

variable {K : Type} [Number K] [OrderedNumber K] {x y : K}

namespace Number

/-- The sign of a number other than zero squares to one. -/
theorem sign_mul_sign (hx : x ≠ 0) : sign x * sign x = 1 := by
  rw [sign]
  by_cases hpos : 0 < x
  · rw [if_pos hpos, one_mul]
  · have hneg : x < 0 := lt_of_le_of_ne (not_lt.1 hpos) hx
    rw [if_neg hpos, if_pos hneg, neg_mul_neg, one_mul]

theorem sign_mul_abs (x : K) : sign x * abs x = x := by
  rw [sign, OrderedNumber.abs_eq]
  by_cases hpos : 0 < x
  · rw [if_pos hpos, if_neg (lt_asymm hpos), one_mul]
  · rw [if_neg hpos]
    split
    · rw [neg_mul_neg, one_mul]
    · rename_i hneg
      rw [le_antisymm (not_lt.1 hpos) (not_lt.1 hneg), zero_mul]

theorem abs_mul_abs (x : K) : abs x * abs x = x * x := by
  rw [OrderedNumber.abs_eq]
  split
  · exact neg_mul_neg x x
  · rfl

theorem abs_of_not_neg (hx : ¬ x < 0) : abs x = x := by
  rw [OrderedNumber.abs_eq, if_neg hx]

theorem not_abs_neg (x : K) : ¬ abs x < 0 := by
  rw [OrderedNumber.abs_eq]
  split
  · rename_i hneg
    exact lt_asymm (neg_pos.2 hneg)
  · assumption

theorem not_mul_self_neg (x : K) : ¬ x * x < 0 := not_lt_of_ge (mul_self_nonneg x)

theorem abs_pos (hx : x ≠ 0) : 0 < abs x := by
  rw [OrderedNumber.abs_eq]
  split
  · rename_i hneg
    exact neg_pos.2 hneg
  · rename_i hneg
    exact lt_of_le_of_ne (not_lt.1 hneg) hx.symm

theorem sign_of_ne_zero (hx : x ≠ 0) : sign x = if 0 < x then 1 else -1 := by
  rw [sign]
  by_cases hpos : 0 < x
  · rw [if_pos hpos, if_pos hpos]
  · have hneg : x < 0 := lt_of_le_of_ne (not_lt.1 hpos) hx
    rw [if_neg hpos, if_neg hpos, if_pos hneg]

/-- What the absolute value has to be multiplied with is the sign. -/
theorem eq_sign_of_abs_mul (hx : x ≠ 0) (h : abs x * y = x) : y = sign x := by
  apply mul_left_cancel₀ (abs_pos hx).ne'
  rw [h, mul_comm, sign_mul_abs]

/-- The root of one is one, as it is not negative. -/
theorem sqrt_one (h : 0 ≤ sqrt (1 : K)) : sqrt (1 : K) = 1 := by
  have hroot := OrderedNumber.sqrt_mul_sqrt (1 : K) (not_lt_of_ge zero_le_one)
  rcases mul_self_eq_one_iff.1 hroot with hone | hneg
  · exact hone
  · rw [hneg] at h
    exact absurd h (not_le_of_gt (neg_lt_zero.2 zero_lt_one))

theorem sqrt_ne_zero (hx : 0 < x) : sqrt x ≠ 0 := by
  intro hzero
  have hroot := OrderedNumber.sqrt_mul_sqrt x (lt_asymm hx)
  rw [hzero, mul_zero] at hroot
  exact hx.ne hroot

/-- The reciprocal root of a magnitude squares to the reciprocal of the magnitude. -/
theorem reciprocal_sqrt_abs {z : K} (hx : x ≠ 0)
    (hz : Operator.div.Evaluates 1 (sqrt (abs x)) z) : z * z * abs x = 1 := by
  have hpos := abs_pos hx
  have hroot := OrderedNumber.sqrt_mul_sqrt (abs x) (lt_asymm hpos)
  have hcancel := hz.mul_cancel (sqrt_ne_zero hpos)
  generalize sqrt (abs x) = root at hroot hcancel
  calc z * z * abs x = (z * root) * (z * root) := by rw [← hroot]; ring
    _ = 1 := by rw [hcancel, one_mul]

/-- Scaled by its reciprocal root twice, a number keeps only its sign. -/
theorem reciprocal_sqrt_sign {z : K} (hx : x ≠ 0)
    (hz : Operator.div.Evaluates 1 (sqrt (abs x)) z) : z * z * x = sign x := by
  calc z * z * x = sign x * (z * z * abs x) := by nth_rewrite 1 [← sign_mul_abs x]; ring
    _ = sign x := by rw [reciprocal_sqrt_abs hx hz, mul_one]

omit [OrderedNumber K] in
theorem sign_of_pos (hx : 0 < x) : sign x = 1 := if_pos hx

/-- The reciprocal of a negated number squares to the reciprocal of its square. -/
theorem negated_reciprocal {z : K} (hx : x ≠ 0) (hz : Operator.div.Evaluates (-1) x z) :
    z * z * (x * x) = 1 := by
  calc z * z * (x * x) = (z * x) * (z * x) := by ring
    _ = 1 := by rw [hz.mul_cancel hx, neg_mul_neg, one_mul]

section Roots

variable {K : Type} [Number K] [RootedNumber K] {x : K}

theorem sqrt_pos (hx : 0 < x) : 0 < sqrt x :=
  lt_of_le_of_ne (not_lt.1 (RootedNumber.sqrt_nonneg x (lt_asymm hx))) (sqrt_ne_zero hx).symm

/-- The root of the square of a positive number is the number. -/
theorem sqrt_mul_self (hx : 0 < x) : sqrt (x * x) = x := by
  have hsquare : 0 < x * x := mul_pos hx hx
  have hroot := OrderedNumber.sqrt_mul_sqrt (x * x) (lt_asymm hsquare)
  exact (mul_self_inj (sqrt_pos hsquare).le hx.le).1 hroot

theorem maximum_zero_of_not_neg (hx : ¬ x < 0) : maximum 0 x = x := by
  rw [RootedNumber.maximum_eq]
  split
  · rfl
  · rename_i hpos
    exact OrderedNumber.eq_of_not_lt 0 x hpos hx

theorem not_maximum_zero_neg (x : K) : ¬ maximum 0 x < 0 := by
  rw [RootedNumber.maximum_eq]
  split
  · rename_i hpos
    exact lt_asymm hpos
  · exact OrderedNumber.lt_irrefl 0

end Roots

section Angles

variable {K : Type} [Number K] [TrigonometricNumber K]

/-- Adding zero to itself leaves no other sine. -/
theorem sin_zero : sin (0 : K) = 0 := by
  have hsin := TrigonometricNumber.sin_add (0 : K) 0
  have hcos := TrigonometricNumber.cos_add (0 : K) 0
  have hcircle := AngularNumber.cos_mul_cos_add_sin_mul_sin (0 : K)
  rw [add_zero] at hsin hcos
  have hfactors : sin (0 : K) * (1 - 2 * cos 0) = 0 := by
    linear_combination hsin
  rcases mul_eq_zero.1 hfactors with hzero | hhalf
  · exact hzero
  · -- A cosine of one half would have a double of minus one half.
    have hone : (1 : K) = 0 := by
      linear_combination hcos - hcircle - cos 0 * hhalf
    exact absurd hone.symm OrderedNumber.zero_ne_one

/-- The sines of the two parts of an angle make two sides of a triangle, and the sine of the whole
angle makes the third one. -/
theorem sin_parts (x y : K) :
    sin x * sin x + sin y * sin y + 2 * (sin x * sin y * cos (x + y)) =
      sin (x + y) * sin (x + y) := by
  have hx := AngularNumber.cos_mul_cos_add_sin_mul_sin x
  have hy := AngularNumber.cos_mul_cos_add_sin_mul_sin y
  rw [TrigonometricNumber.sin_add, TrigonometricNumber.cos_add]
  linear_combination -(sin x * sin x) * hy - sin y * sin y * hx

end Angles

end Number

end Clifford
