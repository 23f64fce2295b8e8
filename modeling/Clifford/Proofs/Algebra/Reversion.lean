import Clifford.Proofs.Algebra.Associativity
import Mathlib.Algebra.Order.BigOperators.Group.Finset

/-!
# Reversion of products

Reversing the order of the vectors turns a product around. On blades this is a statement about
signs: reversing a symmetric difference costs the reversions of both blades and the signs of
sorting them in either order.

## Main results

- `Blade.grade_xor` — the grades of two blades, of what they share and of what they do not
- `Blade.reverseSign_xor` — the sign of reversing a symmetric difference
- `Values.reversed_convolve` — the reverse of a product is the product of the reverses, turned
  around
-/

namespace Clifford

open Finset

namespace Blade

/-- A vector of two blades counts for both of them, and is left out of the symmetric difference. -/
theorem grade_xor (a b : Blade) : (a ^^^ b).grade + 2 * (a &&& b).grade = a.grade + b.grade := by
  simp only [grade_eq_below, below, mul_sum, ← sum_add_distrib]
  refine sum_congr rfl fun i _ => ?_
  rw [BitVec.getLsbD_xor, BitVec.getLsbD_and]
  cases a.getLsbD i <;> cases b.getLsbD i <;> rfl

theorem grade_and_le (a b : Blade) : (a &&& b).grade ≤ a.grade := by
  rw [grade_eq_below, grade_eq_below, below, below]
  refine sum_le_sum fun i _ => ?_
  rw [BitVec.getLsbD_and]
  cases a.getLsbD i <;> cases b.getLsbD i <;> decide

section Sign

variable (R : Type*) [CommRing R]

/-- The sign of reversing the vectors of a blade. -/
def reverseSign (b : Blade) : R := (-1) ^ b.reverseFlips

variable {R}

theorem reverseSign_eq_swapSign (b : Blade) : reverseSign R b = swapSign R b b := by
  rw [reverseSign, reverseFlips_eq_productFlips, swapSign]

theorem swapSign_mul_self (a b : Blade) : swapSign R a b * swapSign R a b = 1 := by
  rw [swapSign, ← mul_pow, neg_one_mul, neg_neg, one_pow]

theorem reverseSign_mul_self (b : Blade) : reverseSign R b * reverseSign R b = 1 := by
  rw [reverseSign_eq_swapSign, swapSign_mul_self]

theorem reverseSign_xor (a b : Blade) :
    reverseSign R (a ^^^ b) =
      reverseSign R a * reverseSign R b * (swapSign R a b * swapSign R b a) := by
  simp only [reverseSign_eq_swapSign, swapSign_xor_left, swapSign_xor_right]
  ring

/-- The reverse of a product of blades is the product of the reverses, turned around. -/
theorem reverseSign_mul_twist (q : Nat → R) (a b : Blade) :
    reverseSign R (a ^^^ b) * twist q a b =
      twist q b a * (reverseSign R b * reverseSign R a) := by
  rw [reverseSign_xor, twist, twist, BitVec.and_comm b a]
  linear_combination (reverseSign R a * reverseSign R b * swapSign R b a *
    weight q (a &&& b)) * swapSign_mul_self (R := R) a b

end Sign

end Blade

namespace Values

variable {R : Type*} [CommRing R]

theorem reversed_eq (f : Values R) (b : Blade) : reversed f b = Blade.reverseSign R b * f b :=
  reversed_apply f b

@[simp] theorem reversed_reversed (f : Values R) : reversed (reversed f) = f := by
  funext b
  rw [reversed_eq, reversed_eq, ← mul_assoc, Blade.reverseSign_mul_self, one_mul]

@[simp] theorem reversed_scalar (x : R) : reversed (scalar x) = scalar x := by
  funext b
  rw [reversed_eq, scalar]
  by_cases hb : 0 = b
  · rw [← hb, Blade.reverseSign_eq_swapSign, Blade.swapSign_zero_left, one_mul]
  · rw [single_of_ne x hb, mul_zero]

/-- Where reversing a pair of blades takes one kernel to another, turned around, the reverse of a
product is a product of the reverses. -/
theorem reversed_convolve_of_kernel {k k' : Blade → Blade → R}
    (hk : ∀ a b, Blade.reverseSign R (a ^^^ b) * k a b =
      k' b a * (Blade.reverseSign R b * Blade.reverseSign R a)) (f g : Values R) :
    reversed (convolve k f g) = convolve k' (reversed g) (reversed f) := by
  funext c
  rw [reversed_eq, convolve, convolve, sum_comm, mul_sum]
  refine sum_congr rfl fun b _ => ?_
  rw [mul_sum]
  refine sum_congr rfl fun a _ => ?_
  rw [BitVec.xor_comm b a, mul_ite, mul_zero]
  split
  · rename_i hc
    rw [← hc, reversed_eq, reversed_eq]
    linear_combination (f a * g b) * hk a b
  · rfl

/-- **The reverse of a product is the product of the reverses, turned around.** -/
theorem reversed_convolve (q : Nat → R) (f g : Values R) :
    reversed (convolve (Blade.twist q) f g) =
      convolve (Blade.twist q) (reversed g) (reversed f) :=
  reversed_convolve_of_kernel (Blade.reverseSign_mul_twist q) f g

end Values

end Clifford
