import Clifford.Proofs.Blade.Bits
import Mathlib.Algebra.BigOperators.Intervals
import Mathlib.Algebra.BigOperators.Ring.Finset
import Mathlib.Data.Nat.Choose.Basic

/-!
# Signs of blade products

The transpositions that sort one blade followed by another are the pairs of a vector of the first
and a lower vector of the second. Their parity is therefore additive in each blade with respect
to the symmetric difference, which is what products, reversals and sandwiches rest on.

## Main definitions

- `Blade.below` — how many vectors of a blade lie below a position
- `Blade.swapSign` — the sign of sorting one blade followed by another

## Main results

- `Blade.productFlips_eq_sum` — the transpositions, counted vector by vector
- `Blade.swapSign_xor_left`, `Blade.swapSign_xor_right` — the sign is bimultiplicative
- `Blade.reverseFlips_eq_productFlips` — reversing a blade takes as many transpositions as
  sorting two copies of it
-/

namespace Clifford.Blade

open Finset

/-- How many basis vectors of a blade lie below a position. -/
def below (b : Blade) (i : Nat) : Nat := ∑ j ∈ range i, if b.getLsbD j then 1 else 0

@[simp] theorem below_zero (b : Blade) : b.below 0 = 0 := by simp [below]

theorem below_succ (b : Blade) (i : Nat) :
    b.below (i + 1) = b.below i + if b.getLsbD i then 1 else 0 := by
  rw [below, sum_range_succ, below]

/-- Positions that belong to neither blade do not change the count of transpositions. -/
theorem productFlips_go_filter (a b : Blade) (seen : Nat) (l : List Nat) :
    productFlips.go a b seen (l.filter (a ||| b).getLsbD) = productFlips.go a b seen l := by
  induction l generalizing seen with
  | nil => rfl
  | cons i rest ih =>
    by_cases hi : (a ||| b).getLsbD i = true
    · rw [List.filter_cons_of_pos hi, productFlips.go, productFlips.go, ih]
    · rw [List.filter_cons_of_neg hi, productFlips.go, ih]
      have hboth : a.getLsbD i = false ∧ b.getLsbD i = false := by simpa using hi
      simp [hboth.1, hboth.2]

/-- Over consecutive positions, each vector of the first blade is counted with the vectors of
the second one below it. -/
theorem productFlips_go_range' (a b : Blade) (start n : Nat) :
    productFlips.go a b (b.below start) (List.range' start n) =
      ∑ i ∈ Ico start (start + n), if a.getLsbD i then b.below i else 0 := by
  -- The loop has seen the vectors of `b` below the position that it visits next.
  induction n generalizing start with
  | zero => simp [productFlips.go]
  | succ n ih =>
    have hseen : (if b.getLsbD start then b.below start + 1 else b.below start) =
        b.below (start + 1) := by
      rw [below_succ]
      split <;> simp
    have hend : start + 1 + n = start + (n + 1) := by omega
    have hlt : start < start + (n + 1) := by omega
    rw [List.range'_succ, productFlips.go, hseen, ih, hend, sum_eq_sum_Ico_succ_bot hlt]

/-- **The transpositions that sort two blades, counted vector by vector of the first one.** -/
theorem productFlips_eq_sum (a b : Blade) :
    a.productFlips b = ∑ i ∈ range 32, if a.getLsbD i then b.below i else 0 := by
  have hrange := productFlips_go_range' a b 0 32
  rw [below_zero, Nat.zero_add, ← List.range_eq_range', Nat.Ico_zero_eq_range] at hrange
  rw [productFlips, positions_eq_filter, productFlips_go_filter, hrange]

/-- Of a blade, the pairs of a vector and a lower one are the two-element subsets. -/
theorem sum_below_eq_choose (b : Blade) (n : Nat) :
    ∑ i ∈ range n, (if b.getLsbD i then b.below i else 0) = (b.below n).choose 2 := by
  induction n with
  | zero => simp
  | succ n ih =>
    rw [sum_range_succ, ih, below_succ]
    split
    · -- A vector at `n` makes a pair with each of the vectors below it.
      rw [Nat.choose_succ_succ' (b.below n) 1, Nat.choose_one_right, Nat.add_comm]
    · simp

theorem length_filter_range (b : Blade) (n : Nat) :
    ((List.range n).filter b.getLsbD).length = b.below n := by
  induction n with
  | zero => rfl
  | succ n ih =>
    rw [List.range_succ, List.filter_append, List.length_append, ih, below_succ]
    by_cases hn : b.getLsbD n = true <;> simp [hn]

theorem grade_eq_below (b : Blade) : b.grade = b.below 32 := by
  rw [grade_eq_length, positions_eq_filter, length_filter_range]

/-- **Reversing a blade takes as many transpositions as sorting two copies of it.** -/
theorem reverseFlips_eq_productFlips (b : Blade) : b.reverseFlips = b.productFlips b := by
  rw [productFlips_eq_sum, sum_below_eq_choose, ← grade_eq_below, Nat.choose_two_right,
    reverseFlips]

section Sign

variable (R : Type*) [CommRing R]

/-- The sign of sorting the vectors of `a` followed by those of `b`. -/
def swapSign (a b : Blade) : R := (-1) ^ a.productFlips b

variable {R}

theorem swapSign_eq_prod (a b : Blade) :
    swapSign R a b =
      ∏ i ∈ range 32, ∏ j ∈ range i, if a.getLsbD i && b.getLsbD j then -1 else 1 := by
  rw [swapSign, productFlips_eq_sum, ← prod_pow_eq_pow_sum]
  refine prod_congr rfl fun i _ => ?_
  by_cases hi : a.getLsbD i = true
  · rw [if_pos hi, below, ← prod_pow_eq_pow_sum]
    refine prod_congr rfl fun j _ => ?_
    by_cases hj : b.getLsbD j = true <;> simp [hi, hj]
  · simp [hi]

theorem swapSign_xor_left (a b c : Blade) :
    swapSign R (a ^^^ b) c = swapSign R a c * swapSign R b c := by
  -- A vector of both `a` and `b` cancels, and so do the two signs that it would bring.
  simp only [swapSign_eq_prod, ← prod_mul_distrib]
  refine prod_congr rfl fun i _ => prod_congr rfl fun j _ => ?_
  rw [BitVec.getLsbD_xor]
  cases a.getLsbD i <;> cases b.getLsbD i <;> cases c.getLsbD j <;> simp

theorem swapSign_xor_right (a b c : Blade) :
    swapSign R a (b ^^^ c) = swapSign R a b * swapSign R a c := by
  simp only [swapSign_eq_prod, ← prod_mul_distrib]
  refine prod_congr rfl fun i _ => prod_congr rfl fun j _ => ?_
  rw [BitVec.getLsbD_xor]
  cases a.getLsbD i <;> cases b.getLsbD j <;> cases c.getLsbD j <;> simp

theorem swapSign_zero_left (b : Blade) : swapSign R 0 b = 1 := by
  simp [swapSign_eq_prod]

theorem swapSign_zero_right (a : Blade) : swapSign R a 0 = 1 := by
  simp [swapSign_eq_prod]

end Sign

end Clifford.Blade

namespace Clifford

theorem ite_isOdd_neg {R : Type*} [CommRing R] (flips : Nat) (x : R) :
    (if isOdd flips then -x else x) = (-1) ^ flips * x := by
  rcases Nat.even_or_odd flips with h | h
  · have heven : isOdd flips = false := by
      rw [isOdd, Nat.even_iff.1 h]
      rfl
    rw [heven, h.neg_one_pow, one_mul]
    rfl
  · have hodd : isOdd flips = true := by
      rw [isOdd, Nat.odd_iff.1 h]
      rfl
    rw [hodd, h.neg_one_pow, neg_one_mul]
    rfl

end Clifford
