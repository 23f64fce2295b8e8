import Clifford.Blade
import Mathlib.Data.Nat.Bitwise
import Mathlib.Data.List.Nodup
import Mathlib.Tactic.Ring

/-!
# The bits of a blade

The loops over a blade clear its lowest basis vector in each round. This file shows that they
visit exactly the set bits of the word, in ascending order, so that everything above can speak
about bits.

## Main results

- `Blade.getLsbD_dropLowest` — clearing the lowest basis vector leaves the other bits alone
- `Blade.positions_eq_filter` — the positions of a blade are its set bits, ascending
- `Blade.grade_eq_length` — the grade counts the positions
-/

namespace Clifford.Blade

/-- Every positive number is a power of two, its lowest bit, added to a multiple of the next
power. -/
theorem exists_lowest_bit {x : Nat} (hx : 0 < x) :
    ∃ k q, x = 2 ^ (k + 1) * q + 2 ^ k := by
  -- The lowest bit of an even number is that of its half, one position higher.
  induction x using Nat.strongRecOn with
  | _ x ih =>
    rcases Nat.mod_two_eq_zero_or_one x with heven | hodd
    · obtain ⟨k, q, hhalf⟩ := ih (x / 2) (by omega) (by omega)
      refine ⟨k + 1, q, ?_⟩
      have hx2 : x = 2 * (x / 2) := by omega
      rw [hx2, hhalf]
      ring
    · exact ⟨0, x / 2, by omega⟩

/-- The predecessor of a number has the bits above the lowest one in common with it, and lacks
the lowest one. -/
theorem testBit_and_pred (k q i : Nat) :
    ((2 ^ (k + 1) * q + 2 ^ k) &&& (2 ^ (k + 1) * q + 2 ^ k - 1)).testBit i =
      ((2 ^ (k + 1) * q + 2 ^ k).testBit i && i != k) := by
  have hpos : 1 ≤ 2 ^ k := Nat.one_le_two_pow
  have hlt : 2 ^ k < 2 ^ (k + 1) := Nat.pow_lt_pow_right (by decide) (by omega)
  -- The predecessor has a zero at `k`, ones below it, and the same bits above it.
  have hpred : 2 ^ (k + 1) * q + 2 ^ k - 1 = 2 ^ (k + 1) * q + (2 ^ k - 1) := by omega
  rw [hpred, Nat.testBit_and, Nat.testBit_two_pow_mul_add _ hlt,
    Nat.testBit_two_pow_mul_add _ (by omega)]
  by_cases hi : i < k + 1
  · rw [if_pos hi, if_pos hi, Nat.testBit_two_pow, Nat.testBit_two_pow_sub_one]
    by_cases hk : k = i
    · subst hk
      simp
    · simp [hk]
  · rw [if_neg hi, if_neg hi]
    have hne : i ≠ k := by omega
    simp [hne]

theorem testBit_lowest (k q i : Nat) (hi : i ≤ k) :
    (2 ^ (k + 1) * q + 2 ^ k).testBit i = decide (i = k) := by
  have hlt : 2 ^ k < 2 ^ (k + 1) := Nat.pow_lt_pow_right (by decide) (by omega)
  rw [Nat.testBit_two_pow_mul_add _ hlt, if_pos (by omega), Nat.testBit_two_pow]
  simp [eq_comm]

theorem exists_lowest {b : Blade} (hb : b ≠ 0) :
    ∃ k q, b.toNat = 2 ^ (k + 1) * q + 2 ^ k ∧ k < 32 := by
  have hpos : 0 < b.toNat := by
    rcases Nat.eq_zero_or_pos b.toNat with hzero | hpos
    · exact absurd (BitVec.eq_of_toNat_eq (by simpa using hzero)) hb
    · exact hpos
  obtain ⟨k, q, hk⟩ := exists_lowest_bit hpos
  refine ⟨k, q, hk, ?_⟩
  have hlt : 2 ^ k < 2 ^ 32 := by
    have := b.isLt
    omega
  exact (Nat.pow_lt_pow_iff_right (by decide)).mp hlt

theorem lowest_eq {b : Blade} {k q : Nat} (hb : b.toNat = 2 ^ (k + 1) * q + 2 ^ k)
    (hk : k < 32) : b.lowest = k := by
  have hfind : (List.range 32).find? b.getLsbD = some k := by
    rw [List.find?_range_eq_some]
    refine ⟨?_, List.mem_range.2 hk, ?_⟩
    · rw [BitVec.getLsbD, hb, testBit_lowest k q k le_rfl]
      simp
    · intro i hi
      rw [BitVec.getLsbD, hb, testBit_lowest k q i (by omega)]
      simp only [Bool.not_eq_true', decide_eq_false_iff_not]
      omega
  rw [lowest, hfind, Option.getD_some]

theorem getLsbD_lowest {b : Blade} (hb : b ≠ 0) : b.getLsbD b.lowest = true := by
  obtain ⟨k, q, hbits, hk⟩ := exists_lowest hb
  rw [lowest_eq hbits hk, BitVec.getLsbD, hbits, testBit_lowest k q k le_rfl]
  simp

theorem getLsbD_of_lt_lowest {b : Blade} (hb : b ≠ 0) {i : Nat} (hi : i < b.lowest) :
    b.getLsbD i = false := by
  obtain ⟨k, q, hbits, hk⟩ := exists_lowest hb
  rw [lowest_eq hbits hk] at hi
  rw [BitVec.getLsbD, hbits, testBit_lowest k q i (by omega)]
  simp only [decide_eq_false_iff_not]
  omega

theorem lowest_lt {b : Blade} (hb : b ≠ 0) : b.lowest < 32 := by
  obtain ⟨k, q, hbits, hk⟩ := exists_lowest hb
  rw [lowest_eq hbits hk]
  exact hk

/-- Clearing the lowest basis vector leaves the other bits alone. -/
theorem getLsbD_dropLowest {b : Blade} (hb : b ≠ 0) (i : Nat) :
    b.dropLowest.getLsbD i = (b.getLsbD i && i != b.lowest) := by
  obtain ⟨k, q, hbits, hk⟩ := exists_lowest hb
  rw [lowest_eq hbits hk]
  simp only [BitVec.getLsbD, dropLowest, BitVec.toNat_ofNatLT, hbits]
  exact testBit_and_pred k q i

/-- Filtering a list without repetitions keeps the first element that passes and then, of the
others, those that pass. -/
private theorem filter_eq_cons_of_find? {p : Nat → Bool} {l : List Nat} {k : Nat}
    (hl : l.Nodup) (hfind : l.find? p = some k) :
    l.filter p = k :: l.filter (fun i => p i && i != k) := by
  induction l with
  | nil => simp at hfind
  | cons a rest ih =>
    obtain ⟨ha, hrest⟩ := List.nodup_cons.1 hl
    by_cases hp : p a = true
    · rw [List.find?_cons_of_pos hp] at hfind
      obtain rfl : a = k := Option.some.inj hfind
      -- Since `a` does not occur again, leaving it out changes nothing in the rest.
      rw [List.filter_cons_of_pos hp, List.filter_cons_of_neg (by simp)]
      congr 1
      refine List.filter_congr fun i hi => ?_
      have hne : i ≠ a := fun h => ha (h ▸ hi)
      simp [hne]
    · rw [List.find?_cons_of_neg hp] at hfind
      rw [List.filter_cons_of_neg hp, List.filter_cons_of_neg (by simp [hp])]
      exact ih hrest hfind

/-- **The positions of a blade are its set bits, in ascending order.** -/
theorem positions_eq_filter (b : Blade) : b.positions = (List.range 32).filter b.getLsbD := by
  induction b using positions.induct with
  | case1 => simp [positions]
  | case2 b hb ih =>
    have hfind : (List.range 32).find? b.getLsbD = some b.lowest := by
      rw [List.find?_range_eq_some]
      refine ⟨getLsbD_lowest hb, List.mem_range.2 (lowest_lt hb), fun i hi => ?_⟩
      simp [getLsbD_of_lt_lowest hb hi]
    rw [positions, dif_neg hb, ih, filter_eq_cons_of_find? List.nodup_range hfind,
      funext (getLsbD_dropLowest hb)]

theorem grade_eq_length (b : Blade) : b.grade = b.positions.length := by
  induction b using positions.induct with
  | case1 => simp [grade, positions]
  | case2 b hb ih =>
    rw [grade, dif_neg hb, ih, positions.eq_1 b, dif_neg hb, List.length_cons]

end Clifford.Blade
