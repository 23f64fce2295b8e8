import Clifford.Proofs.Algebra.Versors

/-!
# Blades vector by vector

A blade is its lowest vector and the rest, and every position of a blade has as many vectors below
it as its index says. So statements about all blades can be proved from the lowest vector up.

## Main results

- `Blade.induction_lowest` — blades are built from higher blades and a lowest vector
- `Blade.positions_vector_xor` — a lower vector comes first in the list of positions
- `Blade.positions_zipIdx` — the index of a position counts the vectors below it
- `Blade.positions_xor_getElem` — a vector is left out of the list of positions
-/

namespace Clifford.Blade

open Finset

variable {b c : Blade} {i j l : Nat}

theorem getLsbD_vector_xor (hi : i < 32) :
    (vector i ^^^ b).getLsbD j = (decide (i = j) ^^ b.getLsbD j) := by
  simp [getLsbD_vector, hi]

theorem eq_zero_of_getLsbD (h : ∀ i < 32, b.getLsbD i = false) : b = 0 := by
  refine BitVec.eq_of_getLsbD_eq fun i hi => ?_
  rw [h i hi]
  exact BitVec.getLsbD_zero.symm

theorem lt_of_getLsbD (h : b.getLsbD i = true) : i < 32 := BitVec.lt_of_getLsbD h

/-! ### The lowest vector -/

theorem lowest_unique (hi : b.getLsbD i = true) (hlow : ∀ j < i, b.getLsbD j = false) :
    b.lowest = i := by
  have hb : b ≠ 0 := by
    rintro rfl
    simp at hi
  rcases Nat.lt_trichotomy b.lowest i with hlt | heq | hgt
  · exact absurd (hlow _ hlt) (by simp [getLsbD_lowest hb])
  · exact heq
  · rw [getLsbD_of_lt_lowest hb hgt] at hi
    cases hi

/-- **A lower vector comes first** in the list of positions. -/
theorem positions_vector_xor (hi : i < 32) (hlow : ∀ j ≤ i, b.getLsbD j = false) :
    (vector i ^^^ b).positions = i :: b.positions := by
  have hset : (vector i ^^^ b).getLsbD i = true := by
    simp [getLsbD_vector_xor hi, hlow i le_rfl]
  have hne : vector i ^^^ b ≠ 0 := by
    intro h
    simp [h] at hset
  have hlowest : (vector i ^^^ b).lowest = i := by
    refine lowest_unique hset fun j hj => ?_
    simp [getLsbD_vector_xor hi, hlow j hj.le, hj.ne']
  have hrest : (vector i ^^^ b).dropLowest = b := by
    refine BitVec.eq_of_getLsbD_eq fun j _ => ?_
    rw [getLsbD_dropLowest hne, hlowest, getLsbD_vector_xor hi]
    by_cases hj : j = i
    · subst hj
      simp [hlow j le_rfl]
    · simp [hj, Ne.symm hj]
  rw [positions, dif_neg hne, hlowest, hrest]

theorem positions_zero : (0 : Blade).positions = [] := by simp [positions]

theorem positions_vector (hi : i < 32) : (vector i).positions = [i] := by
  have hxor : vector i ^^^ 0 = vector i := BitVec.xor_zero
  have hlist := positions_vector_xor (b := 0) hi fun _ _ => BitVec.getLsbD_zero
  rwa [hxor, positions_zero] at hlist

/-- **Every blade is built from the top**, by adding vectors below those that it has. -/
theorem induction_lowest {P : Blade → Prop} (zero : P 0)
    (add : ∀ i b, i < 32 → (∀ j ≤ i, b.getLsbD j = false) → P b → P (vector i ^^^ b))
    (b : Blade) : P b := by
  induction b using positions.induct with
  | case1 => exact zero
  | case2 b hb ih =>
    rw [← vector_xor_dropLowest hb]
    refine add _ _ (lowest_lt hb) (fun j hj => ?_) ih
    rw [getLsbD_dropLowest hb]
    rcases Nat.lt_or_eq_of_le hj with hlt | rfl
    · simp [getLsbD_of_lt_lowest hb hlt]
    · simp

/-! ### Counting below a position -/

theorem below_eq_zero (h : ∀ j < i, b.getLsbD j = false) : b.below i = 0 := by
  refine sum_eq_zero fun j hj => ?_
  simp [h j (mem_range.1 hj)]

theorem below_vector_xor_of_le (hij : j ≤ i) (hi : i < 32) :
    (vector i ^^^ b).below j = b.below j := by
  refine sum_congr rfl fun k hk => ?_
  have hne : i ≠ k := by
    have := mem_range.1 hk
    omega
  simp [getLsbD_vector_xor hi, hne]

theorem below_vector (hi : i < 32) : (vector i).below j = if i < j then 1 else 0 := by
  simp [below, getLsbD_vector, hi]

theorem below_vector_xor_of_lt (hij : i < j) (hi : i < 32) (hb : b.getLsbD i = false) :
    (vector i ^^^ b).below j = b.below j + 1 := by
  have hvector : (vector i).below j = 1 := by rw [below_vector hi, if_pos hij]
  rw [← hvector, below, below, below, ← sum_add_distrib]
  refine sum_congr rfl fun k _ => ?_
  rw [getLsbD_vector_xor hi, getLsbD_vector]
  by_cases hk : i = k
  · subst hk
    rw [hb, decide_eq_true hi, decide_eq_true rfl]
    rfl
  · simp [hk]

/-- A vector that comes first passes all vectors below it. -/
theorem productFlips_vector_left (hi : i < 32) : (vector i).productFlips b = b.below i := by
  rw [productFlips_eq_sum, sum_eq_single i]
  · simp [getLsbD_vector, hi]
  · intro j _ hj
    simp [getLsbD_vector, hj.symm]
  · intro h
    exact absurd (mem_range.2 hi) h

/-- A vector that comes last is passed by all vectors above it. -/
theorem productFlips_vector_right (hj : j < 32) :
    b.productFlips (vector j) = grade (b >>> (j + 1)) := by
  have habove : ∀ k, (b >>> (j + 1)).getLsbD k = b.getLsbD (j + 1 + k) := fun k =>
    BitVec.getLsbD_ushiftRight b (j + 1) k
  have hfilter : (range 32).filter (j < ·) = Ico (j + 1) 32 := by
    ext k
    simp only [mem_filter, mem_range, mem_Ico]
    omega
  have hshifted : ∑ k ∈ range (32 - (j + 1)), (if b.getLsbD (j + 1 + k) then 1 else 0) =
      ∑ k ∈ range 32, if b.getLsbD (j + 1 + k) then 1 else 0 := by
    refine sum_subset (range_subset_range.2 (by omega)) fun k _ hk => ?_
    have hbeyond : b.getLsbD (j + 1 + k) = false := by
      refine BitVec.getLsbD_of_ge b _ ?_
      rw [mem_range] at hk
      omega
    simp [hbeyond]
  rw [productFlips_eq_sum, grade_eq_below, below]
  simp only [below_vector hj, habove]
  rw [← hshifted, ← sum_Ico_eq_sum_range (fun k => if b.getLsbD k then 1 else 0), ← hfilter,
    sum_filter]
  refine sum_congr rfl fun k _ => ?_
  split <;> split <;> rfl

/-! ### Indices of positions -/

/-- **The index of a position counts the vectors below it.** -/
theorem positions_zipIdx (b : Blade) :
    b.positions.zipIdx = b.positions.map fun i => (i, b.below i) := by
  have hrange : ∀ n, ((List.range n).filter b.getLsbD).zipIdx =
      ((List.range n).filter b.getLsbD).map fun i => (i, b.below i) := by
    intro n
    induction n with
    | zero => rfl
    | succ n ih =>
      rw [List.range_succ, List.filter_append, List.zipIdx_append, ih, List.map_append,
        length_filter_range]
      by_cases hn : b.getLsbD n = true <;> simp [hn]
  rw [positions_eq_filter]
  exact hrange 32

theorem below_positions_getElem {r : Nat} (hr : r < b.positions.length) :
    b.below b.positions[r] = r := by
  have hzip : b.positions.zipIdx[r]? = some (b.positions[r], r) := by
    simp [hr]
  rw [positions_zipIdx] at hzip
  simpa [hr] using hzip

theorem mem_positions : i ∈ b.positions ↔ b.getLsbD i = true := by
  rw [positions_eq_filter, List.mem_filter, List.mem_range]
  exact ⟨And.right, fun h => ⟨lt_of_getLsbD h, h⟩⟩

theorem pairwise_positions (b : Blade) : b.positions.Pairwise (· < ·) := by
  rw [positions_eq_filter]
  exact List.pairwise_lt_range.filter _

theorem nodup_positions (b : Blade) : b.positions.Nodup := b.pairwise_positions.imp Nat.ne_of_lt

/-- A sum over the positions of a blade runs over all positions that it has. -/
theorem sum_map_positions {M : Type*} [AddCommMonoid M] (b : Blade) (f : Nat → M) :
    (b.positions.map f).sum = ∑ i ∈ range 32, if b.getLsbD i then f i else 0 := by
  rw [positions_eq_filter, ← sum_filter, ← List.sum_toFinset f (List.nodup_range.filter _),
    List.toFinset_filter, List.toFinset_range]

/-- **A vector is left out** of the list of positions. -/
theorem positions_xor_of_mem (hb : b.getLsbD i = true) :
    (vector i ^^^ b).positions = b.positions.filter (· != i) := by
  rw [positions_eq_filter, positions_eq_filter, List.filter_filter]
  refine List.filter_congr fun k _ => ?_
  rw [getLsbD_vector_xor (lt_of_getLsbD hb)]
  by_cases hk : k = i
  · subst hk
    simp [hb]
  · simp [hk, Ne.symm hk]

theorem positions_xor_getElem {r : Nat} (hr : r < b.positions.length) :
    (vector b.positions[r] ^^^ b).positions = b.positions.eraseIdx r := by
  have hset : b.getLsbD b.positions[r] = true := mem_positions.1 (List.getElem_mem hr)
  rw [positions_xor_of_mem hset, ← (nodup_positions b).erase_eq_filter,
    (nodup_positions b).erase_getElem r hr]

theorem grade_vector_xor (hb : b.getLsbD i = true) : (vector i ^^^ b).grade + 1 = b.grade := by
  obtain ⟨r, hr, rfl⟩ := List.getElem_of_mem (mem_positions.2 hb)
  rw [grade_eq_length, positions_xor_getElem hr, grade_eq_length,
    List.length_eraseIdx_add_one hr]

end Clifford.Blade
