import Clifford.Proofs.Blade.Sweeps
import Clifford.Proofs.Values.Exterior
import Mathlib.Data.Set.Card

/-!
# Transpositions as inversions

The transpositions that sort one blade followed by another are the inversions of the two lists of
positions, one behind the other: the pairs of a vector of the first blade and a lower one of the
second. One sweep over the vectors of both blades counts these pairs, with two counters that are
words themselves; neither of them overflows, since there are only so many pairs.

## Main definitions

- `inversions` — how often a greater entry of a list stands before a smaller one
- `Blade.crossings` — the pairs of a vector of one blade and a lower vector of another
- `Blade.raise?`, `Blade.countFlips?` — a counter in a word, and one round of the sweep with two

## Main results

- `Blade.productFlips_eq_card` — the transpositions are counted by pairs
- `Blade.inversions_positions_append` — they are the inversions of the lists of positions
- `Blade.sweepsTo_productFlips` — the sweep counts them in words, and no counter overflows
- `Blade.isOdd_productFlips_xor_left`, `Blade.isOdd_productFlips_xor_right` — their parity is
  additive in both blades
- `Blade.productFlips_counts_inversions` — all of this at once
-/

namespace Clifford

open Finset

/-! ### Inversions of lists -/

/-- The inversions of a list: the pairs of entries of which the first is greater. -/
def inversions : List Nat → Nat
  | [] => 0
  | x :: rest => rest.countP (· < x) + inversions rest

theorem inversions_append (l m : List Nat) :
    inversions (l ++ m) =
      inversions l + inversions m + (l.map fun x => m.countP (· < x)).sum := by
  induction l with
  | nil => simp [inversions]
  | cons x rest ih =>
    simp only [List.cons_append, inversions, List.countP_append, ih, List.map_cons, List.sum_cons]
    omega

-- Entries that are equal are in order.
example : inversions ([1, 2] ++ [0, 1]) = 3 := by decide

/-- An ascending list has no inversions. -/
theorem inversions_of_ascending {l : List Nat} (h : l.Pairwise (· < ·)) : inversions l = 0 := by
  induction l with
  | nil => rfl
  | cons x rest ih =>
    rw [List.pairwise_cons] at h
    rw [inversions, ih h.2, Nat.add_zero, List.countP_eq_zero]
    intro y hy
    have hlt := h.1 y hy
    simp only [decide_eq_true_eq]
    omega

/-- In a descending list, every pair of entries is an inversion. -/
theorem inversions_of_descending {l : List Nat} (h : l.Pairwise (· > ·)) :
    inversions l = l.length.choose 2 := by
  induction l with
  | nil => rfl
  | cons x rest ih =>
    rw [List.pairwise_cons] at h
    have hall : rest.countP (· < x) = rest.length := by
      rw [List.countP_eq_length]
      intro y hy
      simpa using h.1 y hy
    rw [inversions, ih h.2, hall, List.length_cons, Nat.choose_succ_succ' rest.length 1,
      Nat.choose_one_right]

namespace Blade

variable {a b c : Blade} {i j : Nat}

/-! ### Pairs of vectors -/

/-- The pairs of a vector of `a` and a lower vector of `b`. -/
def crossings (a b : Blade) : Finset (Nat × Nat) :=
  {p ∈ range 32 ×ˢ range 32 | a.getLsbD p.1 = true ∧ b.getLsbD p.2 = true ∧ p.2 < p.1}

@[simp] theorem mem_crossings :
    (i, j) ∈ crossings a b ↔ a.getLsbD i = true ∧ b.getLsbD j = true ∧ j < i := by
  simp only [crossings, mem_filter, mem_product, mem_range, and_iff_right_iff_imp]
  rintro ⟨hi, hj, -⟩
  exact ⟨lt_of_getLsbD hi, lt_of_getLsbD hj⟩

theorem below_eq_card (b : Blade) (hi : i ≤ 32) :
    b.below i = ({j ∈ range 32 | b.getLsbD j = true ∧ j < i} : Finset Nat).card := by
  rw [below, ← card_filter]
  congr 1
  ext j
  simp only [mem_filter, mem_range]
  constructor
  · rintro ⟨hj, hset⟩
    exact ⟨by omega, hset, hj⟩
  · rintro ⟨-, hset, hj⟩
    exact ⟨hj, hset⟩

/-- **The transpositions are counted by pairs.** -/
theorem productFlips_eq_card (a b : Blade) : a.productFlips b = (crossings a b).card := by
  rw [productFlips_eq_sum, crossings, card_filter, sum_product]
  refine sum_congr rfl fun i hi => ?_
  rw [below_eq_card b (mem_range.1 hi).le, card_filter]
  by_cases hset : a.getLsbD i = true
  · simp [hset]
  · simp [hset]

theorem encard_eq_productFlips (a b : Blade) :
    {p : Nat × Nat | a.getLsbD p.1 = true ∧ b.getLsbD p.2 = true ∧ p.2 < p.1}.encard =
      a.productFlips b := by
  have hpairs : {p : Nat × Nat | a.getLsbD p.1 = true ∧ b.getLsbD p.2 = true ∧ p.2 < p.1} =
      (crossings a b : Set (Nat × Nat)) := by
    ext ⟨i, j⟩
    simp
  rw [hpairs, Set.encard_coe_eq_coe_finsetCard, productFlips_eq_card]

theorem productFlips_le (a b : Blade) : a.productFlips b ≤ 32 * 32 := by
  rw [productFlips_eq_card]
  exact (card_filter_le _ _).trans (by simp)

/-! ### Lists of positions -/

theorem countP_lt_positions (b : Blade) (hi : i ≤ 32) : b.positions.countP (· < i) = b.below i := by
  rw [below_eq_card b hi, List.countP_eq_length_filter,
    ← List.toFinset_card_of_nodup ((nodup_positions b).filter _)]
  congr 1
  ext j
  simp only [List.mem_toFinset, List.mem_filter, mem_positions, mem_filter, mem_range,
    decide_eq_true_eq]
  constructor
  · rintro ⟨hset, hj⟩
    exact ⟨lt_of_getLsbD hset, hset, hj⟩
  · rintro ⟨-, hset, hj⟩
    exact ⟨hset, hj⟩

/-- **The transpositions are the inversions** of both lists of positions, one behind the other. -/
theorem inversions_positions_append (a b : Blade) :
    inversions (a.positions ++ b.positions) = a.productFlips b := by
  have hmap : a.positions.map (fun i => b.positions.countP (· < i)) = a.positions.map b.below := by
    refine List.map_congr_left fun i hi => ?_
    exact countP_lt_positions b (lt_of_getLsbD (mem_positions.1 hi)).le
  rw [inversions_append, inversions_of_ascending a.pairwise_positions,
    inversions_of_ascending b.pairwise_positions, hmap, sum_map_positions, productFlips_eq_sum]
  omega

theorem inversions_positions_reverse (b : Blade) :
    inversions b.positions.reverse = b.productFlips b := by
  have hdescending : b.positions.reverse.Pairwise (· > ·) :=
    List.pairwise_reverse.2 b.pairwise_positions
  rw [inversions_of_descending hdescending, List.length_reverse, ← grade_eq_length,
    productFlips_eq_sum, sum_below_eq_choose, grade_eq_below]

/-! ### Counting in words -/

/-- A counter of 32 bits, raised if there is reason to; nothing where that overflows. -/
def raise? (reason : Bool) (count amount : BitVec 32) : Option (BitVec 32) :=
  if !reason then some count
  else if count.uaddOverflow amount then none
  else some (count + amount)

/-- One round of the sweep over the vectors of both blades, with the number of transpositions so
far and the number of vectors of `b` seen so far. -/
def countFlips? (a b : Blade) : BitVec 32 × BitVec 32 → Nat → Option (BitVec 32 × BitVec 32)
  | (flips, seen), i => do
    let flips ← raise? (a &&& vector i != 0) flips seen
    let seen ← raise? (b &&& vector i != 0) seen 1
    pure (flips, seen)

theorem raise?_ofNat {reason : Bool} {count amount : Nat}
    (h : count + (if reason then amount else 0) < 2 ^ 32) :
    raise? reason (.ofNat 32 count) (.ofNat 32 amount) =
      some (.ofNat 32 (count + if reason then amount else 0)) := by
  cases reason with
  | false => rfl
  | true =>
    rw [if_pos rfl] at h ⊢
    have hfits : BitVec.uaddOverflow (.ofNat 32 count) (.ofNat 32 amount) = false := by
      simp only [BitVec.uaddOverflow, BitVec.toNat_ofNat, decide_eq_false_iff_not]
      omega
    rw [raise?, hfits, BitVec.ofNat_add]
    rfl

theorem and_vector_bne_zero (hi : i < 32) : (b &&& vector i != 0) = b.getLsbD i := by
  rw [Bool.eq_iff_iff, bne_iff_ne, BitVec.and_comm, ne_eq, vector_and_eq_zero hi,
    Bool.not_eq_false]

/-- A round adds to each count what the loop on numbers adds to it, as long as that fits. -/
theorem countFlips?_ofNat (hi : i < 32) {flips seen : Nat}
    (hflips : flips + (if a.getLsbD i then seen else 0) < 2 ^ 32)
    (hseen : seen + (if b.getLsbD i then 1 else 0) < 2 ^ 32) :
    countFlips? a b (.ofNat 32 flips, .ofNat 32 seen) i =
      some (.ofNat 32 (flips + if a.getLsbD i then seen else 0),
        .ofNat 32 (seen + if b.getLsbD i then 1 else 0)) := by
  have hraised := raise?_ofNat hseen
  rw [countFlips?, and_vector_bne_zero hi, and_vector_bne_zero hi, raise?_ofNat hflips]
  show (raise? _ _ 1 >>= fun seen => pure (_, seen)) = _
  rw [show (1 : BitVec 32) = .ofNat 32 1 from rfl, hraised]
  rfl

/-- While the counts fit into words, the sweep follows the count of transpositions. -/
theorem foldlM_countFlips? {l : List Nat} (hl : ∀ i ∈ l, i < 32) (flips seen : Nat)
    (hflips : flips + productFlips.go a b seen l < 2 ^ 32)
    (hseen : seen + l.countP b.getLsbD < 2 ^ 32) :
    l.foldlM (countFlips? a b) (.ofNat 32 flips, .ofNat 32 seen) =
      some (.ofNat 32 (flips + productFlips.go a b seen l),
        .ofNat 32 (seen + l.countP b.getLsbD)) := by
  -- What is still to be added bounds both counts in every round.
  induction l generalizing flips seen with
  | nil => simp [productFlips.go]
  | cons i rest ih =>
    have hnext : (if b.getLsbD i then seen + 1 else seen) =
        seen + if b.getLsbD i then 1 else 0 := by
      split <;> rfl
    rw [productFlips.go, hnext, ← Nat.add_assoc] at hflips ⊢
    rw [List.countP_cons, Nat.add_comm (rest.countP _), ← Nat.add_assoc] at hseen ⊢
    rw [List.foldlM_cons, countFlips?_ofNat (hl i List.mem_cons_self) (by omega) (by omega)]
    exact ih (fun j hj => hl j (List.mem_cons_of_mem i hj)) _ _ hflips hseen

/-- Of the vectors of two blades, those of the second are as many as its grade says. -/
theorem countP_positions_or (a b : Blade) : (a ||| b).positions.countP b.getLsbD = b.grade := by
  have hfilter : (a ||| b).positions.filter b.getLsbD = b.positions := by
    rw [positions_eq_filter, positions_eq_filter, List.filter_filter]
    refine List.filter_congr fun i _ => ?_
    rw [BitVec.getLsbD_or]
    cases a.getLsbD i <;> cases b.getLsbD i <;> rfl
  rw [List.countP_eq_length_filter, hfilter, grade_eq_length]

theorem grade_le (b : Blade) : b.grade ≤ 32 := by
  rw [grade_eq_length, positions_eq_filter]
  exact (List.length_filter_le _ _).trans List.length_range.le

/-- **The sweep counts the transpositions in words**, and no counter overflows. -/
theorem sweepsTo_productFlips (a b : Blade) :
    SweepsTo maskLowest (countFlips? a b) (a ||| b) (0, 0) (a ||| b).grade
      (some (.ofNat 32 (a.productFlips b), .ofNat 32 b.grade)) := by
  have hflips := productFlips_le a b
  have hgrade := grade_le b
  rw [productFlips] at hflips ⊢
  rw [← countP_positions_or a b] at hgrade ⊢
  have hpositions : ∀ i ∈ (a ||| b).positions, i < 32 := fun i hi =>
    lt_of_getLsbD (mem_positions.1 hi)
  have hfold := foldlM_countFlips? (a := a) (b := b) hpositions 0 0 (by omega) (by omega)
  rw [Nat.zero_add, Nat.zero_add] at hfold
  exact sweepsTo_of_foldlM clearsLowest_maskLowest hfold

/-! ### Parity -/

theorem isOdd_eq_xor {l m n : Nat} (h : (-1 : ℤ) ^ l = (-1) ^ m * (-1) ^ n) :
    isOdd l = (isOdd m ^^ isOdd n) := by
  have hsign : ∀ k, (-1 : ℤ) ^ k = if isOdd k then -1 else 1 := fun k => by
    rw [ite_isOdd_neg, mul_one]
  rw [hsign, hsign, hsign] at h
  cases hl : isOdd l <;> cases hm : isOdd m <;> cases hn : isOdd n <;> simp_all

theorem isOdd_productFlips_xor_left (a b c : Blade) :
    isOdd ((a ^^^ b).productFlips c) = (isOdd (a.productFlips c) ^^ isOdd (b.productFlips c)) :=
  isOdd_eq_xor (swapSign_xor_left (R := ℤ) a b c)

theorem isOdd_productFlips_xor_right (a b c : Blade) :
    isOdd (a.productFlips (b ^^^ c)) = (isOdd (a.productFlips b) ^^ isOdd (a.productFlips c)) :=
  isOdd_eq_xor (swapSign_xor_right (R := ℤ) a b c)

/-- **Transpositions are inversions.** The transpositions that sort the vectors of `a` followed by
those of `b` are the pairs of a vector of `a` and a lower vector of `b`, which are the inversions of
the two ascending lists of positions one behind the other. A sweep with counters of 32 bits ends
with this count, without overflow. The parity is additive under symmetric difference in both blades.
And to reverse a blade takes as many transpositions as to sort it followed by itself, and as many as
its reversed list of positions has inversions. -/
theorem productFlips_counts_inversions (a b c : Blade) :
    {p : Nat × Nat | a.getLsbD p.1 = true ∧ b.getLsbD p.2 = true ∧ p.2 < p.1}.encard =
      a.productFlips b ∧
    inversions (a.positions ++ b.positions) = a.productFlips b ∧
    SweepsTo maskLowest (countFlips? a b) (a ||| b) (0, 0) (a ||| b).grade
      (some (.ofNat 32 (a.productFlips b), .ofNat 32 b.grade)) ∧
    a.productFlips b < 2 ^ 32 ∧
    isOdd ((a ^^^ b).productFlips c) = (isOdd (a.productFlips c) ^^ isOdd (b.productFlips c)) ∧
    isOdd (a.productFlips (b ^^^ c)) = (isOdd (a.productFlips b) ^^ isOdd (a.productFlips c)) ∧
    a.reverseFlips = a.productFlips a ∧
    inversions a.positions.reverse = a.productFlips a := by
  have hflips := productFlips_le a b
  exact ⟨encard_eq_productFlips a b, inversions_positions_append a b, sweepsTo_productFlips a b,
    by omega, isOdd_productFlips_xor_left a b c, isOdd_productFlips_xor_right a b c,
    reverseFlips_eq_productFlips a, inversions_positions_reverse a⟩

end Blade

end Clifford
