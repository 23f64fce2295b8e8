import Clifford.Metric
import Clifford.Proofs.Blade.Sweeps

/-!
# The squares of a blade's vectors

The squares that a product picks up are collected in one loop over the vectors that two blades have
in common, which is left as soon as one of them is null. Which of the vectors that is does not
matter: the loop gives nothing exactly if one of the listed vectors is null, and else the entries of
the metric at the listed positions, without the literal ones.

## Main definitions

- `Metric.collect?` — one round of the loop over the vectors

## Main results

- `Metric.factorsAt?_eq` — the squares at some positions, without the loop
- `Metric.loops_enumerate_bits` — the loops over a blade end, and enumerate exactly its bits
-/

namespace Clifford.Metric

open Blade (SweepsTo meetPredecessor clearsLowest_meetPredecessor countVector listVector)

variable {K S : Type} [Number K]

/-- One round of the loop that collects the squares of a blade's vectors. It ends the loop at a
literal zero, and passes over literal ones and over vectors outside the metric. -/
def collect? (metric : Metric K S) (squares : Term K S) (i : Nat) : Option (Term K S) :=
  match metric[i]? with
  | none => some squares
  | some square =>
    if square.isZero then none
    else if square.isOne then some squares
    else some (squares ++ [square])

theorem foldlM_collect? (metric : Metric K S) (l : List Nat) (squares : Term K S) :
    l.foldlM metric.collect? squares = (metric.factorsAt? l).map (squares ++ ·) := by
  induction l generalizing squares with
  | nil => simp [factorsAt?]
  | cons i rest ih =>
    rw [List.foldlM_cons, collect?, factorsAt?]
    cases metric[i]? with
    | none => exact ih squares
    | some square =>
      dsimp only
      by_cases hzero : square.isZero = true
      · rw [if_pos hzero, if_pos hzero]
        rfl
      rw [if_neg hzero, if_neg hzero]
      by_cases hone : square.isOne = true
      · rw [if_pos hone, if_pos hone]
        exact ih squares
      have happend : (squares ++ ·) ∘ (square :: ·) = ((squares ++ [square]) ++ ·) := by
        funext others
        simp
      rw [if_neg hone, if_neg hone, Option.map_map, happend]
      exact ih (squares ++ [square])

/-- **The squares at some positions, without the loop**: nothing if one of the entries of the metric
there is the literal zero, and else these entries without the literal ones. -/
theorem factorsAt?_eq (metric : Metric K S) (l : List Nat) :
    metric.factorsAt? l =
      if (l.filterMap (metric[·]?)).any Factor.isZero then none
      else some ((l.filterMap (metric[·]?)).filter fun square => !square.isOne) := by
  induction l with
  | nil => rfl
  | cons i rest ih =>
    rw [factorsAt?]
    cases hget : metric[i]? with
    | none => rw [List.filterMap_cons_none hget, ih]
    | some square =>
      rw [List.filterMap_cons_some hget, List.any_cons]
      by_cases hzero : square.isZero = true
      · simp only [hzero, if_true, Bool.true_or]
      simp only [hzero, Bool.false_or, ih]
      -- Whether the rest vanishes is not changed by a square that does not.
      by_cases hrest : (rest.filterMap (metric[·]?)).any Factor.isZero = true
      · simp only [hrest, if_true, Option.map_none, ite_self]
      cases hone : square.isOne <;> simp [hrest, hone]

theorem factorsAt?_eq_none_iff {metric : Metric K S} {l : List Nat} :
    metric.factorsAt? l = none ↔
      ∃ i ∈ l, ∃ square, metric[i]? = some square ∧ square.isZero = true := by
  rw [factorsAt?_eq, ite_eq_left_iff]
  simp only [reduceCtorEq, imp_false, not_not, List.any_eq_true, List.mem_filterMap]
  constructor
  · rintro ⟨square, ⟨i, hi, hget⟩, hzero⟩
    exact ⟨i, hi, square, hget, hzero⟩
  · rintro ⟨i, hi, square, hget, hzero⟩
    exact ⟨square, ⟨i, hi, hget⟩, hzero⟩

theorem eq_of_factorsAt?_eq_some {metric : Metric K S} {l : List Nat} {squares : Term K S}
    (h : metric.factorsAt? l = some squares) :
    squares = (l.filterMap (metric[·]?)).filter fun square => !square.isOne := by
  rw [factorsAt?_eq] at h
  split at h
  · cases h
  · exact (Option.some.inj h).symm

theorem exists_sweepsTo_factors? (metric : Metric K S) (b : Blade) :
    ∃ n ≤ b.grade, SweepsTo meetPredecessor metric.collect? b [] n (metric.factors? b) := by
  obtain ⟨n, hn, hrun⟩ := Blade.exists_sweep clearsLowest_meetPredecessor metric.collect? b []
  have hfold : b.positions.foldlM metric.collect? [] = metric.factors? b := by
    rw [foldlM_collect?, factors?]
    simp
  rw [hfold] at hrun
  exact ⟨n, hn, hrun.sweepsTo⟩

/-- **The loops over a blade end, and enumerate exactly its bits.** The loops that count and list
the vectors of a blade, or visit them in any other way, take as many rounds as it has vectors; the
loop that collects their squares takes at most as many. What is listed ascends and is what is set;
its length is counted. The squares are missing if one of the listed vectors, as far as the metric
has them, squares to the literal zero, and else they are the entries of the metric at the listed
positions, in this order and without the literal ones. -/
theorem loops_enumerate_bits (metric : Metric K S) (b : Blade) :
    SweepsTo meetPredecessor (fun count i => some (countVector count i)) b 0 b.grade
      (some b.grade) ∧
    SweepsTo meetPredecessor (fun listed i => some (listVector listed i)) b [] b.grade
      (some b.positions) ∧
    (∀ (σ : Type) (visit : σ → Nat → σ) (s : σ),
      SweepsTo meetPredecessor (fun s i => some (visit s i)) b s b.grade
        (some (b.positions.foldl visit s))) ∧
    (∃ n ≤ b.grade, SweepsTo meetPredecessor metric.collect? b [] n (metric.factors? b)) ∧
    b.positions.Pairwise (· < ·) ∧ (∀ i, i ∈ b.positions ↔ b.getLsbD i = true) ∧
    b.grade = b.positions.length ∧
    (metric.factors? b = none ↔
      ∃ i ∈ b.positions, ∃ square, metric[i]? = some square ∧ square.isZero = true) ∧
    ∀ squares, metric.factors? b = some squares →
      squares = (b.positions.filterMap (metric[·]?)).filter fun square => !square.isOne := by
  refine ⟨b.sweepsTo_countVector, b.sweepsTo_listVector, fun σ visit s => ?_,
    metric.exists_sweepsTo_factors? b, b.pairwise_positions, fun i => Blade.mem_positions,
    b.grade_eq_length, factorsAt?_eq_none_iff, fun squares => eq_of_factorsAt?_eq_some⟩
  exact Blade.sweepsTo_visit clearsLowest_meetPredecessor visit b s

end Clifford.Metric
