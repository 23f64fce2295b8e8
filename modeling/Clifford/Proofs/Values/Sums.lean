import Mathlib.Algebra.BigOperators.Group.Finset.Basic
import Mathlib.Data.List.GetD

/-!
# Sums over lists

Sums over lists that are put together from others, or that leave out what adds nothing.

## Main results

- `sum_map_flatMap`, `sum_map_filterMap`, `sum_map_filter` — sums over derived lists
- `sum_map_zipIdx` — a sum over the elements of a list with their indices
-/

namespace Clifford

variable {α β X : Type*} [AddCommMonoid X]

theorem sum_map_flatMap (l : List α) (h : α → List β) (φ : β → X) :
    ((l.flatMap h).map φ).sum = (l.map fun a => ((h a).map φ).sum).sum := by
  induction l with
  | nil => rfl
  | cons a rest ih =>
    rw [List.flatMap_cons, List.map_append, List.sum_append, ih, List.map_cons, List.sum_cons]

theorem sum_map_filterMap (l : List α) (h : α → Option β) (φ : β → X) :
    ((l.filterMap h).map φ).sum = (l.map fun a => ((h a).map φ).getD 0).sum := by
  induction l with
  | nil => rfl
  | cons a rest ih =>
    rw [List.map_cons, List.sum_cons, ← ih]
    cases ha : h a with
    | none => rw [List.filterMap_cons_none ha, Option.map_none, Option.getD_none, zero_add]
    | some b =>
      rw [List.filterMap_cons_some ha, List.map_cons, List.sum_cons, Option.map_some,
        Option.getD_some]

theorem sum_map_filter (l : List α) (p : α → Bool) (φ : α → X) :
    ((l.filter p).map φ).sum = (l.map fun a => if p a then φ a else 0).sum := by
  induction l with
  | nil => rfl
  | cons a rest ih =>
    rw [List.map_cons, List.sum_cons, ← ih, List.filter_cons]
    cases p a with
    | true => rw [if_pos rfl, if_pos rfl, List.map_cons, List.sum_cons]
    | false => rw [if_neg Bool.false_ne_true, if_neg Bool.false_ne_true, zero_add]

theorem sum_map_zipIdx (l : List α) (d : α) (φ : α × Nat → X) :
    (l.zipIdx.map φ).sum = ∑ j ∈ Finset.range l.length, φ (l.getD j d, j) := by
  induction l using List.reverseRecOn with
  | nil => rfl
  | append_singleton front a ih =>
    rw [List.zipIdx_append, List.map_append, List.sum_append, ih, List.length_append,
      List.length_singleton, Finset.sum_range_succ]
    congr 1
    · refine Finset.sum_congr rfl fun j hj => ?_
      rw [List.getD_append _ _ _ _ (Finset.mem_range.1 hj)]
    · simp

end Clifford
