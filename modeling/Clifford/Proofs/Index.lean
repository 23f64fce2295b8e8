import Mathlib.Data.List.Induction
import Mathlib.Data.List.Nodup
import Std.Data.HashMap.Lemmas

/-!
# Lists with an index

A list without repetitions may be kept together with an index from its elements to their positions:
then an element is found without a scan. An element that is added comes last, at the position that
is the length of the list so far.

A list that grows by the elements that it does not hold yet lists what was offered to it in the
order of first occurrences.

## Main definitions

- `Indexes` — an index maps just the elements of a list to their positions

## Main results

- `Indexes.insert` — adding a new element keeps an index exact
- `Indexes.exists_of_nodup` — every list without repetitions has an index
- `eraseDups_append_of_subset` — what is offered again changes nothing
-/

namespace Clifford

variable {κ : Type} [BEq κ]

/-! ### First occurrences -/

section

variable [LawfulBEq κ]

theorem eraseDups_of_nodup {l : List κ} (h : l.Nodup) : l.eraseDups = l := by
  induction l with
  | nil => rfl
  | cons a rest ih =>
    obtain ⟨ha, hrest⟩ := List.nodup_cons.1 h
    have hfilter : rest.filter (fun b => !b == a) = rest := by
      refine List.filter_eq_self.2 fun b hb => ?_
      have hne : b ≠ a := fun hba => ha (hba ▸ hb)
      simpa using hne
    rw [List.eraseDups_cons, hfilter, ih hrest]

/-- Only elements that are not there yet are added. -/
theorem eraseDups_append_of_subset {xs ys : List κ} (h : ∀ y ∈ ys, y ∈ xs) (zs : List κ) :
    (xs ++ (ys ++ zs)).eraseDups = (xs ++ zs).eraseDups := by
  have hnone : ys.removeAll xs = [] := List.filter_eq_nil_iff.2 fun y hy => by simp [h y hy]
  have hrest : (ys ++ zs).removeAll xs = zs.removeAll xs := by
    rw [List.removeAll, List.filter_append]
    change ys.removeAll xs ++ zs.removeAll xs = _
    rw [hnone, List.nil_append]
  rw [List.eraseDups_append, hrest, ← List.eraseDups_append]

theorem eraseDups_append_singleton_of_mem {xs : List κ} {x : κ} (h : x ∈ xs) :
    (xs ++ [x]).eraseDups = xs.eraseDups := by
  have hone : (xs ++ ([x] ++ [])).eraseDups = (xs ++ []).eraseDups :=
    eraseDups_append_of_subset (fun y hy => List.mem_singleton.1 hy ▸ h) []
  rwa [List.append_nil, List.append_nil] at hone

theorem eraseDups_append_singleton_of_notMem {xs : List κ} {x : κ} (h : x ∉ xs) :
    (xs ++ [x]).eraseDups = xs.eraseDups ++ [x] := by
  have hkept : [x].removeAll xs = [x] := List.filter_eq_self.2 fun y hy => by
    simpa [List.mem_singleton.1 hy] using h
  rw [List.eraseDups_append, hkept, eraseDups_of_nodup (List.nodup_singleton x)]

theorem nodup_eraseDups (xs : List κ) : xs.eraseDups.Nodup := by
  induction xs using List.reverseRecOn with
  | nil => exact List.nodup_nil
  | append_singleton xs x ih =>
    by_cases hx : x ∈ xs
    · rwa [eraseDups_append_singleton_of_mem hx]
    · rw [eraseDups_append_singleton_of_notMem hx]
      exact ih.append (List.nodup_singleton x) (by simpa using hx)

end

/-! ### Indices -/

variable [Hashable κ]

/-- An index maps just the elements of a list to their positions. -/
def Indexes (index : Std.HashMap κ Nat) (l : List κ) : Prop :=
  ∀ (x : κ) (i : Nat), index[x]? = some i ↔ l[i]? = some x

namespace Indexes

variable {index : Std.HashMap κ Nat} {l : List κ}

theorem empty : Indexes (∅ : Std.HashMap κ Nat) [] := by simp [Indexes]

/-- No element has two positions. -/
theorem nodup (h : Indexes index l) : l.Nodup := by
  refine List.nodup_iff_getElem?_ne_getElem?.2 fun i j hij hj heq => ?_
  rw [List.getElem?_eq_getElem hj] at heq
  have hi := (h _ i).2 heq
  rw [(h _ j).2 (List.getElem?_eq_getElem hj)] at hi
  exact absurd (Option.some.inj hi) (by omega)

theorem getElem?_eq_none {x : κ} (h : Indexes index l) : index[x]? = none ↔ x ∉ l := by
  rw [List.mem_iff_getElem?, Option.eq_none_iff_forall_ne_some]
  simp only [ne_eq, h x, not_exists]

/-- A new element comes last. -/
theorem insert [LawfulBEq κ] {x : κ} (h : Indexes index l) (hx : x ∉ l) :
    Indexes (index.insert x l.length) (l ++ [x]) := by
  intro y i
  rw [Std.HashMap.getElem?_insert]
  by_cases hxy : x = y
  · subst hxy
    rw [if_pos (by simp), List.getElem?_append]
    split
    · rename_i hi
      have hne : l[i]? ≠ some x := fun heq => hx (List.mem_of_getElem? heq)
      simp only [Option.some.injEq, hne, iff_false]
      omega
    · simp [List.getElem?_singleton]
      omega
  · rw [if_neg (by simpa using hxy), h y i, List.getElem?_append]
    split
    · rfl
    · rename_i hi
      rw [List.getElem?_eq_none (by omega), List.getElem?_singleton]
      split
      · simp [hxy]
      · rfl

/-- Every list without repetitions has an index. -/
theorem exists_of_nodup [LawfulBEq κ] {l : List κ} (h : l.Nodup) :
    ∃ index : Std.HashMap κ Nat, Indexes index l := by
  induction l using List.reverseRecOn with
  | nil => exact ⟨∅, empty⟩
  | append_singleton l x ih =>
    rw [List.nodup_append_comm, List.singleton_append, List.nodup_cons] at h
    obtain ⟨index, hindex⟩ := ih h.2
    exact ⟨_, hindex.insert h.1⟩

end Indexes

end Clifford
