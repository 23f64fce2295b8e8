import Clifford.Proofs.ProductTree.Value

/-!
# Merged leaves

Merging leaves one node with at most one leaf for each blade, none of them zero. Such leaves are
left alone when they are merged again, and their totals are the leaves themselves.

## Main definitions

- `Leaf.Merged` — one leaf for each blade, none of them zero
- `Branches.Optimized` — every node is merged, and has a leaf or a branch below it
- `Branches.Bearing` — every node has a leaf or is above one

## Main results

- `Branches.optimize_optimized`, `Branches.optimize_of_optimized` — optimizing reaches that form
  and then changes nothing
- `Branches.Optimized.bearing` — no node is left without a leaf in its part of the tree
- `Leaf.totals_perm` — the totals of merged leaves are the leaves
-/

namespace Clifford

variable {K S : Type}

namespace Leaf

/-- The blades of leaves. -/
def blades (leaves : List (Leaf K)) : List Blade := leaves.map Leaf.blade

@[simp] theorem blades_cons (leaf : Leaf K) (rest : List (Leaf K)) :
    blades (leaf :: rest) = leaf.blade :: blades rest := rfl

theorem mem_blades {leaves : List (Leaf K)} {blade : Blade} :
    blade ∈ blades leaves ↔ ∃ leaf ∈ leaves, leaf.blade = blade := List.mem_map

variable [Number K]

/-- One leaf for each blade, and none that is zero. -/
structure Merged (leaves : List (Leaf K)) : Prop where
  /-- No blade has two leaves. -/
  nodup : (blades leaves).Nodup
  /-- No leaf is zero. -/
  nonzero : ∀ leaf ∈ leaves, Number.isZero leaf.coefficient = false

/-! ### Adding leaves up -/

theorem addTo_of_notMem {leaf : Leaf K} {leaves : List (Leaf K)}
    (h : leaf.blade ∉ blades leaves) : leaf.addTo leaves = leaves ++ [leaf] := by
  induction leaves with
  | nil => rfl
  | cons other rest ih =>
    rw [blades_cons, List.mem_cons, not_or] at h
    rw [addTo, if_neg (Ne.symm h.1), ih h.2, List.cons_append]

theorem blades_addTo_of_mem {leaf : Leaf K} {leaves : List (Leaf K)}
    (h : leaf.blade ∈ blades leaves) : blades (leaf.addTo leaves) = blades leaves := by
  induction leaves with
  | nil => simp [blades] at h
  | cons other rest ih =>
    rw [addTo]
    split
    · rfl
    · rename_i hne
      have hrest : leaf.blade ∈ blades rest :=
        (List.mem_cons.1 h).resolve_left fun heq => hne heq.symm
      rw [blades_cons, ih hrest, blades_cons]

/-- Adding a leaf up adds no other blade than its own. -/
theorem mem_blades_addTo {leaf : Leaf K} {leaves : List (Leaf K)} {blade : Blade}
    (h : blade ∈ blades (leaf.addTo leaves)) : blade = leaf.blade ∨ blade ∈ blades leaves := by
  by_cases hmem : leaf.blade ∈ blades leaves
  · rw [blades_addTo_of_mem hmem] at h
    exact .inr h
  · rw [addTo_of_notMem hmem, blades, List.map_append, List.mem_append] at h
    exact h.symm.imp_left List.mem_singleton.1

theorem mem_blades_foldl_addTo {leaves merged : List (Leaf K)} {blade : Blade}
    (h : blade ∈ blades (leaves.foldl (fun merged leaf => leaf.addTo merged) merged)) :
    blade ∈ blades leaves ∨ blade ∈ blades merged := by
  induction leaves generalizing merged with
  | nil => exact .inr h
  | cons leaf rest ih =>
    rw [blades_cons, List.mem_cons]
    obtain hrest | hmerged := ih h
    · exact .inl (.inr hrest)
    · exact (mem_blades_addTo hmerged).imp_left .inl

/-- Merging adds no blade. -/
theorem mem_blades_merge {leaves : Array (Leaf K)} {blade : Blade}
    (h : blade ∈ blades (merge leaves).toList) : blade ∈ blades leaves.toList := by
  rw [merge, Array.toList_filter, ← Array.foldl_toList] at h
  have hsum := (List.filter_sublist.map Leaf.blade).subset h
  exact (mem_blades_foldl_addTo hsum).resolve_right List.not_mem_nil

theorem nodup_addTo (leaf : Leaf K) {leaves : List (Leaf K)} (h : (blades leaves).Nodup) :
    (blades (leaf.addTo leaves)).Nodup := by
  by_cases hmem : leaf.blade ∈ blades leaves
  · rwa [blades_addTo_of_mem hmem]
  · rw [addTo_of_notMem hmem, blades, List.map_append]
    refine h.append (List.nodup_singleton _) ?_
    simpa using hmem

theorem nodup_foldl_addTo (leaves : List (Leaf K)) {merged : List (Leaf K)}
    (h : (blades merged).Nodup) :
    (blades (leaves.foldl (fun merged leaf => leaf.addTo merged) merged)).Nodup := by
  induction leaves generalizing merged with
  | nil => exact h
  | cons leaf rest ih => exact ih (nodup_addTo leaf h)

theorem foldl_addTo_of_nodup {front rest : List (Leaf K)} (h : (blades (front ++ rest)).Nodup) :
    rest.foldl (fun merged leaf => leaf.addTo merged) front = front ++ rest := by
  induction rest generalizing front with
  | nil => simp
  | cons leaf rest ih =>
    have hnew : leaf.blade ∉ blades front := by
      rw [blades, List.map_append, List.nodup_append] at h
      exact fun hmem => h.2.2 _ hmem _ List.mem_cons_self rfl
    rw [List.foldl_cons, addTo_of_notMem hnew, ih] <;> simp_all

/-- Merging leaves at most one leaf for each blade, and none that is zero. -/
theorem merge_merged (leaves : Array (Leaf K)) : Merged (merge leaves).toList := by
  rw [merge, Array.toList_filter, List.toList_toArray, ← Array.foldl_toList]
  constructor
  · have hsum : (blades (leaves.toList.foldl (fun merged leaf => leaf.addTo merged) [])).Nodup :=
      nodup_foldl_addTo _ List.nodup_nil
    exact hsum.sublist (List.filter_sublist.map Leaf.blade)
  · intro leaf hleaf
    simpa using (List.mem_filter.1 hleaf).2

/-- Merged leaves are left alone. -/
theorem merge_of_merged {leaves : Array (Leaf K)} (h : Merged leaves.toList) :
    merge leaves = leaves := by
  have hsum : leaves.toList.foldl (fun merged leaf => leaf.addTo merged) [] = leaves.toList :=
    foldl_addTo_of_nodup h.nodup
  apply Array.toList_inj.1
  rw [merge, Array.toList_filter, List.toList_toArray, ← Array.foldl_toList, hsum,
    List.filter_eq_self]
  intro leaf hleaf
  simp [h.nonzero leaf hleaf]

/-! ### Totals -/

theorem accumulate_of_notMem {leaf : Leaf K} {sums : List (Blade × K)}
    (h : leaf.blade ∉ sums.map Prod.fst) :
    leaf.accumulate sums = sums ++ [(leaf.blade, 0 + leaf.coefficient)] := by
  induction sums with
  | nil => rfl
  | cons first rest ih =>
    rw [List.map_cons, List.mem_cons, not_or] at h
    rw [accumulate, if_neg (Ne.symm h.1), ih h.2, List.cons_append]

theorem foldl_accumulate_of_nodup {leaves : List (Leaf K)} {sums : List (Blade × K)}
    (h : (sums.map Prod.fst ++ blades leaves).Nodup) :
    leaves.foldl (fun sums leaf => leaf.accumulate sums) sums =
      sums ++ leaves.map fun leaf => (leaf.blade, 0 + leaf.coefficient) := by
  induction leaves generalizing sums with
  | nil => simp
  | cons leaf rest ih =>
    have hnew : leaf.blade ∉ sums.map Prod.fst := by
      rw [List.nodup_append] at h
      exact fun hmem => h.2.2 _ hmem _ List.mem_cons_self rfl
    rw [List.foldl_cons, accumulate_of_notMem hnew, ih] <;> simp_all

variable [ExactNumber K]

/-- The totals of leaves with different blades are the leaves. -/
theorem totals_perm {leaves : Array (Leaf K)} (h : (blades leaves.toList).Nodup) :
    (totals leaves).Perm (leaves.toList.map fun leaf => (leaf.blade, leaf.coefficient)) := by
  have hsums : leaves.toList.foldl (fun sums leaf => leaf.accumulate sums) [] =
      leaves.toList.map fun leaf => (leaf.blade, leaf.coefficient) := by
    simpa using @foldl_accumulate_of_nodup K _ leaves.toList [] h
  rw [totals, ← Array.foldl_toList, hsums]
  exact List.mergeSort_perm _ _

theorem values_apply_of_notMem (x : K) {leaves : List (Leaf K)} {blade : Blade}
    (h : blade ∉ blades leaves) : values x leaves blade = 0 := by
  induction leaves with
  | nil => rfl
  | cons other rest ih =>
    rw [blades_cons, List.mem_cons, not_or] at h
    rw [values_cons, Pi.add_apply, Values.single_of_ne _ (Ne.symm h.1), ih h.2, add_zero]

/-- What leaves with different blades contribute to the blade of one of them is that leaf. -/
theorem values_apply_of_mem {leaves : List (Leaf K)} (h : (blades leaves).Nodup) {leaf : Leaf K}
    (hleaf : leaf ∈ leaves) : values 1 leaves leaf.blade = leaf.coefficient := by
  induction leaves with
  | nil => cases hleaf
  | cons other rest ih =>
    obtain ⟨hother, hrest⟩ := List.nodup_cons.1 h
    rw [values_cons, Pi.add_apply, mul_one]
    obtain rfl | hleaf := List.mem_cons.1 hleaf
    · rw [Values.single_self, values_apply_of_notMem 1 hother, add_zero]
    · have hne : other.blade ≠ leaf.blade := fun heq =>
        hother (mem_blades.2 ⟨leaf, hleaf, heq.symm⟩)
      rw [Values.single_of_ne _ hne, ih hrest hleaf, zero_add]

end Leaf

namespace Branches

variable {branches : Branches K S}

/-- Every node has a leaf or is above one. -/
def Bearing : Branches K S → Prop
  | nil => True
  | cons _ leaves below beside =>
    0 < leaves.size + below.leafCount ∧ below.Bearing ∧ beside.Bearing

theorem Bearing.leafCount_pos (h : branches.Bearing) (hbranches : branches.isEmpty = false) :
    0 < branches.leafCount := by
  cases branches with
  | nil => cases hbranches
  | cons symbol leaves below beside =>
    have hhere := h.1
    simp only [leafCount]
    omega

variable [Number K]

/-- Every node is merged, and has a leaf or a branch below it. -/
def Optimized : Branches K S → Prop
  | nil => True
  | cons _ leaves below beside =>
    Leaf.Merged leaves.toList ∧ (leaves.isEmpty && below.isEmpty) = false ∧ below.Optimized ∧
      beside.Optimized

theorem optimize_optimized (branches : Branches K S) : branches.optimize.Optimized := by
  induction branches with
  | nil => trivial
  | cons symbol leaves below beside ihbelow ihbeside =>
    rw [optimize]
    split
    · exact ihbeside
    · rename_i hkept
      exact ⟨Leaf.merge_merged leaves, Bool.eq_false_iff.2 hkept, ihbelow, ihbeside⟩

theorem optimize_of_optimized (h : branches.Optimized) : branches.optimize = branches := by
  induction branches with
  | nil => rfl
  | cons symbol leaves below beside ihbelow ihbeside =>
    obtain ⟨hleaves, hkept, hbelow, hbeside⟩ := h
    rw [optimize, Leaf.merge_of_merged hleaves, ihbelow hbelow, ihbeside hbeside]
    simp [hkept]

theorem Optimized.bearing (h : branches.Optimized) : branches.Bearing := by
  induction branches with
  | nil => trivial
  | cons symbol leaves below beside ihbelow ihbeside =>
    obtain ⟨-, hkept, hbelow, hbeside⟩ := h
    refine ⟨?_, ihbelow hbelow, ihbeside hbeside⟩
    rw [Bool.and_eq_false_iff] at hkept
    obtain hleaves | hbranches := hkept
    · have hsize : leaves.size ≠ 0 := by simpa using hleaves
      omega
    · have hcount := (ihbelow hbelow).leafCount_pos hbranches
      omega

end Branches

namespace ProductTree

/-- Optimizing a tree a second time changes nothing. -/
theorem optimize_optimize [Number K] (tree : ProductTree K S) :
    tree.optimize.optimize = tree.optimize := by
  have hleaves : Leaf.merge (Leaf.merge tree.leaves) = Leaf.merge tree.leaves :=
    Leaf.merge_of_merged (Leaf.merge_merged tree.leaves)
  have hbranches : tree.branches.optimize.optimize = tree.branches.optimize :=
    Branches.optimize_of_optimized (Branches.optimize_optimized tree.branches)
  rw [optimize, optimize, hleaves, hbranches]

end ProductTree

end Clifford
