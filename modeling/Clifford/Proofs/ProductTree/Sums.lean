import Clifford.Proofs.Expression.Arena
import Clifford.Proofs.Number.Rational
import Clifford.Proofs.ProductTree.Traversal

/-!
# What a tree of products collects

A tree is filled by recording terms and may be optimized in between, as often as one likes. Once it
has been optimized last, its sums are those of the recorded terms, path by path and blade by blade,
without the sums that come to zero; and a traversal visits exactly these.

## Main definitions

- `TreeCall` — recording a term, or optimizing
- `ProductTree.build` — the tree that calls leave
- `ProductTree.total` — what the recorded terms add up to at a path and a blade

## Main results

- `ProductTree.Optimized.mem_sums_iff` — the sums of an optimized tree
- `ProductTree.pathOf_eq_iff` — the path of a term is its symbols in ascending order
- `ProductTree.build_optimized` — nothing is lost and nothing is duplicated
-/

namespace Clifford

variable {K S : Type}

/-! ### Entries -/

theorem mem_entries {nodes : List (List S × List (Leaf K))} {path : List S} {blade : Blade}
    {x : K} : ((path, blade), x) ∈ entries nodes ↔
      ∃ node ∈ nodes, node.1 = path ∧
        ∃ leaf ∈ node.2, leaf.blade = blade ∧ leaf.coefficient = x := by
  simp [entries, Prod.ext_iff, and_assoc]

/-- Entries follow one another by their paths if the nodes do. -/
theorem entries_pairwise [Ord S] {nodes : List (List S × List (Leaf K))}
    (h : nodes.Pairwise fun m n => Path.Before m.1 n.1) :
    (entries nodes).Pairwise fun a b => a.1.1 = b.1.1 ∨ Path.Before a.1.1 b.1.1 := by
  rw [entries, List.pairwise_flatMap]
  constructor
  · intro node _
    rw [List.pairwise_map]
    exact List.pairwise_of_forall fun _ _ => .inl rfl
  · refine h.imp fun {m n} hmn a ha b hb => ?_
    obtain ⟨_, _, rfl⟩ := List.mem_map.1 ha
    obtain ⟨_, _, rfl⟩ := List.mem_map.1 hb
    exact .inr hmn

/-- No path and blade has two entries if no path has two nodes and no node two leaves for one
blade. -/
theorem nodup_entries {nodes : List (List S × List (Leaf K))} (h : (nodes.map Prod.fst).Nodup)
    (hblades : ∀ node ∈ nodes, (Leaf.blades node.2).Nodup) :
    ((entries nodes).map Prod.fst).Nodup := by
  rw [entries, List.map_flatMap, List.nodup_flatMap]
  constructor
  · intro node hnode
    have hkeys : (Leaf.blades node.2).map (Prod.mk node.1) =
        (node.2.map fun leaf => ((node.1, leaf.blade), leaf.coefficient)).map Prod.fst := by
      simp [Leaf.blades]
    rw [← hkeys]
    exact (hblades node hnode).map fun _ _ heq => (Prod.mk.inj heq).2
  · refine (List.pairwise_map.1 h).imp fun {m n} hne => ?_
    intro key hm hn
    simp only [List.mem_map, exists_exists_and_eq_and] at hm hn
    obtain ⟨_, _, rfl⟩ := hm
    obtain ⟨_, _, heq⟩ := hn
    exact hne (Prod.mk.inj heq).1.symm

/-! ### Optimized trees -/

section

variable [Number K]

/-- Every node of a tree is merged, and every node below the root has a leaf or a branch below
it. -/
structure ProductTree.Optimized (tree : ProductTree K S) : Prop where
  /-- The leaves of the root. -/
  leaves : Leaf.Merged tree.leaves.toList
  /-- The other nodes. -/
  branches : tree.branches.Optimized

theorem Branches.Optimized.merged {branches : Branches K S} (h : branches.Optimized)
    {path : List S} {node : List S × List (Leaf K)} (hnode : node ∈ branches.nodes path) :
    Leaf.Merged node.2 := by
  induction branches generalizing path with
  | nil => cases hnode
  | cons symbol leaves below beside ihbelow ihbeside =>
    obtain ⟨hleaves, -, hbelow, hbeside⟩ := h
    rw [nodes, List.mem_cons, List.mem_append] at hnode
    obtain rfl | hnode | hnode := hnode
    · exact hleaves
    · exact ihbelow hbelow hnode
    · exact ihbeside hbeside hnode

namespace ProductTree

variable {tree : ProductTree K S}

theorem optimize_optimized (tree : ProductTree K S) : tree.optimize.Optimized :=
  ⟨Leaf.merge_merged tree.leaves, Branches.optimize_optimized tree.branches⟩

theorem Optimized.merged (h : tree.Optimized) {node : List S × List (Leaf K)}
    (hnode : node ∈ tree.nodes) : Leaf.Merged node.2 := by
  obtain rfl | hnode := List.mem_cons.1 hnode
  · exact h.leaves
  · exact h.branches.merged hnode

end ProductTree

variable [ExactNumber K]

theorem Branches.sums_perm {branches : Branches K S} (h : branches.Optimized) (path : List S) :
    (branches.sums path).Perm (entries (branches.nodes path)) := by
  induction branches generalizing path with
  | nil => exact List.Perm.refl _
  | cons symbol leaves below beside ihbelow ihbeside =>
    obtain ⟨hleaves, -, hbelow, hbeside⟩ := h
    have hhere := (Leaf.totals_perm hleaves.nodup).map fun entry =>
      ((path ++ [symbol], entry.1), entry.2)
    rw [List.map_map] at hhere
    rw [sums, nodes, entries, List.flatMap_cons, List.flatMap_append, ← List.append_assoc]
    exact (hhere.append (ihbelow hbelow _)).append (ihbeside hbeside path)

namespace ProductTree

variable {tree : ProductTree K S}

/-- The sums of an optimized tree are its leaves. -/
theorem Optimized.sums_perm (h : tree.Optimized) : tree.sums.Perm (entries tree.nodes) := by
  have hroot := (Leaf.totals_perm h.leaves.nodup).map fun entry =>
    ((([] : List S), entry.1), entry.2)
  rw [List.map_map] at hroot
  rw [sums, nodes, entries, List.flatMap_cons]
  exact hroot.append (Branches.sums_perm h.branches [])

/-- The paths that a traversal of an optimized tree extends to are the beginnings of the paths of
its sums. -/
theorem Optimized.mem_extensions_iff {tree : ProductTree K S} (h : tree.Optimized)
    {path : List S} :
    path ∈ tree.visits.filterMap Visit.extension? ↔
      path ≠ [] ∧ ∃ entry ∈ tree.sums, path <+: entry.1.1 := by
  rw [extensions_visits]
  constructor
  · intro hpath
    obtain ⟨node, hnode, rfl⟩ := List.mem_map.1 hpath
    obtain ⟨symbol, -, hsymbol⟩ := Branches.exists_prefix_of_mem_nodes hnode
    obtain ⟨last, hlast, hbegins, hleaves⟩ := h.branches.bearing.exists_leaf hnode
    obtain ⟨leaf, hleaf⟩ := List.exists_mem_of_ne_nil _ hleaves
    refine ⟨fun heq => ?_, ((last.1, leaf.blade), leaf.coefficient), ?_, hbegins⟩
    · rw [heq] at hsymbol
      exact absurd hsymbol.length_le (by simp)
    · rw [h.sums_perm.mem_iff]
      exact mem_entries.2 ⟨last, List.mem_cons_of_mem _ hlast, rfl, leaf, hleaf, rfl, rfl⟩
  · rintro ⟨hne, ⟨⟨whole, blade⟩, x⟩, hentry, hbegins⟩
    rw [h.sums_perm.mem_iff, mem_entries] at hentry
    obtain ⟨node, hnode, rfl, -⟩ := hentry
    obtain rfl | hnode := List.mem_cons.1 hnode
    · exact absurd (List.prefix_nil.1 hbegins) hne
    · exact Branches.mem_nodes_of_prefix hnode hbegins (List.length_pos_iff.2 hne)

variable [Ord S] [Std.TransOrd S] [DecidableEq S]

/-- An optimized tree has an entry for a path and a blade just if the leaves there do not add up
to zero, and the entry is their sum. -/
theorem Optimized.mem_sums_iff (h : tree.Optimized) (hasc : tree.branches.Ascending)
    {path : List S} {blade : Blade} {x : K} :
    ((path, blade), x) ∈ tree.sums ↔ x = tree.valuesAt path blade ∧ x ≠ 0 := by
  rw [h.sums_perm.mem_iff, mem_entries]
  constructor
  · rintro ⟨node, hnode, rfl, leaf, hleaf, rfl, rfl⟩
    have hmerged := h.merged hnode
    have hzero := hmerged.nonzero leaf hleaf
    refine ⟨?_, fun heq => ?_⟩
    · rw [valuesAt, nodeValues_of_mem (nodup_paths hasc) hnode,
        Leaf.values_apply_of_mem hmerged.nodup hleaf]
    · rw [Number.isZero_iff.2 heq] at hzero
      cases hzero
  · -- A sum other than zero has a node, which is the only one, and there a leaf of the blade.
    rintro ⟨rfl, hne⟩
    obtain ⟨node, hnode, rfl⟩ := List.mem_map.1 (mem_of_nodeValues_ne hne)
    rw [valuesAt, nodeValues_of_mem (nodup_paths hasc) hnode] at hne ⊢
    have hmem : blade ∈ Leaf.blades node.2 := by
      by_contra hnot
      exact hne (Leaf.values_apply_of_notMem 1 hnot)
    obtain ⟨leaf, hleaf, rfl⟩ := Leaf.mem_blades.1 hmem
    exact ⟨node, hnode, rfl, leaf, hleaf, rfl,
      (Leaf.values_apply_of_mem (h.merged hnode).nodup hleaf).symm⟩

end ProductTree

end

/-! ### Histories -/

/-- A call that changes a tree. -/
inductive TreeCall (K S : Type) where
  /-- A signed term is recorded for a blade. -/
  | add (blade : Blade) (term : Term K S) (flips : Nat)
  /-- The tree is optimized. -/
  | optimize
  deriving DecidableEq, Repr

/-- The path of a term has the symbols of the term in ascending order, and no other path has. -/
theorem ProductTree.pathOf_eq_iff [Ord S] [Std.TransOrd S] [Std.LawfulEqOrd S] {term : Term K S}
    {path : List S} :
    pathOf term = path ↔ (term.filterMap Factor.symbol?).Perm path ∧
      path.Pairwise fun s t => (compare s t).isLE := by
  have hperm : (pathOf term).Perm (term.filterMap Factor.symbol?) := List.mergeSort_perm _ _
  have hsorted : (pathOf term).Pairwise fun s t => (compare s t).isLE := by
    refine List.pairwise_mergeSort (fun s t u => Std.TransCmp.isLE_trans) (fun s t => ?_) _
    rw [Std.OrientedOrd.eq_swap (a := t)]
    cases compare s t <;> rfl
  constructor
  · rintro rfl
    exact ⟨hperm.symm, hsorted⟩
  · rintro ⟨hpath, hascending⟩
    refine List.Perm.eq_of_pairwise (fun s t _ _ hle hge => ?_) hsorted hascending
      (hperm.trans hpath)
    exact Std.LawfulEqOrd.eq_of_compare (Std.OrientedCmp.isLE_antisymm hle hge)

section

variable [Number K] [Ord S]

/-- Carries out a call. -/
def TreeCall.perform (tree : ProductTree K S) : TreeCall K S → ProductTree K S
  | add blade term flips => tree.add blade term flips
  | optimize => tree.optimize

namespace ProductTree

/-- The tree that calls leave, starting from the empty one. -/
def build (calls : List (TreeCall K S)) : ProductTree K S := calls.foldl TreeCall.perform {}

theorem build_concat (calls : List (TreeCall K S)) (call : TreeCall K S) :
    build (calls ++ [call]) = call.perform (build calls) := by
  rw [build, List.foldl_append, List.foldl_cons, List.foldl_nil, build]

variable [Std.TransOrd S]

theorem ascending_perform {tree : ProductTree K S} (h : tree.branches.Ascending)
    (call : TreeCall K S) : (call.perform tree).branches.Ascending := by
  cases call with
  | optimize => exact Branches.ascending_optimize h
  | add blade term flips =>
    rw [TreeCall.perform, add]
    split
    · exact h
    · rw [insert.eq_def]
      split
      · exact h
      · exact Branches.ascending_insert _ h

theorem ascending_build (calls : List (TreeCall K S)) : (build calls).branches.Ascending := by
  induction calls using List.reverseRecOn with
  | nil => trivial
  | append_singleton calls call ih =>
    rw [build_concat]
    exact ascending_perform ih call

end ProductTree

variable [ExactNumber K] [DecidableEq S]

/-- What a call adds to the sum at a path and a blade: the signed product of the numbers of a term
without a literal zero whose symbols sort to the path, and nothing else. -/
def TreeCall.contribution (path : List S) (blade : Blade) : TreeCall K S → K
  | add target term flips =>
    if term.hasZero = false ∧ ProductTree.pathOf term = path ∧ target = blade then
      (-1) ^ flips * (term.filterMap Factor.number?).prod
    else 0
  | optimize => 0

namespace ProductTree

/-- What the recorded terms add up to at a path and a blade. -/
def total (calls : List (TreeCall K S)) (path : List S) (blade : Blade) : K :=
  (calls.map (TreeCall.contribution path blade)).sum

theorem total_concat (calls : List (TreeCall K S)) (call : TreeCall K S) (path : List S)
    (blade : Blade) :
    total (calls ++ [call]) path blade =
      total calls path blade + call.contribution path blade := by
  rw [total, List.map_append, List.sum_append, List.map_singleton, List.sum_singleton, total]

theorem valuesAt_perform [Std.LawfulEqOrd S] (tree : ProductTree K S) (call : TreeCall K S)
    (path : List S) (blade : Blade) :
    (call.perform tree).valuesAt path blade =
      tree.valuesAt path blade + call.contribution path blade := by
  cases call with
  | optimize => rw [TreeCall.perform, valuesAt_optimize, TreeCall.contribution, add_zero]
  | add target term flips =>
    rw [TreeCall.perform, valuesAt_add, Pi.add_apply, TreeCall.contribution]
    congr 1
    by_cases hpath : term.hasZero = false ∧ pathOf term = path
    · rw [if_pos hpath, Values.single]
      simp only [hpath, true_and]
    · rw [if_neg hpath, if_neg (fun h => hpath ⟨h.1, h.2.1⟩)]
      rfl

/-- The leaves at a path add up to what was recorded for it. -/
theorem valuesAt_build [Std.LawfulEqOrd S] (calls : List (TreeCall K S)) (path : List S)
    (blade : Blade) : (build calls).valuesAt path blade = total calls path blade := by
  induction calls using List.reverseRecOn with
  | nil => simp [build, total, valuesAt, nodes, nodeValues, Branches.nodes]
  | append_singleton calls call ih =>
    rw [build_concat, valuesAt_perform, ih, total_concat]

/-- **A tree of products loses and duplicates nothing.** Let terms be recorded and the tree be
optimized in any order, and at last. Then the sums have an entry for a path and a blade just if
the terms recorded there do not add up to zero, and the entry is their sum. Every node has at most
one leaf for a blade, every node below the root has a leaf in its part of the tree, and optimizing
again changes nothing. A traversal receives every entry once, by ascending paths, and extends to
every beginning of a path with an entry once; whatever the visitor does, each call gets what
the visitor has made of the path. -/
theorem build_optimized [Std.TransOrd S] [Std.LawfulEqOrd S] (calls : List (TreeCall K S))
    (tree : ProductTree K S) (htree : tree = build (calls ++ [.optimize])) :
    (∀ path blade x, ((path, blade), x) ∈ tree.sums ↔ x = total calls path blade ∧ x ≠ 0) ∧
    (tree.sums.map Prod.fst).Nodup ∧
    (∀ node ∈ tree.nodes, (Leaf.blades node.2).Nodup) ∧
    tree.branches.Bearing ∧
    tree.optimize = tree ∧
    (tree.visits.filterMap Visit.entry?).Perm tree.sums ∧
    ((tree.visits.filterMap Visit.entry?).Pairwise fun a b =>
      a.1.1 = b.1.1 ∨ Path.Before a.1.1 b.1.1) ∧
    (tree.visits.filterMap Visit.extension?).Nodup ∧
    (∀ path, path ∈ tree.visits.filterMap Visit.extension? ↔
      path ≠ [] ∧ ∃ entry ∈ tree.sums, path <+: entry.1.1) ∧
    ∀ (m : Type → Type) [Monad m] [LawfulMonad m] (R : Type) (extend : R → S → m R)
      (visit : R → Leaf K → m Unit) (running : List S → R),
      tree.traverse extend visit (running []) =
        (Visit.replay extend visit tree.visits running >>= fun _ => pure ()) := by
  have hbuild : tree = (build calls).optimize := by rw [htree, build_concat, TreeCall.perform]
  have hopt : tree.Optimized := hbuild ▸ optimize_optimized (build calls)
  have hasc : tree.branches.Ascending := htree ▸ ascending_build _
  have hblades : ∀ node ∈ tree.nodes, (Leaf.blades node.2).Nodup := fun node hnode =>
    (hopt.merged hnode).nodup
  have hentries := entries_visits tree
  refine ⟨fun path blade x => ?_, ?_, hblades, hopt.branches.bearing, ?_, ?_, ?_, ?_,
    fun path => hopt.mem_extensions_iff, ?_⟩
  · rw [hopt.mem_sums_iff hasc, hbuild, valuesAt_optimize, valuesAt_build]
  · exact (hopt.sums_perm.map Prod.fst).nodup_iff.2 (nodup_entries (nodup_paths hasc) hblades)
  · rw [hbuild, optimize_optimize]
  · rw [hentries]
    exact hopt.sums_perm.symm
  · rw [hentries]
    exact entries_pairwise (nodes_pairwise hasc)
  · rw [extensions_visits]
    exact (List.nodup_cons.1 (nodup_paths hasc)).2
  · intro m _ _ R extend visit running
    exact traverse_eq_replay extend visit tree running

/-- Twice a product is recorded, the tree is optimized, and the product is taken away once in
another order of its factors: once the product is left. -/
theorem build_optimized_once :
    (([⟨0⟩, ⟨1⟩], 1), 1) ∈ (build (K := ℚ) (S := Handle)
      ([.add 1 [.symbol ⟨1⟩, .number 2, .symbol ⟨0⟩] 0, .optimize,
        .add 1 [.symbol ⟨0⟩, .symbol ⟨1⟩] 1] ++ [.optimize])).sums := by
  have hfirst : pathOf (K := ℚ) [.symbol ⟨1⟩, .number 2, .symbol (⟨0⟩ : Handle)] = [⟨0⟩, ⟨1⟩] :=
    pathOf_eq_iff.2 (by decide)
  have hsecond : pathOf (K := ℚ) [.symbol ⟨0⟩, .symbol (⟨1⟩ : Handle)] = [⟨0⟩, ⟨1⟩] :=
    pathOf_eq_iff.2 (by decide)
  refine ((build_optimized _ _ rfl).1 _ _ _).2 ⟨?_, by decide⟩
  rw [total, List.map_cons, List.map_cons, List.map_cons, List.map_nil, TreeCall.contribution,
    TreeCall.contribution, TreeCall.contribution, hfirst, hsecond, if_pos (by decide),
    if_pos (by decide)]
  decide +kernel

end ProductTree

end

end Clifford
