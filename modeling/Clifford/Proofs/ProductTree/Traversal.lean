import Clifford.Proofs.ProductTree.Nodes

/-!
# Traversals of trees of products

What a visitor of a tree is called for, as a list. A traversal with any visitor is this list carried
out in order, where each call gets what the visitor has made of the path before it. The leaves
in the list are those of the nodes, and it extends to the path of every node below the root once.

## Main definitions

- `Visit` — one call of a visitor
- `ProductTree.visits` — the calls that a traversal makes
- `Visit.replay` — the calls carried out, with the product that each path has been extended to

## Main results

- `ProductTree.traverse_eq_replay` — a traversal carries out its calls
- `ProductTree.entries_visits`, `ProductTree.extensions_visits` — what the calls are
-/

namespace Clifford

variable {K S : Type}

/-- One call of a visitor of a tree. -/
inductive Visit (K S : Type) where
  /-- The product of a path is multiplied by one more symbol. -/
  | descend (path : List S) (symbol : S)
  /-- A leaf at the end of a path is received. -/
  | receive (path : List S) (leaf : Leaf K)
  deriving DecidableEq, Repr

namespace Visit

/-- The path that a call extends to. -/
def extension? : Visit K S → Option (List S)
  | descend path symbol => some (path ++ [symbol])
  | receive _ _ => none

/-- The path, blade and coefficient of the leaf that a call receives. -/
def entry? : Visit K S → Option ((List S × Blade) × K)
  | descend _ _ => none
  | receive path leaf => some ((path, leaf.blade), leaf.coefficient)

section

variable {m : Type → Type} [Monad m] {R : Type} [DecidableEq S]

/-- Carries out calls in order. The map `running` holds what the visitor has made of each path so
far: a call gets the value of its path, and what an extension returns is kept for the longer
path. -/
def replay (extend : R → S → m R) (visit : R → Leaf K → m Unit) :
    List (Visit K S) → (List S → R) → m (List S → R)
  | [], running => pure running
  | descend path symbol :: rest, running => do
    let next ← extend (running path) symbol
    replay extend visit rest (Function.update running (path ++ [symbol]) next)
  | receive path leaf :: rest, running => do
    visit (running path) leaf
    replay extend visit rest running

variable [LawfulMonad m] {extend : R → S → m R} {visit : R → Leaf K → m Unit}

theorem replay_append (front rest : List (Visit K S)) (running : List S → R) :
    replay extend visit (front ++ rest) running =
      replay extend visit front running >>= replay extend visit rest := by
  induction front generalizing running with
  | nil => simp [replay]
  | cons call front ih => cases call <;> simp [replay, ih]

theorem replay_receive (path : List S) (leaves : List (Leaf K)) (running : List S → R) :
    replay extend visit (leaves.map (receive path)) running =
      leaves.forM (visit (running path)) >>= fun _ => pure running := by
  induction leaves with
  | nil => simp [replay]
  | cons first rest ih =>
    simp only [List.map_cons, replay, ih, List.forM_eq_forM, List.forM_cons, bind_assoc]

/-- Calls that do not extend to a path leave its value alone. -/
theorem replay_frame {calls : List (Visit K S)} {path : List S}
    (h : path ∉ calls.filterMap extension?) (running : List S → R) :
    replay extend visit calls running =
      (fun after => Function.update after path (running path)) <$>
        replay extend visit calls running := by
  induction calls generalizing running with
  | nil => simp [replay]
  | cons call rest ih =>
    cases call with
    | descend start symbol =>
      have hcalls : (descend start symbol :: rest).filterMap (extension? (K := K)) =
          (start ++ [symbol]) :: rest.filterMap extension? := rfl
      rw [hcalls, List.mem_cons, not_or] at h
      simp only [replay, map_bind]
      congr 1
      funext next
      rw [ih h.2, Function.update_of_ne h.1]
      simp
    | receive start leaf =>
      simp only [replay, map_bind]
      congr 1
      funext _
      exact ih h running

end

end Visit

/-! ### The calls of a traversal -/

namespace Branches

/-- The calls for branches below a path. -/
def visits (path : List S) : Branches K S → List (Visit K S)
  | nil => []
  | cons symbol leaves below beside =>
    .descend path symbol ::
      (leaves.toList.map (.receive (path ++ [symbol])) ++ below.visits (path ++ [symbol]) ++
        beside.visits path)

/-- The calls extend to the paths of the nodes, in their order. -/
theorem extensions_visits (path : List S) (branches : Branches K S) :
    (branches.visits path).filterMap Visit.extension? =
      (branches.nodes path).map Prod.fst := by
  induction branches generalizing path with
  | nil => rfl
  | cons symbol leaves below beside ihbelow ihbeside =>
    have hleaves : (leaves.toList.map (Visit.receive (path ++ [symbol]))).filterMap
        Visit.extension? = [] := by
      simp [List.filterMap_map, Visit.extension?, Function.comp_def]
    rw [visits, nodes, List.filterMap_cons_some (by rfl), List.filterMap_append,
      List.filterMap_append, hleaves, ihbelow, ihbeside, List.map_cons, List.map_append,
      List.nil_append]

end Branches

/-- The leaves of nodes, with their paths. -/
def entries (nodes : List (List S × List (Leaf K))) : List ((List S × Blade) × K) :=
  nodes.flatMap fun node => node.2.map fun leaf => ((node.1, leaf.blade), leaf.coefficient)

namespace Branches

theorem filterMap_entry?_receive (path : List S) (leaves : List (Leaf K)) :
    (leaves.map (Visit.receive path)).filterMap Visit.entry? =
      leaves.map fun leaf => ((path, leaf.blade), leaf.coefficient) := by
  rw [List.filterMap_map, ← List.filterMap_eq_map]
  rfl

/-- The calls receive the leaves of the nodes, in their order. -/
theorem entries_visits (path : List S) (branches : Branches K S) :
    (branches.visits path).filterMap Visit.entry? = entries (branches.nodes path) := by
  induction branches generalizing path with
  | nil => rfl
  | cons symbol leaves below beside ihbelow ihbeside =>
    rw [visits, nodes, List.filterMap_cons_none (by rfl), List.filterMap_append,
      List.filterMap_append, filterMap_entry?_receive, ihbelow, ihbeside, entries, entries,
      entries, List.flatMap_cons, List.flatMap_append, List.append_assoc]

variable {m : Type → Type} [Monad m] [LawfulMonad m] {R : Type} [DecidableEq S]

/-- A traversal of branches carries out their calls. -/
theorem traverse_eq_replay (extend : R → S → m R) (visit : R → Leaf K → m Unit) (path : List S)
    (branches : Branches K S) (running : List S → R) :
    branches.traverse extend visit (running path) =
      (Visit.replay extend visit (branches.visits path) running >>= fun _ => pure ()) := by
  induction branches generalizing path running with
  | nil => simp [traverse, visits, Visit.replay]
  | cons symbol leaves below beside ihbelow ihbeside =>
    -- The value of the path itself survives the calls below the node.
    have hframe : path ∉ (below.visits (path ++ [symbol])).filterMap Visit.extension? := by
      rw [extensions_visits]
      intro hmem
      obtain ⟨node, hnode, heq⟩ := List.mem_map.1 hmem
      obtain ⟨next, -, hbegins⟩ := exists_prefix_of_mem_nodes hnode
      have hlength := hbegins.length_le
      rw [heq] at hlength
      simp at hlength
    have hne : path ≠ path ++ [symbol] := by simp
    rw [traverse, visits, Visit.replay, bind_assoc]
    congr 1
    funext next
    -- What the visitor has made of all paths when it comes to the leaves of the node.
    obtain ⟨inner, hinner⟩ : ∃ inner, inner = Function.update running (path ++ [symbol]) next :=
      ⟨_, rfl⟩
    have hhere : inner (path ++ [symbol]) = next := by rw [hinner, Function.update_self]
    have houter : inner path = running path := by rw [hinner, Function.update_of_ne hne]
    have hbeside : (Visit.replay extend visit (below.visits (path ++ [symbol])) inner >>=
          fun after => beside.traverse extend visit (after path)) =
        Visit.replay extend visit (below.visits (path ++ [symbol])) inner >>=
          fun _ => beside.traverse extend visit (running path) := by
      rw [Visit.replay_frame hframe, houter]
      simp only [bind_map_left, Function.update_self]
    rw [← hinner, Visit.replay_append, Visit.replay_append, Visit.replay_receive, hhere, ← hhere,
      ihbelow (path ++ [symbol]) inner]
    simp only [bind_assoc, pure_bind, ← ihbeside]
    rw [hbeside]

end Branches

namespace ProductTree

/-- The calls that a traversal of a tree makes. -/
def visits (tree : ProductTree K S) : List (Visit K S) :=
  tree.leaves.toList.map (.receive []) ++ tree.branches.visits []

theorem extensions_visits (tree : ProductTree K S) :
    tree.visits.filterMap Visit.extension? = (tree.branches.nodes []).map Prod.fst := by
  have hroot : (tree.leaves.toList.map (Visit.receive [])).filterMap
      (Visit.extension? (S := S)) = [] := by
    simp [List.filterMap_map, Visit.extension?, Function.comp_def]
  rw [visits, List.filterMap_append, hroot, Branches.extensions_visits, List.nil_append]

theorem entries_visits (tree : ProductTree K S) :
    tree.visits.filterMap Visit.entry? = entries tree.nodes := by
  rw [visits, List.filterMap_append, Branches.filterMap_entry?_receive, Branches.entries_visits,
    entries, entries, nodes, List.flatMap_cons]

/-- A traversal with any visitor carries out the calls of the tree, starting from a product for the
empty path. What `running` has for other paths does not matter: they are extended to before they
are used. -/
theorem traverse_eq_replay {m : Type → Type} [Monad m] [LawfulMonad m] {R : Type} [DecidableEq S]
    (extend : R → S → m R) (visit : R → Leaf K → m Unit) (tree : ProductTree K S)
    (running : List S → R) :
    tree.traverse extend visit (running []) =
      (Visit.replay extend visit tree.visits running >>= fun _ => pure ()) := by
  rw [traverse, visits, Visit.replay_append, Visit.replay_receive,
    Branches.traverse_eq_replay extend visit [] tree.branches running]
  simp only [bind_assoc, pure_bind]

end ProductTree

end Clifford
