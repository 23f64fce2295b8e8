import Clifford.Proofs.ProductTree.Merging

/-!
# Nodes of trees of products

The nodes of a tree in the order in which they are visited, each with its path and its leaves.
Siblings stand in ascending order, so the paths of the nodes ascend lexicographically and no two
nodes share one. What a path collects is the sum of the leaves at its node: recording a leaf adds
it at its path, and optimizing changes no sum.

## Main definitions

- `ProductTree.nodes` — the paths and leaves of all nodes, in the order of a visit
- `Branches.Ascending` — siblings stand in strictly ascending order
- `Path.Before` — the lexicographic order of paths
- `ProductTree.valuesAt` — what the leaves at the end of a path add up to

## Main results

- `Branches.nodes_pairwise` — the paths of the nodes ascend
- `Branches.Bearing.exists_leaf`, `Branches.mem_nodes_of_prefix` — the paths of nodes are the
  beginnings of paths with a leaf
- `ProductTree.valuesAt_add`, `ProductTree.valuesAt_optimize` — how the sums change
-/

namespace Clifford

variable {K S : Type}

namespace Branches

/-- The symbols of the children of a node. -/
def symbols : Branches K S → List S
  | nil => []
  | cons symbol _ _ beside => symbol :: beside.symbols

theorem symbols_path (leaf : Leaf K) (symbol : S) (rest : List S) (beside : Branches K S) :
    (path leaf symbol rest beside).symbols = symbol :: beside.symbols := by
  cases rest <;> rfl

theorem mem_symbols_insert [Ord S] (leaf : Leaf K) {symbol : S} {rest : List S}
    {branches : Branches K S} {other : S} (h : other ∈ (insert leaf symbol rest branches).symbols) :
    other = symbol ∨ other ∈ branches.symbols := by
  induction branches generalizing rest with
  | nil =>
    rw [insert.eq_def, symbols_path] at h
    exact List.mem_cons.1 h
  | cons first leaves below beside ihbelow ihbeside =>
    rw [insert.eq_def] at h
    dsimp only at h
    split at h
    · rw [symbols_path] at h
      exact List.mem_cons.1 h
    · obtain rfl | h := List.mem_cons.1 h
      · exact .inr List.mem_cons_self
      · exact (ihbeside h).imp_right (List.mem_cons_of_mem _)
    · cases rest <;> exact .inr h

theorem mem_symbols_optimize [Number K] {branches : Branches K S} {symbol : S}
    (h : symbol ∈ branches.optimize.symbols) : symbol ∈ branches.symbols := by
  induction branches with
  | nil => exact h
  | cons other leaves below beside ihbelow ihbeside =>
    rw [optimize] at h
    split at h
    · exact List.mem_cons_of_mem _ (ihbeside h)
    · obtain rfl | h := List.mem_cons.1 h
      · exact List.mem_cons_self
      · exact List.mem_cons_of_mem _ (ihbeside h)

/-- The nodes of branches below a path, each with its own path and its leaves. -/
def nodes (path : List S) : Branches K S → List (List S × List (Leaf K))
  | nil => []
  | cons symbol leaves below beside =>
    (path ++ [symbol], leaves.toList) ::
      (below.nodes (path ++ [symbol]) ++ beside.nodes path)

/-- The path of a node below a path goes on with one of the symbols of the branches. -/
theorem exists_prefix_of_mem_nodes {path : List S} {branches : Branches K S}
    {node : List S × List (Leaf K)} (h : node ∈ branches.nodes path) :
    ∃ symbol ∈ branches.symbols, path ++ [symbol] <+: node.1 := by
  induction branches generalizing path with
  | nil => cases h
  | cons symbol leaves below beside ihbelow ihbeside =>
    rw [nodes, List.mem_cons, List.mem_append] at h
    obtain rfl | hbelow | hbeside := h
    · exact ⟨symbol, List.mem_cons_self, List.prefix_rfl⟩
    · obtain ⟨next, -, hnext⟩ := ihbelow hbelow
      exact ⟨symbol, List.mem_cons_self, (List.prefix_append _ [next]).trans hnext⟩
    · obtain ⟨next, hmem, hnext⟩ := ihbeside hbeside
      exact ⟨next, List.mem_cons_of_mem _ hmem, hnext⟩

theorem exists_leaf_of_leafCount_pos (path : List S) {branches : Branches K S}
    (h : 0 < branches.leafCount) : ∃ node ∈ branches.nodes path, node.2 ≠ [] := by
  induction branches generalizing path with
  | nil => simp [leafCount] at h
  | cons symbol leaves below beside ihbelow ihbeside =>
    rw [leafCount] at h
    by_cases hleaves : leaves.toList = []
    · by_cases hbelow : 0 < below.leafCount
      · obtain ⟨node, hnode, hne⟩ := ihbelow (path ++ [symbol]) hbelow
        exact ⟨node, List.mem_cons_of_mem _ (List.mem_append_left _ hnode), hne⟩
      · have hsize : leaves.size = 0 := by simpa using hleaves
        obtain ⟨node, hnode, hne⟩ := ihbeside path (by omega)
        exact ⟨node, List.mem_cons_of_mem _ (List.mem_append_right _ hnode), hne⟩
    · exact ⟨_, List.mem_cons_self, hleaves⟩

/-- Below the path of every node of bearing branches there is a leaf. -/
theorem Bearing.exists_leaf {path : List S} {branches : Branches K S} (h : branches.Bearing)
    {node : List S × List (Leaf K)} (hnode : node ∈ branches.nodes path) :
    ∃ last ∈ branches.nodes path, node.1 <+: last.1 ∧ last.2 ≠ [] := by
  induction branches generalizing path with
  | nil => cases hnode
  | cons symbol leaves below beside ihbelow ihbeside =>
    obtain ⟨hhere, hbelow, hbeside⟩ := h
    rw [nodes, List.mem_cons, List.mem_append] at hnode
    obtain rfl | hnode | hnode := hnode
    · by_cases hleaves : leaves.toList = []
      · have hsize : leaves.size = 0 := by simpa using hleaves
        have hcount : 0 < below.leafCount := by omega
        obtain ⟨last, hlast, hne⟩ := exists_leaf_of_leafCount_pos (path ++ [symbol]) hcount
        obtain ⟨next, -, hbegins⟩ := exists_prefix_of_mem_nodes hlast
        exact ⟨last, List.mem_cons_of_mem _ (List.mem_append_left _ hlast),
          (List.prefix_append _ [next]).trans hbegins, hne⟩
      · exact ⟨_, List.mem_cons_self, List.prefix_rfl, hleaves⟩
    · obtain ⟨last, hlast, hbegins⟩ := ihbelow hbelow hnode
      exact ⟨last, List.mem_cons_of_mem _ (List.mem_append_left _ hlast), hbegins⟩
    · obtain ⟨last, hlast, hbegins⟩ := ihbeside hbeside hnode
      exact ⟨last, List.mem_cons_of_mem _ (List.mem_append_right _ hlast), hbegins⟩

/-- The beginnings of the path of a node are paths of nodes. -/
theorem mem_nodes_of_prefix {path beginning : List S} {branches : Branches K S}
    {node : List S × List (Leaf K)} (hnode : node ∈ branches.nodes path)
    (hbegins : beginning <+: node.1) (hlength : path.length < beginning.length) :
    beginning ∈ (branches.nodes path).map Prod.fst := by
  induction branches generalizing path with
  | nil => cases hnode
  | cons symbol leaves below beside ihbelow ihbeside =>
    rw [nodes, List.mem_cons, List.mem_append] at hnode
    rw [nodes, List.map_cons, List.map_append, List.mem_cons, List.mem_append]
    -- A beginning that is one symbol longer than `path` is the path of this branch.
    have hhere : path ++ [symbol] <+: node.1 → beginning.length ≤ path.length + 1 →
        beginning = path ++ [symbol] := by
      intro hnext hle
      refine (List.prefix_of_prefix_length_le hbegins hnext (by simpa using hle)).eq_of_length ?_
      simp
      omega
    obtain rfl | hnode | hnode := hnode
    · exact .inl (hhere List.prefix_rfl (by simpa using hbegins.length_le))
    · by_cases hle : beginning.length ≤ path.length + 1
      · obtain ⟨next, -, hnext⟩ := exists_prefix_of_mem_nodes hnode
        exact .inl (hhere ((List.prefix_append _ [next]).trans hnext) hle)
      · exact .inr (.inl (ihbelow hnode (by simpa using hle)))
    · exact .inr (.inr (ihbeside hnode hlength))

end Branches

/-- The nodes of a tree, each with its path and its leaves, the root first. -/
def ProductTree.nodes (tree : ProductTree K S) : List (List S × List (Leaf K)) :=
  ([], tree.leaves.toList) :: tree.branches.nodes []

/-! ### Order -/

section

variable [Ord S]

/-- One path comes before another in the lexicographic order. -/
def Path.Before : List S → List S → Prop := List.Lex fun s t => compare s t = .lt

theorem Path.before_of_prefix {path other : List S} {symbol : S}
    (h : path ++ [symbol] <+: other) : Path.Before path other := by
  obtain ⟨rest, rfl⟩ := h
  have hlonger : Path.Before (path ++ []) (path ++ symbol :: rest) :=
    List.Lex.append_left _ List.Lex.nil path
  simpa using hlonger

theorem Path.before_of_lt {path p q : List S} {s t : S} (hlt : compare s t = .lt)
    (hp : path ++ [s] <+: p) (hq : path ++ [t] <+: q) : Path.Before p q := by
  obtain ⟨p', rfl⟩ := hp
  obtain ⟨q', rfl⟩ := hq
  rw [List.append_assoc, List.append_assoc]
  have hrest : Path.Before ([s] ++ p') ([t] ++ q') := List.Lex.rel hlt
  exact List.Lex.append_left _ hrest path

theorem Path.Before.ne [Std.ReflOrd S] {p q : List S} (h : Path.Before p q) : p ≠ q := by
  refine List.Lex.to_ne (List.Lex.imp (fun s t hlt heq => ?_) p q h)
  subst heq
  rw [Std.ReflOrd.compare_self] at hlt
  cases hlt

namespace Branches

/-- Siblings stand in strictly ascending order. -/
def Ascending : Branches K S → Prop
  | nil => True
  | cons symbol _ below beside =>
    (∀ other ∈ beside.symbols, compare symbol other = .lt) ∧ below.Ascending ∧ beside.Ascending

theorem nodes_pairwise (path : List S) {branches : Branches K S} (h : branches.Ascending) :
    (branches.nodes path).Pairwise fun m n => Path.Before m.1 n.1 := by
  induction branches generalizing path with
  | nil => exact List.Pairwise.nil
  | cons symbol leaves below beside ihbelow ihbeside =>
    obtain ⟨hbefore, hbelow, hbeside⟩ := h
    -- Nodes beside this one continue the path with a later symbol.
    have hacross : ∀ p, path ++ [symbol] <+: p →
        ∀ n ∈ beside.nodes path, Path.Before p n.1 := by
      intro p hp n hn
      obtain ⟨other, hother, hbegins⟩ := exists_prefix_of_mem_nodes hn
      exact Path.before_of_lt (hbefore other hother) hp hbegins
    rw [nodes, List.pairwise_cons, List.pairwise_append]
    refine ⟨?_, ihbelow _ hbelow, ihbeside _ hbeside, ?_⟩
    · intro n hn
      obtain hn | hn := List.mem_append.1 hn
      · obtain ⟨next, -, hbegins⟩ := exists_prefix_of_mem_nodes hn
        exact Path.before_of_prefix hbegins
      · exact hacross _ List.prefix_rfl n hn
    · intro m hm n hn
      obtain ⟨next, -, hbegins⟩ := exists_prefix_of_mem_nodes hm
      exact hacross _ ((List.prefix_append _ [next]).trans hbegins) n hn

theorem ascending_path (leaf : Leaf K) {symbol : S} (rest : List S) {beside : Branches K S}
    (hbefore : ∀ other ∈ beside.symbols, compare symbol other = .lt) (h : beside.Ascending) :
    (path leaf symbol rest beside).Ascending := by
  induction rest generalizing symbol beside with
  | nil => exact ⟨hbefore, trivial, h⟩
  | cons next rest ih => exact ⟨hbefore, ih (by simp [symbols]) trivial, h⟩

theorem ascending_optimize [Number K] {branches : Branches K S} (h : branches.Ascending) :
    branches.optimize.Ascending := by
  induction branches with
  | nil => trivial
  | cons symbol leaves below beside ihbelow ihbeside =>
    obtain ⟨hbefore, hbelow, hbeside⟩ := h
    rw [optimize]
    split
    · exact ihbeside hbeside
    · exact ⟨fun other hother => hbefore other (mem_symbols_optimize hother), ihbelow hbelow,
        ihbeside hbeside⟩

variable [Std.TransOrd S]

theorem ascending_insert (leaf : Leaf K) {symbol : S} {rest : List S} {branches : Branches K S}
    (h : branches.Ascending) : (insert leaf symbol rest branches).Ascending := by
  induction branches generalizing symbol rest with
  | nil => exact ascending_path leaf rest (by simp [symbols]) trivial
  | cons first leaves below beside ihbelow ihbeside =>
    obtain ⟨hbefore, hbelow, hbeside⟩ := h
    rw [insert.eq_def]
    dsimp only
    split
    · -- The path comes before the first branch, so before all of them.
      rename_i hlt
      refine ascending_path leaf rest (fun other hother => ?_) ⟨hbefore, hbelow, hbeside⟩
      obtain rfl | hother := List.mem_cons.1 hother
      · exact hlt
      · exact Std.TransCmp.lt_trans hlt (hbefore other hother)
    · -- It comes after the first branch.
      rename_i hgt
      refine ⟨fun other hother => ?_, hbelow, ihbeside hbeside⟩
      obtain rfl | hother := mem_symbols_insert leaf hother
      · exact Std.OrientedCmp.lt_of_gt hgt
      · exact hbefore other hother
    · -- It shares its first symbol with the first branch.
      cases rest with
      | nil => exact ⟨hbefore, hbelow, hbeside⟩
      | cons next rest => exact ⟨hbefore, ihbelow hbelow, hbeside⟩

end Branches

namespace ProductTree

variable {tree : ProductTree K S}

/-- The nodes of a tree whose branches ascend follow one another by their paths. -/
theorem nodes_pairwise (h : tree.branches.Ascending) :
    tree.nodes.Pairwise fun m n => Path.Before m.1 n.1 := by
  refine List.pairwise_cons.2 ⟨fun node hnode => ?_, Branches.nodes_pairwise [] h⟩
  obtain ⟨symbol, -, hbegins⟩ := Branches.exists_prefix_of_mem_nodes hnode
  exact Path.before_of_prefix hbegins

theorem nodup_paths [Std.ReflOrd S] (h : tree.branches.Ascending) :
    (tree.nodes.map Prod.fst).Nodup :=
  List.pairwise_map.2 ((nodes_pairwise h).imp Path.Before.ne)

end ProductTree

end

/-! ### Sums -/

section

variable [Number K] [ExactNumber K] [DecidableEq S]

/-- What the leaves of the nodes with a path add up to. -/
def nodeValues (path : List S) (nodes : List (List S × List (Leaf K))) : Values K :=
  (nodes.map fun node => if node.1 = path then Leaf.values 1 node.2 else 0).sum

/-- What the leaves of a tree at a path add up to. -/
def ProductTree.valuesAt (tree : ProductTree K S) (path : List S) : Values K :=
  nodeValues path tree.nodes

theorem nodeValues_cons (path : List S) (node : List S × List (Leaf K))
    (rest : List (List S × List (Leaf K))) :
    nodeValues path (node :: rest) =
      (if node.1 = path then Leaf.values 1 node.2 else 0) + nodeValues path rest := by
  rw [nodeValues, List.map_cons, List.sum_cons, nodeValues]

theorem nodeValues_append (path : List S) (front rest : List (List S × List (Leaf K))) :
    nodeValues path (front ++ rest) = nodeValues path front + nodeValues path rest := by
  rw [nodeValues, List.map_append, List.sum_append, nodeValues, nodeValues]

theorem nodeValues_eq_zero {path : List S} {nodes : List (List S × List (Leaf K))}
    (h : path ∉ nodes.map Prod.fst) : nodeValues path nodes = 0 := by
  induction nodes with
  | nil => rfl
  | cons node rest ih =>
    rw [List.map_cons, List.mem_cons, not_or] at h
    rw [nodeValues_cons, if_neg (Ne.symm h.1), ih h.2, add_zero]

/-- Where no two nodes share a path, the sum at the path of a node is that of its leaves. -/
theorem nodeValues_of_mem {nodes : List (List S × List (Leaf K))}
    (hnodup : (nodes.map Prod.fst).Nodup) {node : List S × List (Leaf K)} (h : node ∈ nodes) :
    nodeValues node.1 nodes = Leaf.values 1 node.2 := by
  induction nodes with
  | nil => cases h
  | cons first rest ih =>
    obtain ⟨hfirst, hrest⟩ := List.nodup_cons.1 hnodup
    rw [nodeValues_cons]
    obtain rfl | h := List.mem_cons.1 h
    · rw [if_pos rfl, nodeValues_eq_zero hfirst, add_zero]
    · have hne : first.1 ≠ node.1 := fun heq => hfirst (heq ▸ List.mem_map_of_mem h)
      rw [if_neg hne, ih hrest h, zero_add]

/-- A path with a sum other than zero has a node. -/
theorem mem_of_nodeValues_ne {path : List S} {nodes : List (List S × List (Leaf K))}
    {blade : Blade} (h : nodeValues path nodes blade ≠ 0) : path ∈ nodes.map Prod.fst := by
  by_contra hnot
  rw [nodeValues_eq_zero hnot] at h
  exact h rfl

namespace Branches

theorem nodeValues_path (whole : List S) (leaf : Leaf K) (before : List S) (symbol : S)
    (rest : List S) (beside : Branches K S) :
    nodeValues whole ((path leaf symbol rest beside).nodes before) =
      nodeValues whole (beside.nodes before) +
        if before ++ symbol :: rest = whole then Values.single leaf.blade leaf.coefficient
          else 0 := by
  induction rest generalizing before symbol beside with
  | nil =>
    rw [path, nodes, nodeValues_cons, nodes, List.nil_append, add_comm]
    simp
  | cons next rest ih =>
    rw [path, nodes, nodeValues_cons, nodeValues_append, ih, nodes, add_comm]
    have hpath : before ++ [symbol] ++ next :: rest = before ++ symbol :: next :: rest := by simp
    rw [hpath]
    simp [nodeValues]
    abel

theorem nodeValues_insert [Ord S] [Std.LawfulEqOrd S] (whole : List S) (leaf : Leaf K)
    (before : List S) (symbol : S) (rest : List S) (branches : Branches K S) :
    nodeValues whole ((insert leaf symbol rest branches).nodes before) =
      nodeValues whole (branches.nodes before) +
        if before ++ symbol :: rest = whole then Values.single leaf.blade leaf.coefficient
          else 0 := by
  induction branches generalizing before symbol rest with
  | nil => rw [insert.eq_def, nodeValues_path]
  | cons other leaves below beside ihbelow ihbeside =>
    rw [insert.eq_def]
    dsimp only
    split
    · rw [nodeValues_path]
    · simp only [nodes, nodeValues_cons, nodeValues_append, ihbeside, add_assoc]
    · -- The path ends at the first branch, where the leaf is added, or goes on below it.
      rename_i heq
      obtain rfl : symbol = other := Std.LawfulEqOrd.eq_of_compare heq
      cases rest with
      | nil =>
        simp only [nodes, nodeValues_cons, nodeValues_append, Array.toList_push,
          Leaf.values_append, Leaf.values_cons, Leaf.values_nil, mul_one, add_zero]
        split <;> abel
      | cons next rest =>
        have hpath : before ++ [symbol] ++ next :: rest = before ++ symbol :: next :: rest := by
          simp
        simp only [nodes, nodeValues_cons, nodeValues_append, ihbelow, hpath]
        abel

theorem nodeValues_optimize (whole : List S) (before : List S) (branches : Branches K S) :
    nodeValues whole (branches.optimize.nodes before) =
      nodeValues whole (branches.nodes before) := by
  induction branches generalizing before with
  | nil => rfl
  | cons symbol leaves below beside ihbelow ihbeside =>
    have hmerge := Leaf.values_merge 1 leaves
    rw [optimize, nodes, nodeValues_cons, nodeValues_append, ← ihbelow, ← ihbeside, ← hmerge]
    split
    · -- A node that is cut off has neither leaves nor branches left, so nothing is lost.
      rename_i hempty
      rw [Bool.and_eq_true] at hempty
      have hleaves : (Leaf.merge leaves).toList = [] := by
        simpa [Array.isEmpty_iff] using hempty.1
      rw [hleaves, isEmpty_iff.1 hempty.2, nodes]
      simp [nodeValues]
    · rw [nodes, nodeValues_cons, nodeValues_append]

end Branches

namespace ProductTree

variable {tree : ProductTree K S}

theorem valuesAt_optimize (tree : ProductTree K S) (path : List S) :
    tree.optimize.valuesAt path = tree.valuesAt path := by
  simp only [valuesAt, nodes, nodeValues_cons, optimize, Leaf.values_merge,
    Branches.nodeValues_optimize]

variable [Ord S] [Std.LawfulEqOrd S]

theorem valuesAt_insert (tree : ProductTree K S) (path : List S) (leaf : Leaf K)
    (whole : List S) :
    (tree.insert path leaf).valuesAt whole =
      tree.valuesAt whole +
        if path = whole then Values.single leaf.blade leaf.coefficient else 0 := by
  cases path with
  | nil =>
    simp only [insert, valuesAt, nodes, nodeValues_cons, Array.toList_push, Leaf.values_append,
      Leaf.values_cons, Leaf.values_nil, mul_one, add_zero]
    split <;> abel
  | cons symbol rest =>
    simp only [insert, valuesAt, nodes, nodeValues_cons, Branches.nodeValues_insert,
      List.nil_append, add_assoc]

/-- Recording a term adds the signed product of its numbers at its path and blade. -/
theorem valuesAt_add (tree : ProductTree K S) (blade : Blade) (term : Term K S) (flips : Nat)
    (path : List S) :
    (tree.add blade term flips).valuesAt path =
      tree.valuesAt path +
        if term.hasZero = false ∧ pathOf term = path then
          Values.single blade ((-1) ^ flips * (term.filterMap Factor.number?).prod) else 0 := by
  rw [add]
  split
  · rename_i hzero
    simp [hzero]
  · rename_i hzero
    rw [valuesAt_insert, coefficient_eq]
    simp only [hzero, true_and]
    rfl

end ProductTree

end

end Clifford
