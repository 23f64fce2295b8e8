import Clifford.Expression.Tree
import Clifford.Proofs.Expression.Arena
import Clifford.Proofs.Expression.Value

/-!
# Values of trees

The value of an expression without sharing, where inputs and variables have given values. Only
those that occur in a tree matter, and the tree of a handle is kept by everything that is stored
later.

## Main definitions

- `Tree.value?` — the value of a tree, if all its leaves have values
- `Tree.reads`, `Tree.inputs` — the variables and the inputs that occur in a tree
- `Node.HasOperands` — no sum and no product of nothing

## Main results

- `Tree.value?_congr` — only the leaves of a tree matter
- `Arena.value?_treeOf` — the tree of a node has the value of the node
- `Arena.Canonical.tree_eq_of_extends` — trees are kept
- `Arena.exists_of_mem_leaves` — the leaves of a tree were stored
-/

namespace Clifford

namespace Tree

variable {K α : Type}

@[elab_as_elim, induction_eliminator]
theorem induction {motive : Tree K → Prop} (number : ∀ x, motive (.number x))
    (input : ∀ id, motive (.input id)) (read : ∀ id, motive (.read id))
    (sum : ∀ args, (∀ t ∈ args, motive t) → motive (.sum args))
    (product : ∀ args, (∀ t ∈ args, motive t) → motive (.product args))
    (negation : ∀ arg, motive arg → motive (.negation arg))
    (binary : ∀ op left right, motive left → motive right → motive (.binary op left right))
    (call : ∀ f args, (∀ t ∈ args, motive t) → motive (.call f args))
    (absent : motive .absent) (t : Tree K) : motive t :=
  @Tree.rec K motive (fun ts => ∀ t ∈ ts, motive t) number input read sum product negation binary
    call absent nofun (fun _ _ hfirst hrest => List.forall_mem_cons.2 ⟨hfirst, hrest⟩) t

/-! ### Leaves -/

mutual

/-- What is found at the inputs and at the variables of a tree, from left to right. -/
def leaves (ofInput ofRead : Nat → List α) : Tree K → List α
  | input id => ofInput id
  | read id => ofRead id
  | sum args | product args | call _ args => leavesAll ofInput ofRead args
  | negation arg => leaves ofInput ofRead arg
  | binary _ left right => leaves ofInput ofRead left ++ leaves ofInput ofRead right
  | number _ | absent => []

/-- What is found at the inputs and at the variables of several trees. -/
def leavesAll (ofInput ofRead : Nat → List α) : List (Tree K) → List α
  | [] => []
  | tree :: rest => leaves ofInput ofRead tree ++ leavesAll ofInput ofRead rest

end

/-- The variables that occur in a tree. -/
def reads (tree : Tree K) : List Nat := tree.leaves (fun _ => []) fun id => [id]

/-- The inputs that occur in a tree. -/
def inputs (tree : Tree K) : List Nat := tree.leaves (fun id => [id]) fun _ => []

variable {ofInput ofRead : Nat → List α}

theorem leavesAll_eq (trees : List (Tree K)) :
    leavesAll ofInput ofRead trees = trees.flatMap (leaves ofInput ofRead) := by
  induction trees with
  | nil => rfl
  | cons tree rest ih => rw [leavesAll, ih, List.flatMap_cons]

/-! ### Values -/

variable [Number K]

mutual

/-- The value of a tree, if all inputs and variables in it have values. -/
def value? (inputs reads : Nat → Option K) : Tree K → Option K
  | number x => some x
  | input id => inputs id
  | read id => reads id
  | sum args => do
    let xs ← values? inputs reads args
    some (xs.foldl (· + ·) 0)
  | product args => do
    let xs ← values? inputs reads args
    some (Number.productFrom 1 xs)
  | negation arg => do
    let x ← value? inputs reads arg
    some (-x)
  | binary op left right => do
    let x ← value? inputs reads left
    let y ← value? inputs reads right
    some (op.eval x y)
  | call f args => do
    let xs ← values? inputs reads args
    some (f.eval xs)
  | absent => none

/-- The values of several trees, if all of them have one. -/
def values? (inputs reads : Nat → Option K) : List (Tree K) → Option (List K)
  | [] => some []
  | tree :: rest => do
    let x ← value? inputs reads tree
    let xs ← values? inputs reads rest
    some (x :: xs)

end

variable {inputValue inputValue' readValue readValue' : Nat → Option K}

theorem values?_eq (trees : List (Tree K)) :
    values? inputValue readValue trees = trees.mapM (value? inputValue readValue) := by
  induction trees with
  | nil => rfl
  | cons tree rest ih =>
    rw [values?, ih, List.mapM_cons]
    rfl

/-- **Only the leaves of a tree matter for its value.** -/
theorem value?_congr {tree : Tree K} (hinputs : ∀ id ∈ tree.inputs, inputValue id = inputValue' id)
    (hreads : ∀ id ∈ tree.reads, readValue id = readValue' id) :
    tree.value? inputValue readValue = tree.value? inputValue' readValue' := by
  have hall : ∀ args : List (Tree K),
      (∀ t ∈ args, (∀ id ∈ t.inputs, inputValue id = inputValue' id) →
        (∀ id ∈ t.reads, readValue id = readValue' id) →
        t.value? inputValue readValue = t.value? inputValue' readValue') →
      (∀ id ∈ args.flatMap inputs, inputValue id = inputValue' id) →
      (∀ id ∈ args.flatMap reads, readValue id = readValue' id) →
      values? inputValue readValue args = values? inputValue' readValue' args := by
    intro args ih hinputs hreads
    rw [values?_eq, values?_eq]
    refine mapM_congr_of_mem fun t ht => ih t ht (fun id hid => ?_) fun id hid => ?_
    · exact hinputs id (List.mem_flatMap.2 ⟨t, ht, hid⟩)
    · exact hreads id (List.mem_flatMap.2 ⟨t, ht, hid⟩)
  induction tree with
  | number x => rfl
  | input id => exact hinputs id List.mem_cons_self
  | read id => exact hreads id List.mem_cons_self
  | negation arg ih => rw [value?, value?, ih hinputs hreads]
  | binary op left right ihl ihr =>
    have hl := ihl (fun id hid => hinputs id (List.mem_append_left _ hid))
      fun id hid => hreads id (List.mem_append_left _ hid)
    have hr := ihr (fun id hid => hinputs id (List.mem_append_right _ hid))
      fun id hid => hreads id (List.mem_append_right _ hid)
    rw [value?, value?, hl, hr]
  | sum args ih | product args ih | call f args ih =>
    rw [inputs, leaves, leavesAll_eq] at hinputs
    rw [reads, leaves, leavesAll_eq] at hreads
    rw [value?, value?, hall args ih hinputs hreads]
  | absent => rfl

end Tree

/-- A sum and a product have operands. -/
def Node.HasOperands {K : Type} : Node K → Prop
  | .sum args | .product args => args ≠ []
  | .number _ | .input _ | .read _ | .negation _ | .binary _ _ _ | .call _ _ => True

namespace Arena

variable {K α : Type} [Number K] {arena arena' : Arena K} {handle : Handle}

/-- **The tree of a node has the value of the node.** -/
theorem value?_treeOf (inputs reads : Nat → Option K) (operand : Handle → Tree K)
    (node : Node K) : (treeOf operand node).value? inputs reads =
      node.valueM inputs reads fun arg => (operand arg).value? inputs reads := by
  have hall : ∀ args : List Handle, Tree.values? inputs reads (args.map operand) =
      args.mapM fun arg => (operand arg).value? inputs reads := by
    intro args
    rw [Tree.values?_eq, List.mapM_map]
    rfl
  cases node with
  | number x | input id | read id | negation arg | binary op left right => rfl
  | sum args | product args | call f args =>
    rw [treeOf, Tree.value?, Node.valueM, hall]
    rfl

omit [Number K] in
theorem treeOf_congr {operand operand' : Handle → Tree K} {node : Node K}
    (h : ∀ child ∈ node.children, operand child = operand' child) :
    treeOf operand node = treeOf operand' node := by
  cases node with
  | number x | input id | read id => rfl
  | negation arg => rw [treeOf, treeOf, h arg List.mem_cons_self]
  | binary op left right =>
    rw [treeOf, treeOf, h left List.mem_cons_self,
      h right (List.mem_cons_of_mem left List.mem_cons_self)]
  | sum args | product args | call f args =>
    have hargs : args.map operand = args.map operand' := List.map_congr_left h
    rw [treeOf, treeOf, hargs]

theorem tree_of_node?_eq_none (h : arena.node? handle = none) : arena.tree handle = .absent := by
  rw [tree, h]

/-- **The tree of a stored expression** is that of its node. -/
theorem Canonical.tree_eq (h : arena.Canonical) {node : Node K}
    (hnode : arena.node? handle = some node) : arena.tree handle = treeOf arena.tree node := by
  rw [tree, hnode]
  exact treeOf_congr fun child hchild => if_pos (h.children_lt handle node hnode child hchild)

theorem WellFormed.tree_eq (h : arena.WellFormed) {node : Node K}
    (hnode : arena.node? handle = some node) : arena.tree handle = treeOf arena.tree node :=
  h.canonical.tree_eq hnode

/-- **The tree of a stored expression is kept** by everything that is stored later. -/
theorem Canonical.tree_eq_of_extends (h : arena.Canonical) (h' : arena'.Canonical)
    (hext : arena.Extends arena') (hstored : handle.index < arena.size) :
    arena'.tree handle = arena.tree handle := by
  have hkept : ∀ n (handle : Handle), handle.index = n → handle.index < arena.size →
      arena'.tree handle = arena.tree handle := by
    intro n
    induction n using Nat.strongRecOn with
    | ind n ih =>
      rintro handle rfl hstored
      obtain ⟨node, hnode⟩ := exists_node? hstored
      rw [h.tree_eq hnode, h'.tree_eq (hext.nodes handle node hnode)]
      refine treeOf_congr fun child hchild => ?_
      have hlt := h.children_lt handle node hnode child hchild
      exact ih child.index hlt child rfl (Nat.lt_trans hlt hstored)
  exact hkept handle.index handle rfl hstored

theorem Extends.tree_eq (hext : arena.Extends arena') (h : arena.WellFormed)
    (h' : arena'.WellFormed) (hstored : handle.index < arena.size) :
    arena'.tree handle = arena.tree handle :=
  h.canonical.tree_eq_of_extends h'.canonical hext hstored

omit [Number K] in
theorem mem_leaves_treeOf {ofInput ofRead : Nat → List α} {operand : Handle → Tree K}
    {node : Node K} {a : α} (h : a ∈ (treeOf operand node).leaves ofInput ofRead) :
    (∃ id, node = .input id ∧ a ∈ ofInput id) ∨ (∃ id, node = .read id ∧ a ∈ ofRead id) ∨
      ∃ child ∈ node.children, a ∈ (operand child).leaves ofInput ofRead := by
  cases node with
  | number x => cases h
  | input id => exact .inl ⟨id, rfl, h⟩
  | read id => exact .inr (.inl ⟨id, rfl, h⟩)
  | negation arg => exact .inr (.inr ⟨arg, List.mem_cons_self, h⟩)
  | binary op left right =>
    rcases List.mem_append.1 h with h | h
    · exact .inr (.inr ⟨left, List.mem_cons_self, h⟩)
    · exact .inr (.inr ⟨right, List.mem_cons_of_mem left List.mem_cons_self, h⟩)
  | sum args | product args | call f args =>
    rw [treeOf, Tree.leaves, Tree.leavesAll_eq, List.flatMap_map] at h
    exact .inr (.inr (List.mem_flatMap.1 h))

omit [Number K] in
theorem mem_leaves_of_child {ofInput ofRead : Nat → List α} {operand : Handle → Tree K}
    {node : Node K} {child : Handle} {a : α} (hchild : child ∈ node.children)
    (h : a ∈ (operand child).leaves ofInput ofRead) :
    a ∈ (treeOf operand node).leaves ofInput ofRead := by
  cases node with
  | number x | input _ | read _ => cases hchild
  | negation arg =>
    obtain rfl := List.mem_singleton.1 hchild
    exact h
  | binary op left right =>
    rcases List.mem_cons.1 hchild with rfl | hchild
    · exact List.mem_append_left _ h
    · obtain rfl := List.mem_singleton.1 hchild
      exact List.mem_append_right _ h
  | sum args | product args | call f args =>
    rw [treeOf, Tree.leaves, Tree.leavesAll_eq, List.flatMap_map]
    exact List.mem_flatMap.2 ⟨child, hchild, h⟩

/-- The leaves of a tree are nodes of the arena. -/
theorem exists_of_mem_leaves (h : arena.WellFormed) {ofInput ofRead : Nat → List α} {a : α}
    (ha : a ∈ (arena.tree handle).leaves ofInput ofRead) : ∃ leaf : Handle,
      (∃ id, arena.node? leaf = some (.input id) ∧ a ∈ ofInput id) ∨
        ∃ id, arena.node? leaf = some (.read id) ∧ a ∈ ofRead id := by
  have hleaf : ∀ n (handle : Handle), handle.index = n →
      a ∈ (arena.tree handle).leaves ofInput ofRead → ∃ leaf : Handle,
        (∃ id, arena.node? leaf = some (.input id) ∧ a ∈ ofInput id) ∨
          ∃ id, arena.node? leaf = some (.read id) ∧ a ∈ ofRead id := by
    intro n
    induction n using Nat.strongRecOn with
    | ind n ih =>
      rintro handle rfl ha
      cases hnode : arena.node? handle with
      | none =>
        rw [tree_of_node?_eq_none hnode] at ha
        cases ha
      | some node =>
        rw [h.tree_eq hnode] at ha
        rcases mem_leaves_treeOf ha with ⟨id, rfl, hid⟩ | ⟨id, rfl, hid⟩ | ⟨child, hchild, ha⟩
        · exact ⟨handle, .inl ⟨id, hnode, hid⟩⟩
        · exact ⟨handle, .inr ⟨id, hnode, hid⟩⟩
        · exact ih child.index (h.children_lt handle node hnode child hchild) child rfl ha
  exact hleaf handle.index handle rfl ha

theorem exists_read_of_mem_reads (h : arena.WellFormed) {id : Nat}
    (hid : id ∈ (arena.tree handle).reads) : ∃ leaf, arena.node? leaf = some (.read id) := by
  obtain ⟨leaf, ⟨other, -, hother⟩ | ⟨other, hnode, hother⟩⟩ := exists_of_mem_leaves h hid
  · cases hother
  · obtain rfl := List.mem_singleton.1 hother
    exact ⟨leaf, hnode⟩

theorem exists_name_of_mem_inputs (h : arena.WellFormed) {id : Nat}
    (hid : id ∈ (arena.tree handle).inputs) : ∃ name, arena.inputName? id = some name := by
  obtain ⟨leaf, ⟨other, hnode, hother⟩ | ⟨other, -, hother⟩⟩ := exists_of_mem_leaves h hid
  · obtain rfl := List.mem_singleton.1 hother
    exact h.inputs_named leaf id hnode
  · cases hother

end Arena

end Clifford
