import Clifford.Proofs.Expression.Tree
import Clifford.Proofs.Number.Rational
import Mathlib.Data.List.Nodup
import Mathlib.Logic.Relation

/-!
# Sharing of expressions

Whatever calls have built an arena, it holds every node once. So two handles are equal exactly if
their expressions are: an expression and all that it consists of has one place, and making it once
more finds this place and stores nothing. Sums and products sort their operands by place, so the
order in which they are given does not matter either.

## Main definitions

- `Arena.Call` — a call that makes an expression, and `Arena.Accepts` — its operands are stored
- `Arena.Next` — one more call, and `Arena.Reachable` — the arenas that calls lead to
- `Arena.Settles` — an action stores its result, and finds it when it is repeated
- `Arena.HashConsed` — each node, each name and each expression has one place

## Main results

- `Arena.Canonical.perform` — a call keeps an arena canonical, stores its result, and finds it again
- `Arena.Canonical.tree_inj` — expressions that unfold to the same tree have the same handle
- `Arena.Reachable.sharing_canonical` — what sharing promises of every arena and of every later one

## Design notes

A node may be stored that refers to an input without a name, so arenas are canonical here and need
not be well-formed.
-/

namespace Clifford

namespace Arena

variable {K : Type} [Number K]

/-! ### Calls -/

/-- A call that makes an expression. -/
inductive Call (K : Type) where
  /-- A number. -/
  | number (x : K)
  /-- A named input. -/
  | input (name : String)
  /-- A variable. -/
  | read (id : Nat)
  /-- A sum. -/
  | sum (args : List Handle)
  /-- A product. -/
  | product (args : List Handle)
  /-- A negation. -/
  | negate (arg : Handle)
  /-- A binary operator. -/
  | binary (op : Operator) (left right : Handle)
  /-- A function. -/
  | call (f : ScalarFunction) (args : List Handle)

/-- The handles that a call is given. -/
def Call.operands : Call K → List Handle
  | number _ | input _ | read _ => []
  | sum args | product args | call _ args => args
  | negate arg => [arg]
  | binary _ left right => [left, right]

/-- Makes the expression. -/
def Call.perform : Call K → StateM (Arena K) Handle
  | number x => Arena.number x
  | input name => Arena.input name
  | read id => Arena.read id
  | sum args => Arena.sum args
  | product args => Arena.product args
  | negate arg => Arena.negate arg
  | binary op left right => Arena.binary op left right
  | call f args => Arena.call f args

/-- All that a call is given is stored. -/
def Accepts (arena : Arena K) (call : Call K) : Prop :=
  ∀ operand ∈ call.operands, operand.index < arena.size

/-- One more call: an input is numbered, an expression is made, or a node is stored as it is. -/
inductive Next : Arena K → Arena K → Prop where
  | name (arena : Arena K) (name : String) : Next arena ((internInput name).run arena).2
  | call {arena : Arena K} {call : Call K} : arena.Accepts call →
      Next arena (call.perform.run arena).2
  | store {arena : Arena K} {node : Node K} : (∀ child ∈ node.children, child.index < arena.size) →
      Next arena ((store node).run arena).2

/-- The arenas that calls lead to. -/
def Reachable (arena : Arena K) : Prop := Relation.ReflTransGen Next {} arena

variable {arena arena' later : Arena K} {node : Node K} {args args' : List Handle}

/-- Handles that are stored remain so. -/
theorem Extends.stored (hext : arena.Extends arena') {handle : Handle}
    (h : handle.index < arena.size) : handle.index < arena'.size := by
  obtain ⟨node, hnode⟩ := exists_node? h
  exact index_lt_of_node? (hext.nodes handle node hnode)

/-! ### The order of operands -/

/-- Handles that are sorted in the same way were the same handles. -/
theorem sorted_eq_of_perm (h : args.Perm args') : sorted args = sorted args' := by
  have hsorted : ∀ args : List Handle,
      (sorted args).Pairwise fun a b => decide (a.index ≤ b.index) = true := by
    intro args
    refine List.pairwise_mergeSort (fun a b c hab hbc => ?_) (fun a b => ?_) args
    · exact decide_eq_true (Nat.le_trans (of_decide_eq_true hab) (of_decide_eq_true hbc))
    · simpa using Nat.le_total a.index b.index
  refine List.Perm.eq_of_pairwise ?_ (hsorted args) (hsorted args') ?_
  · rintro ⟨a⟩ ⟨b⟩ - - hab hba
    exact congrArg Handle.mk (Nat.le_antisymm (of_decide_eq_true hab) (of_decide_eq_true hba))
  · exact (List.mergeSort_perm args _).trans (h.trans (List.mergeSort_perm args' _).symm)

/-- **A sum does not depend on the order of its operands**, and neither does a product. -/
theorem sum_eq_of_perm (h : args.Perm args') :
    (sum args : StateM (Arena K) Handle) = sum args' ∧
      (product args : StateM (Arena K) Handle) = product args' := by
  match args, args', h.length_eq with
  | [], [], _ => exact ⟨rfl, rfl⟩
  | [a], [b], _ =>
    obtain rfl := List.singleton_perm_singleton.1 h
    exact ⟨rfl, rfl⟩
  | a :: b :: rest, c :: d :: rest', _ =>
    have hsorted := sorted_eq_of_perm h
    exact ⟨congrArg (fun args => store (.sum args)) hsorted,
      congrArg (fun args => store (.product args)) hsorted⟩

/-! ### One call -/

/-- The action stores its result, and keeps what is stored. Whenever it is repeated, it finds the
same result and changes nothing. -/
structure Settles (action : StateM (Arena K) Handle) (arena : Arena K) : Prop where
  /-- The arena stays canonical. -/
  canonical : (action.run arena).2.Canonical
  /-- What was stored is kept. -/
  extends_run : arena.Extends (action.run arena).2
  /-- The result is stored. -/
  stored : (action.run arena).1.index < (action.run arena).2.size
  /-- The result is found again. -/
  again : ∀ later : Arena K, later.Canonical → (action.run arena).2.Extends later →
    action.run later = ((action.run arena).1, later)

/-- It is enough to know what an action does to the arenas that keep what is stored now. -/
theorem Settles.congr {action action' : StateM (Arena K) Handle} (h : Settles action arena)
    (hsame : ∀ later : Arena K, arena.Extends later → action'.run later = action.run later) :
    Settles action' arena := by
  have hnow := hsame arena (.refl arena)
  refine ⟨?_, ?_, ?_, fun later hlater hext => ?_⟩
  · rw [hnow]
    exact h.canonical
  · rw [hnow]
    exact h.extends_run
  · rw [hnow]
    exact h.stored
  · rw [hnow] at hext ⊢
    rw [hsame later (h.extends_run.trans hext)]
    exact h.again later hlater hext

namespace Canonical

theorem settles_pure (h : arena.Canonical) {operand : Handle}
    (hstored : operand.index < arena.size) : Settles (pure operand) arena where
  canonical := h
  extends_run := .refl arena
  stored := hstored
  again _ _ _ := rfl

theorem settles_store (h : arena.Canonical)
    (hchildren : ∀ child ∈ node.children, child.index < arena.size) :
    Settles (store node) arena where
  canonical := h.intern hchildren
  extends_run := intern_extends node
  stored := index_lt_of_node? (h.node?_intern node)
  again later hlater hext := by
    have hfound : later.index[node]? = some (arena.intern node).1 :=
      (hlater.index_iff node _).2 (hext.nodes _ node (h.node?_intern node))
    change later.intern node = _
    rw [Arena.intern, hfound]
    rfl

theorem settles_input (h : arena.Canonical) (name : String) :
    Settles (input name) arena := by
  have hnamed := h.withInput name
  have hstore : Settles (store (.input (arena.inputs.intern name).1)) (arena.withInput name) :=
    hnamed.settles_store (by simp [Node.children])
  refine ⟨hstore.canonical, (withInput_extends name).trans hstore.extends_run, hstore.stored,
    fun later hlater hext => ?_⟩
  have hid : later.inputName? (arena.inputs.intern name).1 = some name :=
    hext.inputs _ name (hstore.extends_run.inputs _ name
      (Interner.value?_intern h.inputs_inverse name))
  have hsame : later.inputs.intern name = ((arena.inputs.intern name).1, later.inputs) := by
    rw [Interner.intern, (hlater.inputs_inverse name _).2 hid]
  calc (input name).run later
      = (store (.input (later.inputs.intern name).1)).run (later.withInput name) := rfl
    _ = (store (.input (arena.inputs.intern name).1)).run later := by
      rw [Arena.withInput, hsame]
    _ = ((input name).run arena |>.1, later) := hstore.again later hlater hext

theorem settles_negate (h : arena.Canonical) {arg : Handle} (harg : arg.index < arena.size) :
    Settles (negate arg) arena := by
  obtain ⟨node, hnode⟩ := exists_node? harg
  -- The operand keeps its node, so the same case applies whenever the call is repeated.
  cases hnegated : node.negated? with
  | some inner =>
    have hchild : inner ∈ node.children := by
      cases node <;> simp_all [Node.negated?, Node.children]
    have hinner := Nat.lt_trans (h.children_lt arg node hnode inner hchild) harg
    refine (h.settles_pure hinner).congr fun later hext => ?_
    simp [negate, hext.nodes arg node hnode, hnegated]
  | none =>
    have hstore : Settles (store (.negation arg)) arena :=
      h.settles_store (by simpa [Node.children] using harg)
    refine hstore.congr fun later hext => ?_
    simp [negate, hext.nodes arg node hnode, hnegated]

/-- **A call keeps an arena canonical and stores its result, and finds it whenever it is
repeated.** -/
theorem perform (h : arena.Canonical) {call : Call K} (hcall : arena.Accepts call) :
    Settles call.perform arena := by
  cases call with
  | number x | read id => exact h.settles_store (by simp [Node.ofNumber, Node.children])
  | input name => exact h.settles_input name
  | negate arg => exact h.settles_negate (hcall arg List.mem_cons_self)
  | binary op left right => exact h.settles_store hcall
  | call f args => exact h.settles_store hcall
  | sum args | product args =>
    match args with
    | [] => exact h.settles_store (by simp [Node.ofNumber, Node.children])
    | [arg] => exact h.settles_pure (hcall arg List.mem_cons_self)
    | a :: b :: rest =>
      refine h.settles_store fun child hchild => hcall child ?_
      exact (List.mergeSort_perm _ _).mem_iff.1 hchild

/-- Every call keeps an arena canonical, and what is stored. -/
theorem next (h : arena.Canonical) (hnext : Next arena arena') :
    arena'.Canonical ∧ arena.Extends arena' := by
  cases hnext with
  | name name => exact ⟨h.withInput name, withInput_extends name⟩
  | call hcall => exact ⟨(h.perform hcall).canonical, (h.perform hcall).extends_run⟩
  | store hchildren => exact ⟨h.intern hchildren, intern_extends _⟩

theorem run_next (h : arena.Canonical) (hnext : Relation.ReflTransGen Next arena arena') :
    arena'.Canonical ∧ arena.Extends arena' := by
  induction hnext with
  | refl => exact ⟨h, .refl arena⟩
  | tail _ hlast ih =>
    obtain ⟨hcanonical, hext⟩ := ih.1.next hlast
    exact ⟨hcanonical, ih.2.trans hext⟩

end Canonical

/-! ### Equal expressions -/

omit [Number K] in
theorem map_eq_map_of_inj {operand : Handle → Tree K}
    (hinj : ∀ a ∈ args, ∀ b ∈ args', operand a = operand b → a = b)
    (h : args.map operand = args'.map operand) : args = args' := by
  induction args generalizing args' with
  | nil => exact (List.map_eq_nil_iff.1 h.symm).symm
  | cons a rest ih =>
    obtain ⟨b, rest', rfl, hfirst, hrest⟩ := List.map_eq_cons_iff.1 h.symm
    rw [hinj a List.mem_cons_self b List.mem_cons_self hfirst.symm,
      ih (fun a ha b hb => hinj a (List.mem_cons_of_mem _ ha) b (List.mem_cons_of_mem _ hb))
        hrest.symm]

omit [Number K] in
/-- Nodes have the same tree only if they are the same, when their operands tell their trees
apart. -/
theorem treeOf_inj {operand : Handle → Tree K} {node' : Node K}
    (hinj : ∀ a ∈ node.children, ∀ b ∈ node'.children, operand a = operand b → a = b)
    (h : treeOf operand node = treeOf operand node') : node = node' := by
  cases node <;> cases node' <;> simp only [treeOf, reduceCtorEq, Tree.number.injEq,
    Tree.input.injEq, Tree.read.injEq, Tree.sum.injEq, Tree.product.injEq, Tree.negation.injEq,
    Tree.binary.injEq, Tree.call.injEq] at h
  case number.number | input.input | read.read => rw [h]
  case sum.sum => exact congrArg Node.sum (map_eq_map_of_inj hinj h)
  case product.product => exact congrArg Node.product (map_eq_map_of_inj hinj h)
  case call.call f args f' args' =>
    obtain ⟨rfl, hargs⟩ := h
    exact congrArg (Node.call f) (map_eq_map_of_inj hinj hargs)
  case negation.negation arg arg' =>
    rw [hinj arg List.mem_cons_self arg' List.mem_cons_self h]
  case binary.binary op left right op' left' right' =>
    have hl := hinj left List.mem_cons_self left' List.mem_cons_self h.2.1
    have hr := hinj right (List.mem_cons_of_mem _ List.mem_cons_self) right'
      (List.mem_cons_of_mem _ List.mem_cons_self) h.2.2
    rw [h.1, hl, hr]

/-- **Expressions that unfold to the same tree have the same handle.** -/
theorem Canonical.tree_inj (h : arena.Canonical) {a b : Handle} (ha : a.index < arena.size)
    (hb : b.index < arena.size) (htree : arena.tree a = arena.tree b) : a = b := by
  have hinj : ∀ n (a b : Handle), a.index = n → a.index < arena.size → b.index < arena.size →
      arena.tree a = arena.tree b → a = b := by
    intro n
    induction n using Nat.strongRecOn with
    | ind n ih =>
      rintro a b rfl ha hb htree
      obtain ⟨node, hnode⟩ := exists_node? ha
      obtain ⟨node', hnode'⟩ := exists_node? hb
      rw [h.tree_eq hnode, h.tree_eq hnode'] at htree
      obtain rfl : node = node' := by
        refine treeOf_inj (fun c hc d hd heq => ?_) htree
        have hc := h.children_lt a node hnode c hc
        have hd := h.children_lt b node' hnode' d hd
        exact ih c.index hc c d rfl (Nat.lt_trans hc ha) (Nat.lt_trans hd hb) heq
      -- One node has one place.
      exact Option.some.inj (((h.index_iff node a).2 hnode).symm.trans
        ((h.index_iff node b).2 hnode'))
  exact hinj a.index a b rfl ha hb htree

/-! ### What sharing promises -/

/-- Each node, each name and each expression has one place. -/
structure HashConsed (arena : Arena K) : Prop where
  /-- The stored nodes are distinct. -/
  nodes_nodup : arena.nodes.toList.Nodup
  /-- The index holds the place of each stored node, and nothing else. -/
  index_iff : ∀ node handle, arena.index[node]? = some handle ↔ arena.node? handle = some node
  /-- An input has a number exactly if the number has its name. -/
  inputs_iff : ∀ name id, arena.inputId? name = some id ↔ arena.inputName? id = some name
  /-- The numbers of inputs are dense. -/
  inputs_dense : ∀ id, (∃ name, arena.inputName? id = some name) ↔ id < arena.inputs.size
  /-- Operands lie before their node. -/
  children_lt : ∀ handle node, arena.node? handle = some node →
    ∀ child ∈ node.children, child.index < handle.index
  /-- A stored node unfolds to the trees of its operands. -/
  tree_eq : ∀ handle node, arena.node? handle = some node →
    arena.tree handle = treeOf arena.tree node
  /-- Handles are equal exactly if they unfold to the same tree. -/
  tree_eq_iff : ∀ a b : Handle, a.index < arena.size → b.index < arena.size →
    (arena.tree a = arena.tree b ↔ a = b)

theorem Canonical.hashConsed (h : arena.Canonical) : arena.HashConsed where
  nodes_nodup := by
    rw [List.nodup_iff_getElem?_ne_getElem?]
    intro i j hij hj heq
    rw [Array.length_toList] at hj
    obtain ⟨node, hnode⟩ : ∃ node, arena.node? ⟨j⟩ = some node := exists_node? hj
    have hnode' : arena.node? ⟨i⟩ = some node := by
      rw [← hnode, node?, node?, ← Array.getElem?_toList, ← Array.getElem?_toList]
      exact heq
    have hsame : (⟨i⟩ : Handle) = ⟨j⟩ := Option.some.inj
      (((h.index_iff node _).2 hnode').symm.trans ((h.index_iff node _).2 hnode))
    exact Nat.ne_of_lt hij (Handle.mk.inj hsame)
  index_iff := h.index_iff
  inputs_iff := h.inputs_inverse
  inputs_dense id :=
    ⟨fun ⟨_, hname⟩ => (Array.getElem?_eq_some_iff.1 hname).1,
      fun hid => ⟨_, Array.getElem?_eq_getElem hid⟩⟩
  children_lt := h.children_lt
  tree_eq _ _ := h.tree_eq
  tree_eq_iff _ _ ha hb := ⟨h.tree_inj ha hb, fun heq => heq ▸ rfl⟩

theorem Reachable.canonical (h : arena.Reachable) : arena.Canonical :=
  (wellFormed_empty.canonical.run_next h).1

/-- **Sharing is canonical.** Whatever calls have led to an arena, each of its nodes, names and
expressions has one place, and keeps it whatever calls follow. What a call makes is stored, and
making it once more finds it and changes nothing, for sums and products also with the operands in
any other order. -/
theorem Reachable.sharing_canonical (h : arena.Reachable) :
    arena.HashConsed ∧ (∀ later, Relation.ReflTransGen Next arena later → arena.Extends later) ∧
      ∀ call : Call K, arena.Accepts call →
        let handle := (call.perform.run arena).1
        let made := (call.perform.run arena).2
        handle.index < made.size ∧ ∀ later, Relation.ReflTransGen Next made later →
          call.perform.run later = (handle, later) ∧
            ∀ args args' : List Handle, args.Perm args' →
              (call = .sum args → (sum args').run later = (handle, later)) ∧
              (call = .product args → (product args').run later = (handle, later)) := by
  have hcanonical := h.canonical
  refine ⟨hcanonical.hashConsed, fun later hlater => (hcanonical.run_next hlater).2,
    fun call hcall => ?_⟩
  have hsettles := hcanonical.perform hcall
  refine ⟨hsettles.stored, fun later hlater => ?_⟩
  obtain ⟨hcanonical', hext⟩ := hsettles.canonical.run_next hlater
  have hagain := hsettles.again later hcanonical' hext
  refine ⟨hagain, fun args args' hperm => ⟨?_, ?_⟩⟩
  · rintro rfl
    rw [← (sum_eq_of_perm hperm).1]
    exact hagain
  · rintro rfl
    rw [← (sum_eq_of_perm hperm).2]
    exact hagain

/-- A sum of an input and a variable, made again with its operands exchanged. -/
theorem sharing_canonical_exchanged :
    let first := (read 0 : StateM (Arena ℚ) Handle).run {}
    let second := (input "x").run first.2
    let made := (sum [second.1, first.1]).run second.2
    second.2.Reachable ∧ second.2.HashConsed ∧ second.2.Extends made.2 ∧
      (sum [first.1, second.1]).run made.2 = (made.1, made.2) := by
  intro first second made
  have hread : ({} : Arena ℚ).Accepts (.read 0) := by simp [Accepts, Call.operands]
  have hinput : first.2.Accepts (.input "x") := by simp [Accepts, Call.operands]
  have hreachable : second.2.Reachable := .tail (.single (.call hread)) (.call hinput)
  have hfirst := wellFormed_empty.canonical.perform hread
  have hsecond := hfirst.canonical.perform hinput
  have hsum : second.2.Accepts (.sum [second.1, first.1]) :=
    List.forall_mem_cons.2 ⟨hsecond.stored,
      List.forall_mem_singleton.2 (hsecond.extends_run.stored hfirst.stored)⟩
  obtain ⟨hconsed, hkept, hmade⟩ := Reachable.sharing_canonical hreachable
  obtain ⟨-, hagain⟩ := hmade (.sum [second.1, first.1]) hsum
  have hexchanged := (hagain made.2 .refl).2 _ _ (List.Perm.swap first.1 second.1 [])
  exact ⟨hreachable, hconsed, hkept made.2 (.single (.call hsum)), hexchanged.1 rfl⟩

end Arena

end Clifford
