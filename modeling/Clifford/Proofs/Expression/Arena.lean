import Clifford.Expression.Arena
import Std.Data.HashMap.Lemmas

/-!
# Arenas of expressions

An arena grows only by nodes whose operands it holds already, and its index is the inverse of the
list of nodes. Both facts survive every call that stores a node.

## Main definitions

- `Interner.Inverse` — the numbers of values are inverse to the values of numbers
- `Arena.Canonical` — the index inverts the nodes, and operands lie before their node
- `Arena.WellFormed` — a canonical arena in which every input that occurs has a name
- `Arena.Extends` — nothing that was stored is changed

## Main results

- `Interner.intern_inverse`, `Arena.Canonical.intern`, `Arena.intern_wellFormed` — storing keeps the
  tables inverse
- `Arena.intern_extends`, `Arena.node?_intern` — what storing adds
-/

namespace Clifford

/-- Handles of one index are one handle. -/
instance : Std.LawfulEqOrd Handle where
  compare_self {a} := Std.ReflOrd.compare_self (a := a.index)
  eq_of_compare {a b} h := by
    cases a
    cases b
    exact congrArg Handle.mk (Std.LawfulEqOrd.eq_of_compare h)

/-- Handles are ordered as their indices are. -/
instance : Std.TransOrd Handle where
  eq_swap {a b} := Std.OrientedOrd.eq_swap (a := a.index) (b := b.index)
  isLE_trans {a b c} := Std.TransOrd.isLE_trans (a := a.index) (b := b.index) (c := c.index)

namespace Interner

variable {T : Type} [BEq T] [Hashable T]

/-- The two tables of an interner are inverse to each other. -/
def Inverse (table : Interner T) : Prop :=
  ∀ (value : T) (id : Nat), table.ids[value]? = some id ↔ table.values[id]? = some value

theorem inverse_empty : ({} : Interner T).Inverse := by
  intro value id
  simp

theorem value?_intern_of_value? {table : Interner T} {value other : T} {id : Nat}
    (hid : table.value? id = some other) : (table.intern value).2.value? id = some other := by
  unfold intern
  split
  · exact hid
  · have hlt : id < table.values.size := (Array.getElem?_eq_some_iff.1 hid).1
    rw [value?, Array.getElem?_push_lt hlt, ← Array.getElem?_eq_getElem hlt]
    exact hid

theorem value?_intern {table : Interner T} (h : table.Inverse) (value : T) :
    (table.intern value).2.value? (table.intern value).1 = some value := by
  unfold intern
  split
  · rename_i id hid
    exact (h value id).1 hid
  · exact Array.getElem?_push_size

variable [LawfulBEq T]

theorem intern_inverse {table : Interner T} (h : table.Inverse) (value : T) :
    (table.intern value).2.Inverse := by
  unfold intern
  split
  · exact h
  · rename_i hnone
    intro other id
    simp only [Std.HashMap.getElem?_insert, Array.getElem?_push]
    by_cases hother : value = other
    · subst hother
      rw [beq_self_eq_true, if_pos rfl, Option.some.injEq]
      constructor
      · rintro rfl
        rw [if_pos rfl]
      · intro hid
        split at hid
        · rename_i heq
          exact heq.symm
        · -- An old number of the value would have been found.
          rw [← h, hnone] at hid
          cases hid
    · rw [beq_false_of_ne hother, if_neg (by simp), h]
      split
      · rename_i heq
        subst heq
        have hout : table.values[table.values.size]? = none := Array.getElem?_size
        rw [hout]
        simp [hother]
      · rfl

end Interner

namespace Arena

variable {K : Type} [Number K]

/-- Every node is stored once, and its operands lie before it. -/
structure Canonical (arena : Arena K) : Prop where
  /-- The index gives a node its handle. -/
  index_iff : ∀ node handle, arena.index[node]? = some handle ↔ arena.node? handle = some node
  /-- Operands lie before their node. -/
  children_lt : ∀ handle node, arena.node? handle = some node →
    ∀ child ∈ node.children, child.index < handle.index
  /-- The names of inputs and their numbers are inverse to each other. -/
  inputs_inverse : arena.inputs.Inverse

/-- The tables of an arena fit each other, every operand lies before its node, and the inputs have
names. -/
structure WellFormed (arena : Arena K) : Prop extends canonical : Canonical arena where
  /-- Every input that an expression refers to has a name. -/
  inputs_named : ∀ handle id, arena.node? handle = some (.input id) →
    ∃ name, arena.inputName? id = some name

/-- What was stored is still there. -/
structure Extends (arena arena' : Arena K) : Prop where
  /-- Handles keep their nodes. -/
  nodes : ∀ handle node, arena.node? handle = some node → arena'.node? handle = some node
  /-- Inputs keep their names. -/
  inputs : ∀ id name, arena.inputName? id = some name → arena'.inputName? id = some name

/-- The node may be stored: its operands are there, and so is the input that it refers to. -/
structure Fits (arena : Arena K) (node : Node K) : Prop where
  /-- The operands are stored. -/
  children_lt : ∀ child ∈ node.children, child.index < arena.size
  /-- The input has a name. -/
  input_named : ∀ id, node = .input id → ∃ name, arena.inputName? id = some name

variable {arena arena' arena'' : Arena K} {node : Node K} {handle : Handle}

theorem wellFormed_empty : ({} : Arena K).WellFormed where
  index_iff node handle := by simp [node?]
  children_lt handle node h := by simp [node?] at h
  inputs_inverse := Interner.inverse_empty
  inputs_named handle id h := by simp [node?] at h

namespace Extends

theorem refl (arena : Arena K) : arena.Extends arena := ⟨fun _ _ h => h, fun _ _ h => h⟩

theorem trans (h : arena.Extends arena') (h' : arena'.Extends arena'') :
    arena.Extends arena'' :=
  ⟨fun _ _ hn => h'.nodes _ _ (h.nodes _ _ hn), fun _ _ hi => h'.inputs _ _ (h.inputs _ _ hi)⟩

end Extends

theorem index_lt_of_node? (h : arena.node? handle = some node) : handle.index < arena.size :=
  (Array.getElem?_eq_some_iff.1 h).1

theorem exists_node? (h : handle.index < arena.size) : ∃ node, arena.node? handle = some node :=
  ⟨_, Array.getElem?_eq_getElem h⟩

theorem node?_of_negated? {operand : Handle}
    (h : (arena.node? handle).bind Node.negated? = some operand) :
    arena.node? handle = some (.negation operand) := by
  obtain ⟨node, hnode, hnegated⟩ := Option.bind_eq_some_iff.1 h
  cases node with
  | negation arg => rw [hnode, Option.some.inj hnegated]
  | _ => cases hnegated

/-- Negating a negation gives its operand, and anything else becomes the operand of a negation. -/
theorem negate_cases (arena : Arena K) (handle : Handle) :
    (∃ operand, arena.node? handle = some (.negation operand) ∧
      (negate handle).run arena = (pure operand : StateM (Arena K) Handle).run arena) ∨
    (negate handle).run arena = (store (.negation handle)).run arena := by
  cases hnegated : (arena.node? handle).bind Node.negated? with
  | some operand =>
    refine .inl ⟨operand, node?_of_negated? hnegated, ?_⟩
    simp [negate, hnegated]
  | none =>
    refine .inr ?_
    simp [negate, hnegated]

theorem inputs_intern (node : Node K) : (arena.intern node).2.inputs = arena.inputs := by
  unfold intern
  split <;> rfl

theorem node?_push (node : Node K) (handle : Handle) :
    (arena.nodes.push node)[handle.index]? =
      if handle.index = arena.size then some node else arena.node? handle :=
  Array.getElem?_push

theorem intern_extends (node : Node K) : arena.Extends (arena.intern node).2 := by
  refine ⟨fun handle other h => ?_, fun id name h => ?_⟩
  · unfold intern
    split
    · exact h
    · have hlt := index_lt_of_node? h
      rw [node?, node?_push, if_neg (Nat.ne_of_lt hlt)]
      exact h
  · rw [inputName?, inputs_intern]
    exact h

theorem Canonical.node?_intern (h : arena.Canonical) (node : Node K) :
    (arena.intern node).2.node? (arena.intern node).1 = some node := by
  unfold Arena.intern
  split
  · rename_i handle hhit
    exact (h.index_iff node handle).1 hhit
  · rw [node?, node?_push]
    exact if_pos rfl

theorem node?_intern (h : arena.WellFormed) (node : Node K) :
    (arena.intern node).2.node? (arena.intern node).1 = some node :=
  h.canonical.node?_intern node

/-- A handle of the arena after storing is the new one or belonged to its node before. -/
theorem node?_intern_cases {other : Node K}
    (h : (arena.intern node).2.node? handle = some other) :
    arena.node? handle = some other ∨
      (handle.index = arena.size ∧ other = node ∧ arena.index[node]? = none) := by
  unfold intern at h
  split at h
  · exact .inl h
  · rename_i hmiss
    rw [node?, node?_push] at h
    split at h
    · rename_i hnew
      exact .inr ⟨hnew, (Option.some.inj h).symm, hmiss⟩
    · exact .inl h

/-- **Storing a node with stored operands keeps an arena canonical.** -/
theorem Canonical.intern (h : arena.Canonical)
    (hchildren : ∀ child ∈ node.children, child.index < arena.size) :
    (arena.intern node).2.Canonical where
  index_iff other handle := by
    unfold Arena.intern
    split
    · exact h.index_iff other handle
    · rename_i hmiss
      rw [Std.HashMap.getElem?_insert, node?, node?_push]
      by_cases hother : node = other
      · subst hother
        rw [beq_self_eq_true, if_pos rfl, Option.some.injEq]
        constructor
        · rintro rfl
          exact if_pos rfl
        · intro hnode
          split at hnode
          · rename_i hindex
            cases handle
            exact congrArg Handle.mk hindex.symm
          · rw [← h.index_iff, hmiss] at hnode
            cases hnode
      · rw [beq_false_of_ne hother, if_neg (by simp), h.index_iff]
        split
        · rename_i hindex
          have hout : arena.node? handle = none := by
            rw [node?, hindex]
            exact Array.getElem?_size
          rw [hout]
          simp [hother]
        · rfl
  children_lt handle other hother child hchild := by
    rcases node?_intern_cases hother with hold | ⟨hindex, rfl, -⟩
    · exact h.children_lt handle other hold child hchild
    · rw [hindex]
      exact hchildren child hchild
  inputs_inverse := by
    rw [inputs_intern]
    exact h.inputs_inverse

/-- **Storing a node that fits keeps an arena well-formed.** -/
theorem intern_wellFormed (h : arena.WellFormed) (hfits : arena.Fits node) :
    (arena.intern node).2.WellFormed := by
  refine ⟨h.canonical.intern hfits.children_lt, ?_⟩
  intro handle id hid
  rw [inputName?, inputs_intern]
  rcases node?_intern_cases hid with hold | ⟨-, heq, -⟩
  · exact h.inputs_named handle id hold
  · exact hfits.input_named id heq.symm

/-- An arena in which an input is numbered. -/
def withInput (arena : Arena K) (name : String) : Arena K :=
  { arena with inputs := (arena.inputs.intern name).2 }

theorem withInput_extends (name : String) : arena.Extends (arena.withInput name) :=
  ⟨fun _ _ h => h, fun _ _ h => Interner.value?_intern_of_value? h⟩

theorem Canonical.withInput (h : arena.Canonical) (name : String) :
    (arena.withInput name).Canonical :=
  ⟨h.index_iff, h.children_lt, Interner.intern_inverse h.inputs_inverse name⟩

theorem withInput_wellFormed (h : arena.WellFormed) (name : String) :
    (arena.withInput name).WellFormed where
  canonical := h.canonical.withInput name
  inputs_named handle id hid := by
    obtain ⟨other, hother⟩ := h.inputs_named handle id hid
    exact ⟨other, Interner.value?_intern_of_value? hother⟩

end Arena

end Clifford
