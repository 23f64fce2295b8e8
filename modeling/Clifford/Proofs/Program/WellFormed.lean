import Clifford.Program
import Clifford.Proofs.Expression.Arena
import Clifford.Proofs.Target.Outcome

/-!
# Well-formed programs

A variable is read only after it was defined, and then by a node that lies behind its definition.
So no expression of a well-formed program is defined by itself.

## Main definitions

- `Program.definition?` — the expression that defines a variable
- `Program.WellFormed` — what holds of every program that is built by its calls
- `Program.Extends` — nodes, inputs and definitions are kept
- `Program.Stores` — only expressions were added
- `Program.IsOpen` — a variable that is still without definition

## Main results

- `Program.store_yields` — storing an admitted node
- `Program.define_yields`, `Program.newVariable_yields` — the life of a variable
-/

namespace Clifford

namespace Program

variable {K : Type} [Number K]

/-- The expression that defines a variable. -/
def definition? (program : Program K) (id : Nat) : Option Handle :=
  (program.variableAt? id).bind Variable.definition?

/-- Every expression depends on earlier ones only. -/
structure WellFormed (program : Program K) : Prop where
  /-- The arena is in order. -/
  arena : program.arena.WellFormed
  /-- A variable that is read has a definition before the node that reads it. -/
  reads : ∀ handle id, program.arena.node? handle = some (.read id) →
    ∃ definition, program.definition? id = some definition ∧ definition.index < handle.index
  /-- The temporary of an expression reads a variable that is defined by the expression. -/
  temporaries : ∀ expression handle, program.temporaries[expression]? = some handle →
    ∃ id, program.arena.node? handle = some (.read id) ∧ program.definition? id = some expression

/-- What was recorded is still there. -/
structure Extends (program program' : Program K) : Prop where
  /-- Expressions and inputs are kept. -/
  arena : program.arena.Extends program'.arena
  /-- Definitions are kept. -/
  definitions : ∀ id definition, program.definition? id = some definition →
    program'.definition? id = some definition

/-- Only expressions were added. -/
structure Stores (program program' : Program K) : Prop where
  arena : program.arena.Extends program'.arena
  declared : program'.declared = program.declared
  wellFormed : program'.WellFormed

/-- The variable was created, and has no definition yet. -/
structure IsOpen (program : Program K) (id : Nat) : Prop where
  id_lt : id < program.declared.size
  definition?_eq_none : program.definition? id = none

/-- The expression was stored. -/
def Holds (program : Program K) (handle : Handle) : Prop := handle.index < program.arena.size

/-- A node whose operands are stored, and whose variable has a stored definition. -/
structure Admits (program : Program K) (node : Node K) : Prop where
  fits : program.arena.Fits node
  reads : ∀ id, node = .read id →
    ∃ definition, program.definition? id = some definition ∧ program.Holds definition

variable {program program' program'' : Program K}

theorem wellFormed_empty : ({} : Program K).WellFormed where
  arena := Arena.wellFormed_empty
  reads handle id h := by simp [Arena.node?] at h
  temporaries expression handle h := by simp at h

namespace Extends

theorem refl (program : Program K) : program.Extends program :=
  ⟨.refl program.arena, fun _ _ h => h⟩

theorem trans (h : program.Extends program') (h' : program'.Extends program'') :
    program.Extends program'' :=
  ⟨h.arena.trans h'.arena, fun _ _ hd => h'.definitions _ _ (h.definitions _ _ hd)⟩

end Extends

theorem definition?_congr (h : program'.declared = program.declared) (id : Nat) :
    program'.definition? id = program.definition? id := by
  rw [definition?, definition?, variableAt?, variableAt?, h]

namespace Stores

theorem refl (h : program.WellFormed) : program.Stores program :=
  ⟨.refl program.arena, rfl, h⟩

theorem trans (h : program.Stores program') (h' : program'.Stores program'') :
    program.Stores program'' :=
  ⟨h.arena.trans h'.arena, h'.declared.trans h.declared, h'.wellFormed⟩

theorem toExtends (h : program.Stores program') : program.Extends program' :=
  ⟨h.arena, fun id _ hd => (definition?_congr h.declared id).trans hd⟩

theorem isOpen {id : Nat} (h : program.Stores program') (hopen : program.IsOpen id) :
    program'.IsOpen id where
  id_lt := by
    rw [h.declared]
    exact hopen.id_lt
  definition?_eq_none := (definition?_congr h.declared id).trans hopen.definition?_eq_none

end Stores

theorem onArena_bind {α β : Type} (c : StateM (Arena K) α) (k : α → StateM (Arena K) β) :
    onArena (c >>= k) = onArena c >>= fun a => onArena (k a) := rfl

/-- **Storing an admitted node** adds it to the expressions and leaves the rest alone. -/
theorem store_yields (h : program.WellFormed) {node : Node K} (hnode : program.Admits node) :
    Yields (onArena (Arena.store node)) program fun handle program' =>
      program.Stores program' ∧ program'.arena.node? handle = some node := by
  have hext : program.arena.Extends (program.arena.intern node).2 := Arena.intern_extends node
  refine ⟨⟨hext, rfl, ?_, ?_, ?_⟩, Arena.node?_intern h.arena node⟩
  · exact Arena.intern_wellFormed h.arena hnode.fits
  · intro handle id hread
    rcases Arena.node?_intern_cases hread with hold | ⟨hindex, heq, -⟩
    · exact h.reads handle id hold
    · obtain ⟨definition, hdefinition, hholds⟩ := hnode.reads id heq.symm
      exact ⟨definition, hdefinition, hindex ▸ hholds⟩
  · intro expression handle hhit
    obtain ⟨id, hread, hdefinition⟩ := h.temporaries expression handle hhit
    exact ⟨id, hext.nodes handle _ hread, hdefinition⟩

theorem internInput_yields (h : program.WellFormed) (name : String) :
    Yields (onArena (Arena.internInput name)) program fun id program' =>
      program.Stores program' ∧ program'.arena.inputName? id = some name :=
  ⟨⟨Arena.withInput_extends name, rfl, Arena.withInput_wellFormed h.arena name, h.reads,
    h.temporaries⟩, Interner.value?_intern h.arena.inputs_inverse name⟩

/-- Statements do not take part in the values of expressions. -/
theorem emit_yields (h : program.WellFormed) (statement : Statement) :
    Yields (emit statement) program fun _ program' => program.Stores program' :=
  ⟨.refl program.arena, rfl, h.arena, h.reads, h.temporaries⟩

theorem WellFormed.define_more (h : program.WellFormed) (harena : program'.arena = program.arena)
    (htemporaries : program'.temporaries = program.temporaries)
    (hdefinitions : ∀ id definition, program.definition? id = some definition →
      program'.definition? id = some definition) :
    program.Extends program' ∧ program'.WellFormed := by
  refine ⟨⟨harena ▸ .refl program.arena, hdefinitions⟩, harena ▸ h.arena, ?_, ?_⟩
  · intro handle id hread
    rw [harena] at hread
    obtain ⟨definition, hdefinition, hlt⟩ := h.reads handle id hread
    exact ⟨definition, hdefinitions id definition hdefinition, hlt⟩
  · intro expression handle hhit
    rw [htemporaries] at hhit
    obtain ⟨id, hread, hdefinition⟩ := h.temporaries expression handle hhit
    rw [harena]
    exact ⟨id, hread, hdefinitions id expression hdefinition⟩

theorem definition?_size : program.definition? program.declared.size = none := by
  have hout : program.variableAt? program.declared.size = none := Array.getElem?_size
  rw [definition?, hout, Option.bind_none]

theorem definition?_push {v : Variable} (hv : v.definition? = none)
    (hdeclared : program'.declared = program.declared.push v) (id : Nat) :
    program'.definition? id = program.definition? id := by
  rw [definition?, variableAt?, hdeclared, Array.getElem?_push]
  split
  · rename_i hid
    rw [hid, definition?_size, Option.bind_some, hv]
  · rfl

theorem definition?_modify {id : Nat} {definition : Handle}
    (hdeclared : program'.declared =
      program.declared.modify id fun v => { v with definition? := some definition }) (other : Nat) :
    program'.definition? other = if other = id ∧ id < program.declared.size then some definition
      else program.definition? other := by
  rw [definition?, variableAt?, hdeclared, Array.getElem?_modify]
  by_cases hid : id = other
  · subst hid
    rw [if_pos rfl]
    by_cases hlt : id < program.declared.size
    · rw [if_pos ⟨rfl, hlt⟩, Array.getElem?_eq_getElem hlt]
      rfl
    · rw [if_neg fun h => hlt h.2, definition?, variableAt?, Array.getElem?_eq_none (by omega)]
      rfl
  · rw [if_neg hid, if_neg fun h => hid h.1.symm]
    rfl

theorem WellFormed.push (h : program.WellFormed) {v : Variable} (hv : v.definition? = none)
    (harena : program'.arena = program.arena)
    (htemporaries : program'.temporaries = program.temporaries)
    (hdeclared : program'.declared = program.declared.push v) :
    program.Extends program' ∧ program'.WellFormed ∧ program'.IsOpen program.declared.size ∧
      ∀ other, program.IsOpen other → other ≠ program.declared.size ∧ program'.IsOpen other := by
  have hsame := definition?_push hv hdeclared
  have hsize : program'.declared.size = program.declared.size + 1 := by
    rw [hdeclared, Array.size_push]
  have hmore := h.define_more harena htemporaries fun id d hd => (hsame id).trans hd
  refine ⟨hmore.1, hmore.2, ⟨?_, (hsame _).trans definition?_size⟩, fun other hopen => ?_⟩
  · rw [hsize]
    exact Nat.lt_succ_self _
  · refine ⟨Nat.ne_of_lt hopen.id_lt, ?_, (hsame other).trans hopen.definition?_eq_none⟩
    rw [hsize]
    exact Nat.lt_succ_of_lt hopen.id_lt

theorem WellFormed.modify (h : program.WellFormed) {id : Nat} (hid : program.IsOpen id)
    {definition : Handle} (harena : program'.arena = program.arena)
    (htemporaries : program'.temporaries = program.temporaries)
    (hdeclared : program'.declared =
      program.declared.modify id fun v => { v with definition? := some definition }) :
    program.Extends program' ∧ program'.WellFormed ∧ program'.definition? id = some definition ∧
      ∀ other, other ≠ id → program.IsOpen other → program'.IsOpen other := by
  have hdefined := definition?_modify hdeclared
  have hother : ∀ other, other ≠ id → program'.definition? other = program.definition? other :=
    fun other hne => (hdefined other).trans (if_neg fun h => hne h.1)
  have hkept : ∀ other d, program.definition? other = some d →
      program'.definition? other = some d := by
    intro other d hd
    -- The variable had no definition, so it is another one that had one.
    have hne : other ≠ id := by
      rintro rfl
      rw [hid.definition?_eq_none] at hd
      cases hd
    exact (hother other hne).trans hd
  have hmore := h.define_more harena htemporaries hkept
  refine ⟨hmore.1, hmore.2, (hdefined id).trans (if_pos ⟨rfl, hid.id_lt⟩), ?_⟩
  intro other hne hopen
  refine ⟨?_, (hother other hne).trans hopen.definition?_eq_none⟩
  rw [hdeclared, Array.size_modify]
  exact hopen.id_lt

theorem newVariable_yields (h : program.WellFormed) (hint : String) :
    Yields (newVariable hint) program fun id program' =>
      program.Extends program' ∧ program'.WellFormed ∧ program'.IsOpen id ∧
        ∀ other, program.IsOpen other → other ≠ id ∧ program'.IsOpen other :=
  h.push rfl rfl rfl rfl

/-- Completing an open variable defines it, and leaves the other variables alone. -/
theorem define_yields (h : program.WellFormed) {id : Nat} (hid : program.IsOpen id)
    (definition : Handle) :
    Yields (define id definition) program fun _ program' =>
      program.Extends program' ∧ program'.WellFormed ∧ program'.definition? id = some definition ∧
        ∀ other, other ≠ id → program.IsOpen other → program'.IsOpen other :=
  h.modify hid rfl rfl rfl

end Program

end Clifford
