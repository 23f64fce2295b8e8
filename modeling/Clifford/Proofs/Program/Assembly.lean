import Clifford.Proofs.Program.Growth

/-!
# Assembling programs

Calls may reach a program in any order: inputs are created, components are opened, receive terms
with anything else in between, and are closed or given up, and functions and operators are applied.
The caller refers to the components that it holds, and to the symbols that it was handed before.

## Main definitions

- `Program.Call` — a call to a program
- `Assembly` — a program, the components that are held, and the symbols that were handed out
- `Assembly.perform`, `Assembly.run` — one call, and several
- `Assembly.Reachable` — what calls lead to whose symbols were handed out before
- `Assembly.Intact` — components are open, and symbols are stored

## Main results

- `Assembly.Intact.perform` — a call with symbols that were handed out keeps an assembly intact
- `Assembly.Reachable.intact` — what can be reached is intact
-/

namespace Clifford

variable {K : Type}

/-- A call to a program. Components are referred to by their place among those that are held. -/
inductive Program.Call (K : Type) where
  /-- Creates an input. -/
  | input (name : String)
  /-- Opens a component. -/
  | opens (hint : String)
  /-- Adds a term to a component, or its negation. -/
  | augment (place : Nat) (term : Term K Handle) (negate init : Bool)
  /-- Closes a component. -/
  | close (place : Nat)
  /-- Gives up a component. Its variable stays without definition. -/
  | abandon (place : Nat)
  /-- Applies a function. -/
  | apply (f : ScalarFunction) (args : Term K Handle)
  /-- Applies an operator. -/
  | combine (op : Operator) (left right : Factor K Handle)
  /-- Emits a separator. -/
  | space
  /-- Emits a remark. -/
  | comment (text : String)

/-- The factors that a call is given. -/
def Program.Call.factors : Program.Call K → Term K Handle
  | augment _ term _ _ | apply _ term => term
  | combine _ left right => [left, right]
  | input _ | opens _ | close _ | abandon _ | space | comment _ => []

variable [Number K]

/-- A program together with what its caller holds. -/
structure Assembly (K : Type) [Number K] where
  /-- The program. -/
  program : Program K := {}
  /-- The components that are held. -/
  slots : List Slot := []
  /-- The symbols that were handed out, in this order. -/
  symbols : List Handle := []

namespace Assembly

/-- Calls the program for a symbol, and goes on with the given components. -/
def obtain (assembly : Assembly K) (action : StateM (Program K) Handle) (slots : List Slot) :
    Assembly K :=
  let (symbol, program) := action.run assembly.program
  { program, slots, symbols := assembly.symbols ++ [symbol] }

/-- Calls the program for a component, which takes its place. -/
def hold (assembly : Assembly K) (action : StateM (Program K) Slot) (place : Slot → List Slot) :
    Assembly K :=
  let (slot, program) := action.run assembly.program
  { assembly with program, slots := place slot }

/-- Calls the program for nothing in return. -/
def emit (assembly : Assembly K) (statement : Statement) : Assembly K :=
  { assembly with program := ((Program.emit statement).run assembly.program).2 }

/-- The assembly after a call. There is nothing to do for a component that is not held. -/
def perform (assembly : Assembly K) : Program.Call K → Assembly K
  | .input name => assembly.obtain (Program.onArena (Arena.input name)) assembly.slots
  | .opens hint => assembly.hold (Program.openSlot hint) fun slot => assembly.slots ++ [slot]
  | .augment place term negate init =>
    match assembly.slots[place]? with
    | some slot => assembly.hold (Program.emitTerm slot term negate init) (assembly.slots.set place)
    | none => assembly
  | .close place =>
    match assembly.slots[place]? with
    | some slot => assembly.obtain (Program.closeSlot slot) (assembly.slots.eraseIdx place)
    | none => assembly
  | .abandon place => { assembly with slots := assembly.slots.eraseIdx place }
  | .apply f args => assembly.obtain (Program.applyFunction f args) assembly.slots
  | .combine op left right => assembly.obtain (Program.applyOperator op left right) assembly.slots
  | .space => assembly.emit .space
  | .comment text => assembly.emit (.comment text)

/-- The assembly after several calls. -/
def run (assembly : Assembly K) (calls : List (Program.Call K)) : Assembly K :=
  calls.foldl perform assembly

/-- All symbols that the call is given were handed out before. -/
def Accepts (assembly : Assembly K) (call : Program.Call K) : Prop :=
  ∀ symbol, Factor.symbol symbol ∈ call.factors → symbol ∈ assembly.symbols

/-- The assemblies that calls lead to if they are given numbers and symbols that were handed out
before. -/
inductive Reachable : Assembly K → Prop where
  | start : Reachable {}
  | perform {assembly : Assembly K} {call : Program.Call K} :
      Reachable assembly → assembly.Accepts call → Reachable (assembly.perform call)

/-- The components that are held are open, and the symbols that were handed out are stored. -/
structure Intact (assembly : Assembly K) : Prop where
  /-- The program is intact. -/
  program : assembly.program.Intact assembly.slots
  /-- The symbols are stored. -/
  held : ∀ symbol ∈ assembly.symbols, assembly.program.Holds symbol

end Assembly

/-- Some of the components of an intact program may be given up. -/
theorem Program.Intact.sublist {program : Program K} {slots fewer : List Slot}
    (h : program.Intact slots) (hfewer : fewer.Sublist slots) : program.Intact fewer where
  wellFormed := h.wellFormed
  nodup := h.nodup.sublist (hfewer.map Slot.id)
  isOpen slot hslot := h.isOpen slot (hfewer.subset hslot)
  held slot hslot := h.held slot (hfewer.subset hslot)

namespace Assembly

variable {assembly : Assembly K} {call : Program.Call K} {slots : List Slot}

namespace Intact

theorem holdsFactor (h : assembly.Intact) (hcall : assembly.Accepts call) :
    ∀ f ∈ call.factors, assembly.program.HoldsFactor f := by
  rintro f hf symbol rfl
  exact h.held symbol (hcall symbol hf)

theorem obtain (h : assembly.Intact) {action : StateM (Program K) Handle}
    (haction : Yields action assembly.program fun symbol program =>
      assembly.program.Continues program ∧ program.Intact slots ∧ program.Holds symbol) :
    (assembly.obtain action slots).Intact := by
  obtain ⟨hcont, hintact, hsymbol⟩ := haction
  refine ⟨hintact, List.forall_mem_append.2 ⟨fun symbol hmem => ?_, ?_⟩⟩
  · exact hcont.toExtends.holds (h.held symbol hmem)
  · exact List.forall_mem_singleton.2 hsymbol

theorem hold (h : assembly.Intact) {action : StateM (Program K) Slot} {place : Slot → List Slot}
    (haction : Yields action assembly.program fun slot program =>
      assembly.program.Continues program ∧ program.Intact (slot :: slots))
    (hplace : ∀ slot, (slot :: slots).Perm (place slot)) :
    (assembly.hold action place).Intact := by
  obtain ⟨hcont, hintact⟩ := haction
  exact ⟨hintact.perm (hplace _), fun symbol hmem => hcont.toExtends.holds (h.held symbol hmem)⟩

theorem emit (h : assembly.Intact) (statement : Statement) : (assembly.emit statement).Intact := by
  obtain ⟨hcont, hintact⟩ := h.program.emit_continues statement
  exact ⟨hintact, fun symbol hmem => hcont.toExtends.holds (h.held symbol hmem)⟩

/-- A component that is held may be listed first. -/
theorem getElem? (h : assembly.Intact) {place : Nat} {slot : Slot}
    (hslot : assembly.slots[place]? = some slot) :
    assembly.program.Intact (slot :: assembly.slots.eraseIdx place) := by
  obtain ⟨hlt, rfl⟩ := List.getElem?_eq_some_iff.1 hslot
  exact h.program.perm (List.getElem_cons_eraseIdx_perm hlt).symm

/-- **A call with symbols that were handed out keeps an assembly intact.** -/
theorem perform (h : assembly.Intact) (hcall : assembly.Accepts call) :
    (assembly.perform call).Intact := by
  have hfactors := h.holdsFactor hcall
  cases call with
  | input name =>
    refine h.obtain (Yields.mono (Program.input_adds h.program.wellFormed name) ?_)
    exact fun _ _ hadded => ⟨hadded.1.continues, h.program.stores hadded.1.toStores, hadded.2⟩
  | opens hint =>
    exact h.hold (Program.openSlot_continues h.program hint) fun slot =>
      List.perm_append_singleton slot assembly.slots |>.symm
  | augment place term negate init =>
    rw [Assembly.perform]
    split
    · rename_i slot hslot
      have hlt := (List.getElem?_eq_some_iff.1 hslot).1
      exact h.hold (Program.emitTerm_continues (h.getElem? hslot) hfactors negate init) fun slot' =>
        (List.set_perm_cons_eraseIdx hlt slot').symm
    · exact h
  | close place =>
    rw [Assembly.perform]
    split
    · rename_i slot hslot
      exact h.obtain (Program.closeSlot_continues (h.getElem? hslot))
    · exact h
  | abandon place => exact ⟨h.program.sublist (List.eraseIdx_sublist _ _), h.held⟩
  | apply f args => exact h.obtain (Program.applyFunction_continues h.program f hfactors)
  | combine op left right =>
    obtain ⟨hleft, hright⟩ := List.forall_mem_cons.1 hfactors
    exact h.obtain (Program.applyOperator_continues h.program op hleft
      (hright right List.mem_cons_self))
  | space => exact h.emit .space
  | comment text => exact h.emit (.comment text)

end Intact

/-- **What can be reached is intact.** -/
theorem Reachable.intact (h : assembly.Reachable) : assembly.Intact := by
  induction h with
  | start => exact ⟨.empty, nofun⟩
  | perform _ hcall ih => exact ih.perform hcall

end Assembly

end Clifford
