import Clifford.Proofs.Program.Assembly
import Clifford.Proofs.Script.Requests

/-!
# Which inputs an expression needs

An expression refers to its operands, and an expression that reads a variable refers to the
definition of the variable. Evaluation follows these references. They lead to earlier expressions
only, so evaluation ends, and on its way it comes to every input that can be reached. It succeeds if
all of these are bound. Components that are open or were given up have no definition, but no
expression refers to them.

## Main definitions

- `Program.Refers` — what an expression is evaluated from
- `Program.Needs` — an input that can be reached from an expression
- `Program.HasValue` — evaluation succeeds

## Main results

- `Program.WellFormed.refers_wellFounded` — references come to an end
- `Program.WellFormed.hasValue_iff` — an expression has a value if its inputs are bound
- `Assembly.Reachable.value_isOk_iff` — so it is for every symbol that was handed out
-/

namespace Clifford

/-! ### Success of computations -/

section

variable {ε α β : Type}

theorem Except.bind_eq_ok_iff {c : Except ε α} {k : α → Except ε β} :
    (∃ b, c >>= k = .ok b) ↔ ∃ a, c = .ok a ∧ ∃ b, k a = .ok b := by
  cases c with
  | error e => exact ⟨nofun, nofun⟩
  | ok a =>
    refine ⟨fun h => ⟨a, rfl, h⟩, ?_⟩
    rintro ⟨_, ⟨⟩, h⟩
    exact h

theorem Except.map_eq_ok_iff {c : Except ε α} {f : α → β} :
    (∃ b, (do let a ← c; pure (f a)) = Except.ok b) ↔ ∃ a, c = .ok a := by
  refine bind_eq_ok_iff.trans (exists_congr fun a => ?_)
  exact and_iff_left ⟨f a, rfl⟩

theorem Except.mapM_eq_ok_iff {f : α → Except ε β} {l : List α} :
    (∃ bs, l.mapM f = .ok bs) ↔ ∀ a ∈ l, ∃ b, f a = .ok b := by
  induction l with
  | nil => exact ⟨fun _ => nofun, fun _ => ⟨[], rfl⟩⟩
  | cons a rest ih =>
    rw [List.mapM_cons, List.forall_mem_cons, ← ih, bind_eq_ok_iff]
    simp only [map_eq_ok_iff, exists_and_right]

end

/-- A node has a value if its input, its variable and its operands have values. -/
theorem Node.valueM_eq_ok_iff {K ε : Type} [Number K] {node : Node K}
    {inputs reads : Nat → Except ε K} {operands : Handle → Except ε K} :
    (∃ x, node.valueM inputs reads operands = .ok x) ↔
      (∀ id, node = .input id → ∃ x, inputs id = .ok x) ∧
        (∀ id, node = .read id → ∃ x, reads id = .ok x) ∧
          ∀ child ∈ node.children, ∃ x, operands child = .ok x := by
  cases node with
  | number x => simp [valueM, children, pure, Except.pure]
  | input id => simp [valueM, children]
  | read id => simp [valueM, children]
  | negation arg =>
    rw [valueM, Except.map_eq_ok_iff]
    simp [children]
  | binary op left right =>
    rw [valueM, Except.bind_eq_ok_iff]
    simp only [Except.map_eq_ok_iff, exists_and_right]
    simp [children]
  | sum args | product args | call f args =>
    rw [valueM, Except.map_eq_ok_iff, Except.mapM_eq_ok_iff]
    simp [children]

variable {K : Type} [Number K]

/-! ### References -/

namespace Program

/-- The first expression is evaluated from the second one. -/
inductive Refers (program : Program K) : Handle → Handle → Prop where
  /-- An expression refers to its operands. -/
  | operand {handle child : Handle} {node : Node K} : program.arena.node? handle = some node →
      child ∈ node.children → Refers program handle child
  /-- An expression that reads a variable refers to its definition. -/
  | definition {handle definition : Handle} {id : Nat} :
      program.arena.node? handle = some (.read id) → program.definition? id = some definition →
        Refers program handle definition

/-- References lead from the expression to the input. -/
inductive Needs (program : Program K) (name : String) : Handle → Prop where
  /-- The expression is the input. -/
  | input {handle : Handle} {id : Nat} : program.arena.node? handle = some (.input id) →
      program.arena.inputName? id = some name → Needs program name handle
  /-- The expression refers to one that needs the input. -/
  | refers {handle earlier : Handle} : program.Refers handle earlier →
      Needs program name earlier → Needs program name handle

/-- Evaluation succeeds when inputs have the given values. -/
def HasValue (valueOf : String → Option K) (program : Program K) (handle : Handle) : Prop :=
  ∃ x, program.evaluate valueOf handle = .ok x

variable {program : Program K} {valueOf : String → Option K} {handle earlier : Handle} {id : Nat}

theorem inputValue_eq_ok_iff :
    (∃ x, (program.inputValue valueOf id : Except EvaluationError K) = .ok x) ↔
    ∃ name, program.arena.inputName? id = some name ∧ ∃ x, valueOf name = some x := by
  rw [inputValue]
  cases program.arena.inputName? id with
  | none => simp [throw, throwThe, MonadExceptOf.throw]
  | some name =>
    rw [Option.bind_some]
    cases hx : valueOf name with
    | none => simp [hx, throw, throwThe, MonadExceptOf.throw]
    | some x => simp [hx, pure, Except.pure]

namespace WellFormed

/-- References lead to earlier expressions. -/
theorem refers_lt (h : program.WellFormed) (hrefers : program.Refers handle earlier) :
    earlier.index < handle.index := by
  cases hrefers with
  | operand hnode hchild => exact h.arena.children_lt handle _ hnode earlier hchild
  | definition hnode hdefinition =>
    obtain ⟨definition, hdefinition', hlt⟩ := h.reads handle _ hnode
    rw [hdefinition] at hdefinition'
    obtain rfl := Option.some.inj hdefinition'
    exact hlt

/-- **References come to an end.** -/
theorem refers_wellFounded (h : program.WellFormed) :
    WellFounded fun earlier handle => program.Refers handle earlier :=
  Subrelation.wf (fun hrefers => h.refers_lt hrefers) (InvImage.wf Handle.index Nat.lt_wfRel.wf)

/-- One step of evaluation succeeds if the input is bound, and what the expression refers to has
values. -/
theorem hasValue_step_iff (h : program.WellFormed) {node : Node K}
    (hnode : program.arena.node? handle = some node) :
    program.HasValue valueOf handle ↔
      (∀ id, node = .input id →
        ∃ name, program.arena.inputName? id = some name ∧ ∃ x, valueOf name = some x) ∧
      ∀ earlier, program.Refers handle earlier → program.HasValue valueOf earlier := by
  rw [HasValue, h.evaluate_eq, step, hnode]
  simp only [Node.valueM_eq_ok_iff, inputValue_eq_ok_iff]
  refine and_congr_right fun _ => ⟨?_, fun hearlier => ⟨?_, fun child hchild => ?_⟩⟩
  · rintro ⟨hread, hoperands⟩ earlier hrefers
    cases hrefers with
    | operand hnode' hchild =>
      rw [hnode] at hnode'
      obtain rfl := Option.some.inj hnode'
      exact hoperands earlier hchild
    | definition hnode' hdefinition =>
      rw [hnode] at hnode'
      have hvalue := hread _ (Option.some.inj hnode')
      rwa [readValue, ← definition?, hdefinition] at hvalue
  · rintro id rfl
    obtain ⟨definition, hdefinition, -⟩ := h.reads handle id hnode
    rw [readValue, ← definition?, hdefinition]
    exact hearlier definition (.definition hnode hdefinition)
  · exact hearlier child (.operand hnode hchild)

/-- **An expression has a value if the inputs that it needs are bound**, and only then. -/
theorem hasValue_iff (h : program.WellFormed) (hstored : program.Holds handle) :
    program.HasValue valueOf handle ↔
      ∀ name, program.Needs name handle → ∃ x, valueOf name = some x := by
  induction handle using h.refers_wellFounded.induction with
  | _ handle ih =>
  obtain ⟨node, hnode⟩ := Arena.exists_node? hstored
  have hearlier : ∀ earlier, program.Refers handle earlier →
      (program.HasValue valueOf earlier ↔
        ∀ name, program.Needs name earlier → ∃ x, valueOf name = some x) :=
    fun earlier hrefers => ih earlier hrefers (Nat.lt_trans (h.refers_lt hrefers) hstored)
  rw [h.hasValue_step_iff hnode]
  constructor
  · rintro ⟨hinput, hrefers⟩ name hneeds
    cases hneeds with
    | input hnode' hname =>
      rw [hnode] at hnode'
      obtain ⟨name', hname', hbound⟩ := hinput _ (Option.some.inj hnode')
      rw [hname] at hname'
      obtain rfl := Option.some.inj hname'
      exact hbound
    | refers hedge hneeds => exact (hearlier _ hedge).1 (hrefers _ hedge) name hneeds
  · intro hbound
    refine ⟨?_, fun earlier hedge => (hearlier earlier hedge).2 fun name hneeds => ?_⟩
    · rintro id rfl
      obtain ⟨name, hname⟩ := h.arena.inputs_named handle id hnode
      exact ⟨name, hname, hbound name (.input hnode hname)⟩
    · exact hbound name (.refers hedge hneeds)

end WellFormed

end Program

/-! ### Evaluators -/

namespace Evaluator

variable {evaluator : Evaluator K} {program : Program K}

/-- Whatever an evaluator is asked for, it stays right under its own bindings. -/
theorem right_respond (h : program.WellFormed) (hright : evaluator.Right program evaluator.valueOf)
    (request : Request K) :
    Yields (respond request) evaluator fun _ evaluator' =>
      evaluator'.Right program evaluator'.valueOf := by
  have hbind : ∀ values, (evaluator.bindAll values).Right program
      (evaluator.bindAll values).valueOf := by
    intro values
    have hbound := right_bindAll evaluator values
    rwa [hright.program_eq] at hbound
  have hself : ∀ {evaluator' : Evaluator K}, evaluator'.Right program evaluator.valueOf →
      evaluator'.Right program evaluator'.valueOf := by
    intro evaluator' hright'
    rwa [hright'.valueOf_eq]
  cases request with
  | bind name x => exact hbind [(name, x)]
  | bindAll values => exact hbind values
  | value handle => exact hself (value_yields h hright handle).2
  | factor f => exact hself (factorValue_yields h hright f).2

theorem right_respondAll (h : program.WellFormed)
    (hright : evaluator.Right program evaluator.valueOf) (requests : List (Request K)) :
    Yields (respondAll requests) evaluator fun _ evaluator' =>
      evaluator'.Right program evaluator'.valueOf := by
  induction requests generalizing evaluator with
  | nil => exact .pure hright
  | cons request rest ih =>
    rw [respondAll, List.mapM_cons]
    refine Yields.bind (Yields.mono (right_respond h hright request) fun answer evaluator₁ h₁ => ?_)
    exact Yields.bind (Yields.mono (ih h₁) fun answers evaluator₂ h₂ => .pure h₂)

end Evaluator

/-! ### Assemblies -/

namespace Assembly

variable {assembly : Assembly K}

/-- Calls that are given no symbol can be made at any time. -/
theorem Reachable.run_free (h : assembly.Reachable) {calls : List (Program.Call K)}
    (hcalls : ∀ call ∈ calls, call.factors = []) : (assembly.run calls).Reachable := by
  induction calls generalizing assembly with
  | nil => exact h
  | cons call rest ih =>
    obtain ⟨hfirst, hrest⟩ := List.forall_mem_cons.1 hcalls
    refine ih (h.perform fun symbol hsymbol => ?_) hrest
    rw [hfirst] at hsymbol
    cases hsymbol

/-- **Evaluation ends, and fails only on inputs that are not bound.** Whatever calls led to a
program, with symbols that were handed out before, and whichever components are still open or were
given up: references come to an end, and whatever an evaluator was asked before, every symbol that
was handed out has a value exactly if all inputs are bound that can be reached from it, and it never
fails to have one because it would be defined by itself. -/
theorem Reachable.value_isOk_iff (h : assembly.Reachable) :
    (WellFounded fun earlier handle => assembly.program.Refers handle earlier) ∧
    ∀ symbol ∈ assembly.symbols, ∀ requests : List (Evaluator.Request K),
      let evaluator := ((Evaluator.respondAll requests).run { program := assembly.program }).2
      let result := ((Evaluator.value symbol).run evaluator).1
      ((∃ x, result = .ok x) ↔ ∀ name, assembly.program.Needs name symbol →
        ∃ x, evaluator.valueOf name = some x) ∧ result ≠ .error .circular := by
  have hprogram := h.intact.program.wellFormed
  refine ⟨hprogram.refers_wellFounded, fun symbol hsymbol requests => ?_⟩
  intro evaluator result
  have hright : evaluator.Right assembly.program evaluator.valueOf :=
    Evaluator.right_respondAll hprogram (Evaluator.right_bindAll { program := assembly.program } [])
      requests
  have hresult : result = assembly.program.evaluate evaluator.valueOf symbol :=
    (Evaluator.value_yields hprogram hright symbol).1
  rw [hresult]
  exact ⟨hprogram.hasValue_iff (h.intact.held symbol hsymbol), hprogram.evaluate_ne_circular symbol⟩

/-- Two inputs and a function of both of them, while one component is still open, which holds their
product, and another one was given up. -/
def unfinished : Assembly ℚ :=
  let held := run {} [.input "a", .opens "x", .opens "y", .input "b"]
  let factors := held.symbols.map Factor.symbol
  ((held.perform (.augment 0 factors true true)).perform (.apply .atan2 factors)).run [.abandon 1]

theorem value_isOk_iff_unfinished :
    unfinished.Reachable ∧ unfinished.symbols.length = 3 ∧ unfinished.slots.length = 1 ∧
      ∀ symbol ∈ unfinished.symbols,
        let evaluator :=
          ((Evaluator.respondAll [.value symbol, .bind "a" 2]).run
            { program := unfinished.program }).2
        ((∃ x, ((Evaluator.value symbol).run evaluator).1 = .ok x) ↔
          ∀ name, unfinished.program.Needs name symbol →
            ∃ x, evaluator.valueOf name = some x) := by
  have hreachable : unfinished.Reachable := by
    have hsymbol : ∀ {symbols : List Handle} {symbol : Handle},
        Factor.symbol symbol ∈ symbols.map (Factor.symbol : Handle → Factor ℚ Handle) →
          symbol ∈ symbols := by
      intro symbols symbol h
      simpa using h
    have hheld : (run {} [.input "a", .opens "x", .opens "y", .input "b"] : Assembly ℚ).Reachable :=
      Reachable.start.run_free (by simp [Program.Call.factors])
    unfold unfinished
    refine Reachable.run_free (.perform (.perform hheld fun _ h => ?_) fun _ h => ?_) ?_
    · exact hsymbol h
    · exact hsymbol h
    · simp [Program.Call.factors]
  refine ⟨hreachable, rfl, rfl, fun symbol hsymbol => ?_⟩
  exact ((Reachable.value_isOk_iff hreachable).2 symbol hsymbol _).1

end Assembly

end Clifford
