import Clifford.Proofs.Number.Rational
import Clifford.Proofs.Program.Evaluator
import Clifford.Proofs.Program.Log
import Clifford.Proofs.Script.Compilation
import Clifford.Proofs.Script.Session

/-!
# Execution of recorded programs

Whatever is done in a session with a program, the statements that it has recorded are a correct
program: they can be executed in order, every variable is declared before it is used and complete
before it is read, and the complete variables get the values of their definitions.

## Main definitions

- `Session.recorded` — the program that a session records

## Main results

- `Session.recorded_execute_eq_evaluated` — executing a recorded program gives every complete
  variable the value that it is evaluated to
-/

namespace Clifford

variable {K : Type} [Number K]

/-- A definition and every expression that reads its variable are evaluated to the value of the
definition, when the inputs are bound to their values. -/
theorem Program.WellFormed.value_definition {program : Program K} (h : program.WellFormed)
    {values : String → K} (evaluator : Evaluator K) (earlier : Term K Handle) {id : Nat}
    {definition : Handle} (hdefinition : program.definition? id = some definition) {x : K}
    (hx : program.eval? (fun name => some (values name)) definition = some x) :
    let bound := { evaluator with program }.bindAll
      (program.inputNames.map fun name => (name, values name))
    let asked := ((Evaluator.factorValues earlier).run bound).2
    ∀ handle, handle = definition ∨ program.arena.node? handle = some (.read id) →
      ((Evaluator.value handle).run asked).1 = .ok x := by
  intro bound asked
  have hbound : bound.Right program bound.valueOf :=
    Evaluator.right_bindAll { evaluator with program } _
  have hasked : asked.Right program bound.valueOf :=
    (Evaluator.factorValues_yields h hbound earlier).2
  have hvalue : ∀ handle, program.eval? (fun name => some (values name)) handle = some x →
      ((Evaluator.value handle).run asked).1 = .ok x := by
    intro handle hx
    rw [(Evaluator.value_yields h hasked handle).1]
    refine (Program.evaluate_congr (fun name hname => ?_) handle).trans
      (Program.evaluate_of_eval? hx)
    exact Evaluator.valueOf_bindAll values (.inl hname)
  rintro handle (rfl | hread)
  · exact hvalue handle hx
  · exact hvalue handle ((h.eval?_read hread hdefinition).trans hx)

namespace Session

/-- The program that a session records, starting from an empty one. -/
def recorded (actions : List (Action K)) : Program K :=
  (run Program.inputs { workspace := { target := {} } } actions).workspace.target

/-- Inputs have values while components are open. -/
theorem supplied_inputs (values : String → K) (frame : List Slot) :
    (Guarantees.proper (Program.logReading fun name => some (values name))).Supplied
      ((Program.logReading fun name => some (values name)).framed frame) Program.inputs := by
  rintro name _ ⟨⟩ program ⟨horderly, hlog⟩
  have hx : some (values name) = some (values name) := rfl
  have hinput := Program.input_yields (β := fun name => some (values name)) horderly.wellFormed hx
  have hsilent : Yields (Program.input name) program fun _ program' =>
      program'.statements = program.statements := rfl
  refine Yields.mono (hinput.and hsilent) ?_
  rintro f program' ⟨⟨hstores, hknown, -⟩, hsame⟩
  have hkeeps := horderly.keeps hstores.toExtends hstores.wellFormed
  have hlog' := hlog.stores horderly hstores hsame
  rw [← hstores.declared] at hlog'
  exact ⟨⟨hkeeps.symbols, horderly.stores hstores, hlog'⟩, hknown⟩

variable [ExactNumber K]

theorem sane_run (values : String → K) (actions : List (Action K)) :
    (run Program.inputs { workspace := { target := {} } } actions).Sane
      (Program.logReading fun name => some (values name)) := by
  have hstart : (Program.logReading fun name => some (values name)).Open ({} : Program K) [] :=
    ⟨Program.orderly_empty, .empty⟩
  exact (Sane.start hstart).run Program.sound_logReading.steady (supplied_inputs values) actions

/-- **Executing a recorded program agrees with evaluating it.** Whatever was done in a session and
whatever values the inputs have, every variable is declared by exactly one statement, which comes
before all that add to it and all that read it, and nothing is added once it was read. The
statements can be executed in order, and then each complete variable holds the value to which an evaluator
takes its definition, and every expression that reads the variable. It does not matter what the
evaluator was used for before, nor which other factors it has been asked for. -/
theorem recorded_execute_eq_evaluated (actions : List (Action K)) (values : String → K)
    (evaluator : Evaluator K) (earlier : Term K Handle) :
    let program := recorded actions
    let bound := { evaluator with program }.bindAll
      (program.inputNames.map fun name => (name, values name))
    let asked := ((Evaluator.factorValues earlier).run bound).2
    Disciplined program.declared.size program.code ∧
      ∃ memory, program.execute (fun name => some (values name)) = some memory ∧
        ∀ id definition, program.definition? id = some definition →
          ∃ x, memory id = some x ∧ ∀ handle,
            handle = definition ∨ program.arena.node? handle = some (.read id) →
              ((Evaluator.value handle).run asked).1 = .ok x := by
  intro program bound asked
  obtain ⟨horderly, hlog⟩ := (sane_run values actions).ready
  obtain ⟨memory, hexecute, hmemory⟩ := hlog.executed
  refine ⟨hlog.disciplined, memory, hexecute, fun id definition hdefinition => ?_⟩
  obtain ⟨x, hx, hid⟩ := hmemory.defined id definition hdefinition
  exact ⟨x, hid, horderly.wellFormed.value_definition evaluator earlier hdefinition hx⟩

/-- Two scalars, of which one is read while the other one is still being built. -/
def interleaved : List (Action ℚ) :=
  [.scalar "x", .scalar "y", .add 0 0 [.input "a", .input "b"] false, .add 1 0 [.input "a"] false,
    .add 1 0 [.number 3] true, .read 1, .add 0 0 [.result 5, .input "a"] true, .read 0]

theorem recorded_execute_eq_evaluated_interleaved :
    let program := recorded interleaved
    let bound := ({ program } : Evaluator ℚ).bindAll
      (program.inputNames.map fun name => (name, 5))
    Disciplined program.declared.size program.code ∧
      ∃ memory, program.execute (fun _ => some 5) = some memory ∧
        ∀ id definition, program.definition? id = some definition →
          ∃ x, memory id = some x ∧ ∀ handle,
            handle = definition ∨ program.arena.node? handle = some (.read id) →
              ((Evaluator.value handle).run bound).1 = .ok x :=
  recorded_execute_eq_evaluated interleaved (fun _ => 5) { program := recorded interleaved } []

end Session

end Clifford
