import Clifford.Proofs.Program.Listing
import Clifford.Proofs.Script.Execution
import Clifford.Proofs.Text.Rational

/-!
# Listings of sessions

The listing of a recorded program, read line by line, gives the name of every complete variable the
value of the variable. This needs that no variable takes the name of an input that a later line
still reads: nothing keeps variables from being named like inputs.

## Main results

- `Session.listing_read_eq_evaluated` — what is read from a listing is what is evaluated
-/

namespace Clifford

variable {K : Type} [Number K] [ExactNumber K]

namespace Session

omit [ExactNumber K] in
/-- Inputs have values in a tidy program, and keep it tidy. -/
theorem supplied_inputs_tidy (values : String → K) (frame : List Slot) :
    (Guarantees.proper (Program.tidyReading fun name => some (values name))).Supplied
      ((Program.tidyReading fun name => some (values name)).framed frame) Program.inputs := by
  rintro name _ ⟨⟩ program ⟨hopen, htidy⟩
  have hlogged := supplied_inputs values frame name _ rfl program hopen
  have hinput : Maintains Program.Tidy (Program.input name : StateM (Program K) _) :=
    .bind (Program.maintains_input name) fun _ => .pure _
  refine Yields.mono (hlogged.and (hinput program htidy)) ?_
  rintro f program' ⟨⟨hadvances, hknown⟩, htidy'⟩
  exact ⟨⟨hadvances.symbols, hadvances.ready, htidy'⟩, hknown⟩

theorem sane_run_tidy (values : String → K) (actions : List (Action K)) :
    (run Program.inputs { workspace := { target := {} } } actions).Sane
      (Program.tidyReading fun name => some (values name)) := by
  have hstart : (Program.tidyReading fun name => some (values name)).Open ({} : Program K) [] :=
    ⟨⟨Program.orderly_empty, .empty⟩, Program.tidy_empty⟩
  exact (Sane.start hstart).run Program.sound_tidyReading.steady
    (supplied_inputs_tidy values) actions

/-- **Reading the listing of a session agrees with evaluating its program.** Whatever was done in a
session and whatever values the inputs have: if all names, numbers and remarks can be read, and no
variable takes the name of an input that a later line reads, then the listing can be read line by
line, where a name stands for an input until a variable with the name is declared. At the end, the
name of every complete variable stands for the value to which an evaluator takes its definition and
every expression that reads the variable, whatever the evaluator was used for before. -/
theorem listing_read_eq_evaluated [Numeral K] (actions : List (Action K)) (values : String → K)
    (literal : String → Option K) (evaluator : Evaluator K) (earlier : Term K Handle)
    (hdiv : ∀ x y z : K, x * (y / z) = x * y / z)
    (hlegible : (recorded actions).Legible literal) (hfree : (recorded actions).CaptureFree) :
    let program := recorded actions
    let bound := { evaluator with program }.bindAll
      (program.inputNames.map fun name => (name, values name))
    let asked := ((Evaluator.factorValues earlier).run bound).2
    ∃ scope, Listing.read literal (program.inputScope values) program.listing = some scope ∧
      ∀ id definition, program.definition? id = some definition →
        ∃ x, scope (program.variableName id) = some x ∧ ∀ handle,
          handle = definition ∨ program.arena.node? handle = some (.read id) →
            ((Evaluator.value handle).run asked).1 = .ok x := by
  intro program bound asked
  obtain ⟨⟨horderly, hlog⟩, htidy⟩ := (sane_run_tidy values actions).ready
  obtain ⟨memory, hexecute, hmemory⟩ := hlog.executed
  obtain ⟨scope, hread, hscope⟩ := Program.read_listing horderly.wellFormed htidy hlegible hdiv
    hlog.disciplined hfree hexecute
  refine ⟨scope, hread, fun id definition hdefinition => ?_⟩
  obtain ⟨x, hx, hid⟩ := hmemory.defined id definition hdefinition
  exact ⟨x, hscope id x hid,
    horderly.wellFormed.value_definition evaluator earlier hdefinition hx⟩

/-! ### A variable with the name of an input -/

/-- A scalar that is named like the input that it is made of. The input is read before the variable
takes its name. -/
def renamed : List (Action ℚ) := [.scalar "x", .add 0 0 [.input "x"] false, .read 0]

/-- The variable of a scalar whose only term is an input. -/
def opened (name hint : String) : StateM (Program ℚ) Slot := do
  let f ← Program.input name
  let slot ← Program.openSlot hint
  Program.emitTerm slot [f] false true

/-- A session in which one scalar is being built. -/
def building (program : Program ℚ) (results : Array (StepResult ℚ Handle)) (cell : Cell ℚ Slot) :
    Session (Program ℚ) ℚ Handle Slot where
  workspace := { target := program, results }
  constructions := [.scalar (.building cell)]

theorem perform_add_input (program : Program ℚ) (results : Array (StepResult ℚ Handle))
    (name hint : String) :
    (building program results ⟨hint, 0, none⟩).perform Program.inputs
        (.add 0 0 [.input name] false) =
      building ((opened name hint).run program).2 (results.push .nothing)
        ⟨hint, 0, some ((opened name hint).run program).1⟩ :=
  rfl

theorem perform_read_slot (program : Program ℚ) (results : Array (StepResult ℚ Handle))
    (hint : String) (slot : Slot) :
    ((building program results ⟨hint, 0, some slot⟩).perform Program.inputs
      (.read 0)).workspace.target = ((Program.closeSlot slot).run program).2 :=
  rfl

theorem run_renamed (program : Program ℚ) :
    (run Program.inputs { workspace := { target := program } } renamed).workspace.target =
      ((Program.closeSlot ((opened "x" "x").run program).1).run
        ((opened "x" "x").run program).2).2 := by
  have hstart : perform Program.inputs { workspace := { target := program } } (.scalar "x") =
      building program #[.nothing] ⟨"x", 0, none⟩ := rfl
  rw [run, renamed, List.foldl_cons, List.foldl_cons, List.foldl_cons, List.foldl_nil, hstart,
    perform_add_input, perform_read_slot]

theorem emitTerm_symbol (program : Program ℚ) (id : Nat) (handle : Handle) :
    (Program.emitTerm { id } [.symbol handle] false true).run program =
      (⟨id, [handle]⟩, { program with
        statements := program.statements.push (.assign id handle) }) :=
  rfl

theorem closeSlot_single (program : Program ℚ) (id : Nat) (handle : Handle) :
    ((Program.closeSlot ⟨id, [handle]⟩).run program).2 = { program with
      declared := program.declared.modify id fun v => { v with definition? := some handle }
      arena := (program.arena.intern (.read id)).2 } :=
  rfl

theorem input_run (program : Program ℚ) (name : String) :
    (Program.input name).run program =
      let inputs := program.arena.inputs.intern name
      let node := ({ program.arena with inputs := inputs.2 } : Arena ℚ).intern (.input inputs.1)
      (.symbol node.1, { program with arena := node.2 }) :=
  rfl

/-- The first variable of a program is named like its hint. -/
theorem openSlot_first (program : Program ℚ) (hdeclared : program.declared = #[])
    (hsuffixes : program.suffixes = ∅) (hint : String) (hhint : hint.isEmpty = false) :
    ∃ suffixes, (Program.openSlot hint).run program = ({ id := 0 }, { program with
      declared := #[{ name := hint }]
      suffixes }) := by
  have hrun : ∀ hint', (if hint.isEmpty then "t" else hint) = hint' →
      (Program.openSlot hint).run program =
        let number := program.freeNumber hint' (program.suffixes.getD hint' 0)
        ({ id := program.declared.size }, { program with
          declared := program.declared.push { name := Program.candidate hint' number }
          suffixes := program.suffixes.insert hint' (number + 1) }) := by
    rintro _ rfl
    rfl
  have hfree : program.freeNumber hint 0 = 0 := by
    simp [Program.freeNumber, Program.isTaken, hdeclared]
  have hname : Program.candidate hint 0 = hint := if_pos rfl
  refine ⟨program.suffixes.insert hint 1, ?_⟩
  rw [hrun hint (if_neg (ne_true_of_eq_false hhint)), hsuffixes, Std.HashMap.getD_empty, hfree]
  dsimp only
  rw [hname, hdeclared]
  rfl

/-- What is recorded for the scalar is one line. -/
theorem recorded_renamed : (∃ handle, (recorded renamed).statements = #[.assign 0 handle]) ∧
    (recorded renamed).inputNames = ["x"] ∧ (recorded renamed).names = ["x"] := by
  obtain ⟨arena, hinput, hvalues⟩ : ∃ arena : Arena ℚ,
      (∃ handle, (Program.input "x").run ({} : Program ℚ) = (.symbol handle, { arena })) ∧
        arena.inputs.values = #["x"] := by
    refine ⟨_, ⟨_, input_run {} "x"⟩, ?_⟩
    rw [Arena.inputs_intern]
    simp [Interner.intern]
  obtain ⟨handle, hinput⟩ := hinput
  obtain ⟨suffixes, hslot⟩ :=
    openSlot_first { arena } rfl rfl "x" (by decide)
  have hopened : (opened "x" "x").run ({} : Program ℚ) = (⟨0, [handle]⟩, {
      arena
      statements := #[.assign 0 handle]
      declared := #[{ name := "x" }]
      suffixes }) := by
    rw [opened, StateT.run_bind, hinput]
    change ((Program.openSlot "x" >>= fun slot =>
      Program.emitTerm slot [.symbol handle] false true).run { arena }) = _
    rw [StateT.run_bind, hslot]
    exact emitTerm_symbol _ 0 handle
  have hrecorded := run_renamed {}
  rw [hopened, closeSlot_single] at hrecorded
  rw [recorded, hrecorded]
  refine ⟨⟨handle, rfl⟩, ?_, rfl⟩
  rw [Program.inputNames]
  dsimp only
  rw [Arena.inputs_intern, hvalues]

theorem legible_renamed : (recorded renamed).Legible Listing.fraction? := by
  obtain ⟨⟨handle, hstatements⟩, hinputs, hnames⟩ := recorded_renamed
  have hx : Listing.IsName "x" := ⟨by decide, by decide⟩
  constructor
  · rw [hinputs]
    exact List.forall_mem_singleton.2 hx
  · rw [hnames]
    exact List.forall_mem_singleton.2 hx
  · exact fun _ x _ => Listing.readsBack_fraction x
  · intro text htext
    rw [hstatements] at htext
    simp at htext

/-- There is only one line, so that none comes after it. -/
theorem captureFree_renamed : (recorded renamed).CaptureFree := by
  intro id input i j _ hreads _
  obtain ⟨⟨handle, hstatements⟩, -⟩ := recorded_renamed
  have hj := hreads.lt_length
  rw [Program.code, hstatements] at hj
  exact (Nat.lt_one_iff.1 hj).trans_le (Nat.zero_le i)

/-- The listing of the scalar can be read, although the scalar takes the name of its input. -/
theorem listing_read_eq_evaluated_renamed :
    (∀ x y z : ℚ, x * (y / z) = x * y / z) ∧
    (recorded renamed).Legible Listing.fraction? ∧ (recorded renamed).CaptureFree ∧
    let program := recorded renamed
    let bound := ({ program } : Evaluator ℚ).bindAll
      (program.inputNames.map fun name => (name, 5))
    let asked := ((Evaluator.factorValues []).run bound).2
    ∃ scope, Listing.read Listing.fraction? (program.inputScope fun _ => 5) program.listing =
        some scope ∧
      ∀ id definition, program.definition? id = some definition →
        ∃ x, scope (program.variableName id) = some x ∧ ∀ handle,
          handle = definition ∨ program.arena.node? handle = some (.read id) →
            ((Evaluator.value handle).run asked).1 = .ok x :=
  have hdiv : ∀ x y z : ℚ, x * (y / z) = x * y / z := fun x y z => (mul_div_assoc x y z).symm
  ⟨hdiv, legible_renamed, captureFree_renamed,
    listing_read_eq_evaluated renamed (fun _ => 5) Listing.fraction? { program := recorded renamed }
      [] hdiv legible_renamed captureFree_renamed⟩

end Session

end Clifford
