import Clifford.Proofs.Program.Assembly

/-!
# Names are never issued twice

A name is searched for each variable: the hint is tried first, and then the hint with one number
after the other behind it. Numbers go on where the last search for the hint ended, but the name of a
number may have been issued for another hint, and then it is passed over. There are only as many
names to pass over as there are variables, so the search ends, and what it ends with is new.

## Main definitions

- `Program.Searches` — trying numbers one after the other
- `NamedAfter` — how a name is made of its hint
- `Assembly.hints` — the hints of the variables that calls create

## Main results

- `Program.searches_freeNumber` — the search ends with the number that the program takes
- `Assembly.perform_names` — what one call does to the names
- `Assembly.names_unique` — all names are different, and each of them is made of its hint
-/

namespace Clifford

variable {K : Type} [Number K]

/-- The hint that a name is made of: `t` stands for the empty one. -/
def stem (hint : String) : String := if hint.isEmpty then "t" else hint

/-- The name is the hint, or the hint with a number behind it. -/
def NamedAfter (hint name : String) : Prop :=
  name = stem hint ∨ ∃ number : Nat, 0 < number ∧ name = s!"{stem hint}_{number}"

namespace Program

variable {program : Program K} {hint : String}

theorem namedAfter_candidate (hint : String) (number : Nat) :
    NamedAfter hint (candidate (stem hint) number) := by
  rw [candidate]
  split
  · exact .inl rfl
  · exact .inr ⟨number, by omega, rfl⟩

/-! ### The search -/

/-- The search for a name of a hint that begins with the number `start` ends with the number
`last`: names are tried in ascending order, and those that are taken are passed over. -/
inductive Searches (program : Program K) (hint : String) : Nat → Nat → Prop where
  /-- The first name is free. -/
  | free {start : Nat} :
      program.isTaken (candidate hint start) = false → Searches program hint start start
  /-- The first name is taken, and the search goes on. -/
  | taken {start last : Nat} : program.isTaken (candidate hint start) = true →
      Searches program hint (start + 1) last → Searches program hint start last

/-- A search ends with the first number whose name is free. -/
theorem Searches.of_first {start last : Nat} (hle : start ≤ last)
    (hfree : program.isTaken (candidate hint last) = false)
    (htaken : ∀ number, start ≤ number → number < last →
      program.isTaken (candidate hint number) = true) :
    program.Searches hint start last := by
  obtain ⟨count, rfl⟩ := Nat.exists_eq_add_of_le hle
  induction count generalizing start with
  | zero => exact .free hfree
  | succ count ih =>
    have hshift : start + (count + 1) = start + 1 + count := by omega
    rw [hshift] at hfree htaken ⊢
    have hlater : program.Searches hint (start + 1) (start + 1 + count) :=
      ih (by omega) hfree fun number hnumber hlt => htaken number (by omega) hlt
    exact .taken (htaken start le_rfl (by omega)) hlater

/-- A free number is one of those that are tried, and the names of all numbers before it are
taken. -/
theorem freeNumber_first (program : Program K) (hint : String) (start : Nat) :
    start ≤ program.freeNumber hint start ∧
      program.freeNumber hint start ≤ start + program.declared.size ∧
        ∀ number, start ≤ number → number < program.freeNumber hint start →
          program.isTaken (candidate hint number) = true := by
  unfold freeNumber
  generalize htried : (List.range (program.declared.size + 1)).map (start + ·) = tried
  dsimp only
  cases hfind : tried.find? fun number => !program.isTaken (candidate hint number) with
  | none =>
    exact ⟨le_rfl, Nat.le_add_right _ _, fun number hle hlt => absurd hlt (Nat.not_lt.2 hle)⟩
  | some found =>
    obtain ⟨-, i, hi, hfound, hbefore⟩ := List.find?_eq_some_iff_getElem.1 hfind
    subst htried
    rw [List.length_map, List.length_range] at hi
    rw [List.getElem_map, List.getElem_range] at hfound
    rw [Option.getD_some, ← hfound]
    refine ⟨by omega, by omega, fun number hle hlt => ?_⟩
    obtain ⟨j, rfl⟩ := Nat.exists_eq_add_of_le hle
    simpa using hbefore j (by omega)

/-- **The search ends with the number that the program takes**, after passing over no more names
than there are variables. -/
theorem searches_freeNumber (program : Program K) (hint : String) (start : Nat) :
    program.Searches hint start (program.freeNumber hint start) := by
  obtain ⟨hle, -, htaken⟩ := freeNumber_first program hint start
  refine .of_first hle ?_ htaken
  rw [← Bool.not_eq_true, isTaken_iff]
  exact isTaken_freeNumber program hint start

/-! ### Names after a call -/

theorem newVariable_names (program : Program K) (hint : String) :
    ((newVariable hint).run program).2.names = program.names ++ [candidate (stem hint)
      (program.freeNumber (stem hint) (program.suffixes.getD (stem hint) 0))] :=
  (congrArg (List.map Variable.name) Array.toList_push).trans List.map_append

/-- At most one name is added, which is made of the hint. -/
def AddsName (hint : String) (names names' : List String) : Prop :=
  names' = names ∨ ∃ name, NamedAfter hint name ∧ names' = names ++ [name]

variable {names : List String}

theorem keepsNames_onArena {α : Type} (action : StateM (Arena K) α) :
    Maintains (fun program => program.names = names) (onArena action) :=
  fun _ h => h

theorem keepsNames_emit (statement : Statement) :
    Maintains (fun program : Program K => program.names = names) (emit statement) :=
  fun _ h => h

theorem keepsNames_define (id : Nat) (definition : Handle) :
    Maintains (fun program : Program K => program.names = names) (define id definition) :=
  fun program h => (names_define program id definition).trans h

theorem keepsNames_factorHandle (f : Factor K Handle) :
    Maintains (fun program => program.names = names) (factorHandle f) := by
  cases f with
  | number x => exact keepsNames_onArena _
  | symbol handle => exact .pure handle

theorem keepsNames_emitTerm (slot : Slot) (term : Term K Handle) (negate init : Bool) :
    Maintains (fun program => program.names = names) (emitTerm slot term negate init) := by
  refine .bind (.mapM keepsNames_factorHandle _) fun factors => ?_
  refine .bind (keepsNames_onArena _) fun product => ?_
  have hdone : ∀ signed : Handle, Maintains (fun program : Program K => program.names = names) (do
      emit (if init then .assign slot.id signed else .augment slot.id signed)
      pure { slot with terms := slot.terms ++ [signed] }) := fun signed =>
    .bind (keepsNames_emit _) fun _ => .pure _
  cases negate with
  | false => exact hdone product
  | true => exact .bind (keepsNames_onArena _) hdone

theorem keepsNames_closeSlot (slot : Slot) :
    Maintains (fun program : Program K => program.names = names) (closeSlot slot) :=
  .bind (keepsNames_onArena _) fun definition =>
    .bind (keepsNames_define slot.id definition) fun _ => keepsNames_onArena _

/-- An expression that has no temporary yet gets one, which is named after the hint. -/
theorem temporary_addsName (expression : Handle) (hint : String) :
    Yields (temporary expression hint) program fun _ program' =>
      AddsName hint program.names program'.names := by
  unfold temporary
  refine Yields.bind (Yields.get ?_)
  split
  · exact .pure (.inl rfl)
  · have hrest : ∀ id names, Maintains (fun program : Program K => program.names = names) (do
        define id expression
        emit (.bind id expression)
        let handle ← onArena (Arena.read id)
        modify fun program => { program with
          temporaries := program.temporaries.insert expression handle }
        pure handle) := fun id names =>
      .bind (keepsNames_define id expression) fun _ => .bind (keepsNames_emit _) fun _ =>
        .bind (keepsNames_onArena _) fun handle => .bind (fun _ h => h) fun _ => .pure handle
    have hnames : Yields (newVariable hint) program fun _ program' => program'.names =
        program.names ++ [candidate (stem hint)
          (program.freeNumber (stem hint) (program.suffixes.getD (stem hint) 0))] :=
      newVariable_names program hint
    refine Yields.bind (Yields.mono hnames fun id program₁ h₁ => ?_)
    exact Yields.mono (hrest id _ program₁ h₁) fun _ _ h => .inr ⟨_, namedAfter_candidate hint _, h⟩

theorem applyFunction_addsName (f : ScalarFunction) (args : Term K Handle) :
    Yields (applyFunction f args) program fun _ program' =>
      AddsName f.name program.names program'.names := by
  have hargs : Maintains (fun program' => program'.names = program.names)
      (args.mapM factorHandle) := .mapM keepsNames_factorHandle args
  refine Yields.bind (Yields.mono (hargs program rfl) fun handles program₁ h₁ => ?_)
  refine Yields.bind (Yields.mono (keepsNames_onArena _ program₁ h₁)
    fun expression program₂ h₂ => ?_)
  rw [← h₂]
  exact temporary_addsName expression f.name

theorem applyOperator_addsName (op : Operator) (left right : Factor K Handle) :
    Yields (applyOperator op left right) program fun _ program' =>
      AddsName "t" program.names program'.names := by
  refine Yields.bind (Yields.mono (keepsNames_factorHandle left program rfl)
    fun l program₁ h₁ => ?_)
  refine Yields.bind (Yields.mono (keepsNames_factorHandle right program₁ h₁)
    fun r program₂ h₂ => ?_)
  refine Yields.bind (Yields.mono (keepsNames_onArena _ program₂ h₂)
    fun expression program₃ h₃ => ?_)
  rw [← h₃]
  exact temporary_addsName expression "t"

end Program

/-! ### Names after several calls -/

/-- The hint with which a call asks for a variable, if it may ask for one. -/
def Program.Call.hint? : Program.Call K → Option String
  | opens hint => some hint
  | apply f _ => some f.name
  | combine _ _ _ => some "t"
  | input _ | augment _ _ _ _ | close _ | abandon _ | space | comment _ => none

namespace Assembly

variable {assembly : Assembly K} {call : Program.Call K}

/-- The hint of the variable that a call creates. A function or an operator creates none if its
expression has a variable already. -/
def created (assembly : Assembly K) (call : Program.Call K) : List String :=
  if (assembly.perform call).program.declared.size = assembly.program.declared.size then []
  else call.hint?.toList

/-- The hints of the variables that calls create, in their order. -/
def hints (assembly : Assembly K) : List (Program.Call K) → List String
  | [] => []
  | call :: rest => assembly.created call ++ (assembly.perform call).hints rest

theorem created_eq_nil
    (h : (assembly.perform call).program.names = assembly.program.names) :
    assembly.created call = [] := by
  have hsize := congrArg List.length h
  rw [Program.names, Program.names, List.length_map, List.length_map, Array.length_toList,
    Array.length_toList] at hsize
  exact if_pos hsize

theorem created_eq {name : String}
    (h : (assembly.perform call).program.names = assembly.program.names ++ [name]) :
    assembly.created call = call.hint?.toList := by
  have hsize := congrArg List.length h
  rw [List.length_append, Program.names, Program.names, List.length_map, List.length_map,
    Array.length_toList, Array.length_toList, List.length_singleton] at hsize
  exact if_neg (by omega)

/-- The names of the assembly are kept, and behind them stands one name for each of the hints, in
their order. -/
def AddsNames (assembly : Assembly K) (hints : List String) (names : List String) : Prop :=
  ∃ new, names = assembly.program.names ++ new ∧ List.Forall₂ NamedAfter hints new

theorem names_same (h : (assembly.perform call).program.names = assembly.program.names) :
    assembly.AddsNames (assembly.created call) (assembly.perform call).program.names := by
  rw [created_eq_nil h]
  exact ⟨[], by rw [h, List.append_nil], .nil⟩

theorem names_added {hint : String} (hhint : call.hint? = some hint)
    (h : Program.AddsName hint assembly.program.names (assembly.perform call).program.names) :
    assembly.AddsNames (assembly.created call) (assembly.perform call).program.names := by
  obtain h | ⟨name, hname, h⟩ := h
  · exact names_same h
  · rw [created_eq h, hhint]
    exact ⟨[name], h, .cons hname .nil⟩

/-- **A call keeps all names, and adds one for the variable that it creates.** -/
theorem perform_names (assembly : Assembly K) (call : Program.Call K) :
    assembly.AddsNames (assembly.created call) (assembly.perform call).program.names := by
  cases call with
  | input name => exact names_same rfl
  | opens hint =>
    have hnames := Program.newVariable_names assembly.program hint
    exact names_added rfl (.inr ⟨_, Program.namedAfter_candidate hint _, hnames⟩)
  | augment place term negate init =>
    refine names_same ?_
    rw [Assembly.perform]
    split
    · exact Program.keepsNames_emitTerm _ term negate init _ rfl
    · rfl
  | close place =>
    refine names_same ?_
    rw [Assembly.perform]
    split
    · exact Program.keepsNames_closeSlot _ _ rfl
    · rfl
  | abandon place => exact names_same rfl
  | apply f args => exact names_added rfl (Program.applyFunction_addsName f args)
  | combine op left right => exact names_added rfl (Program.applyOperator_addsName op left right)
  | space => exact names_same rfl
  | comment text => exact names_same rfl

theorem run_names (assembly : Assembly K) (calls : List (Program.Call K)) :
    assembly.AddsNames (assembly.hints calls) (assembly.run calls).program.names := by
  induction calls generalizing assembly with
  | nil => exact ⟨[], (List.append_nil _).symm, .nil⟩
  | cons call rest ih =>
    obtain ⟨new, hnames, hnew⟩ := perform_names assembly call
    obtain ⟨later, hnames', hlater⟩ := ih (assembly.perform call)
    refine ⟨new ++ later, ?_, List.rel_append hnew hlater⟩
    rw [← List.append_assoc, ← hnames]
    exact hnames'

/-- A call keeps the names of variables different, whatever it is given. -/
theorem tidy_perform (h : assembly.program.Tidy) (call : Program.Call K) :
    (assembly.perform call).program.Tidy := by
  cases call with
  | input name => exact Program.maintains_input name _ h
  | opens hint => exact Program.maintains_newVariable hint _ h
  | augment place term negate init =>
    rw [perform]
    split
    · exact Program.maintains_emitTerm _ term negate init _ h
    · exact h
  | close place =>
    rw [perform]
    split
    · exact Program.maintains_closeSlot _ _ h
    · exact h
  | abandon place => exact h
  | apply f args => exact Program.maintains_applyFunction f args _ h
  | combine op left right => exact Program.maintains_applyOperator op left right _ h
  | space => exact Program.maintains_emit .space _ h
  | comment text => exact Program.maintains_emit (.comment text) _ h

theorem tidy_run (h : assembly.program.Tidy) (calls : List (Program.Call K)) :
    (assembly.run calls).program.Tidy := by
  induction calls generalizing assembly with
  | nil => exact h
  | cons call rest ih => exact ih (tidy_perform h call)

/-- **Names are never issued twice.** Whatever calls are made, and whatever they are given: the
names of all variables are different; each of them is the hint with which its variable was asked
for, or that hint with a number behind it; and whatever hint comes next, the search for a free name
ends, after passing over no more names than there are variables, and the name that it ends with is
issued. -/
theorem names_unique (calls : List (Program.Call K)) :
    let assembly : Assembly K := run {} calls
    let program := assembly.program
    program.names.Nodup ∧ List.Forall₂ NamedAfter (hints {} calls) program.names ∧
      ∀ hint : String, ∃ last, let start := program.suffixes.getD (stem hint) 0
        program.Searches (stem hint) start last ∧ last ≤ start + program.declared.size ∧
          (assembly.perform (.opens hint)).program.names =
            program.names ++ [Program.candidate (stem hint) last] := by
  intro assembly program
  refine ⟨(tidy_run Program.tidy_empty calls).names_nodup, ?_, fun hint => ?_⟩
  · obtain ⟨new, hnames, hnew⟩ := run_names {} calls
    rwa [show program.names = new from hnames]
  · generalize hstart : program.suffixes.getD (stem hint) 0 = start
    have hsearch := Program.searches_freeNumber program (stem hint) start
    obtain ⟨-, hbound, -⟩ := Program.freeNumber_first program (stem hint) start
    subst hstart
    exact ⟨_, hsearch, hbound, Program.newVariable_names program hint⟩

end Assembly

end Clifford
