import Clifford.Proofs.Expression.Tree
import Clifford.Proofs.Program.Value
import Mathlib.Data.List.Induction
import Mathlib.Logic.Function.Basic

/-!
# Execution of programs

A program is a list of commands that declare variables and add to them. They are executed in order
over a memory that holds the values of the variables so far; a command that needs a variable
without a value cannot be executed.

## Main definitions

- `Command` — a statement whose expression is unfolded
- `Memory` — the variables that have a value
- `Command.execute`, `Command.executeAll` — the memory after one command, and after several
- `Disciplined` — every variable is declared once, before it is added to, and before it is read
- `Program.code`, `Program.execute` — the commands of a program, and the memory after all of them

## Main results

- `Disciplined.concat` — what a command may do at the end of a disciplined list
- `Program.WellFormed.value?_tree` — where the memory agrees with the definitions of variables, a
  tree has the value of its expression
-/

namespace Clifford

/-- A statement whose expression is unfolded. Variables and inputs are referred to by number. -/
inductive Command (K : Type) where
  /-- Declares a variable, with a value. -/
  | declare (id : Nat) (value : Tree K)
  /-- Adds a value to a variable. -/
  | augment (id : Nat) (value : Tree K)
  /-- Does nothing. -/
  | skip

/-- The values of the variables that have one. -/
abbrev Memory (K : Type) := Nat → Option K

namespace Command

variable {K : Type}

/-- The command declares the variable. -/
def Declares (id : Nat) : Command K → Prop
  | declare declared _ => declared = id
  | augment _ _ | skip => False

/-- The command adds to the variable. -/
def Augments (id : Nat) : Command K → Prop
  | augment augmented _ => augmented = id
  | declare _ _ | skip => False

/-- The command reads the variable in an expression. -/
def Reads (id : Nat) : Command K → Prop
  | declare _ value | augment _ value => id ∈ value.reads
  | skip => False

/-- The inputs that occur in the command. -/
def inputs : Command K → List Nat
  | declare _ value | augment _ value => value.inputs
  | skip => []

variable [Number K]

/-- The memory after a command, when inputs have the given values. There is none if the command
needs an input or a variable that has no value. -/
def execute (inputs : Nat → Option K) (memory : Memory K) : Command K → Option (Memory K)
  | declare id value => do
    let x ← value.value? inputs memory
    some (Function.update memory id (some x))
  | augment id value => do
    let x ← value.value? inputs memory
    let total ← memory id
    some (Function.update memory id (some (total + x)))
  | skip => some memory

/-- The memory after several commands, which start without any value. -/
def executeAll (inputs : Nat → Option K) (code : List (Command K)) : Option (Memory K) :=
  code.foldlM (execute inputs) fun _ => none

theorem executeAll_concat (inputs : Nat → Option K) (code : List (Command K))
    (command : Command K) : executeAll inputs (code ++ [command]) =
      (executeAll inputs code).bind fun memory => command.execute inputs memory := by
  rw [executeAll, List.foldlM_append]
  refine congrArg (Option.bind _) (funext fun memory => ?_)
  rw [List.foldlM_cons]
  exact bind_pure _

/-- A variable without a value does not get one from a command that does not declare it. -/
theorem declares_of_execute {inputs : Nat → Option K} {memory memory' : Memory K}
    {command : Command K} {id : Nat} (h : command.execute inputs memory = some memory')
    (hid : memory' id ≠ none) : memory id ≠ none ∨ command.Declares id := by
  cases command with
  | declare declared value =>
    obtain ⟨x, -, hmemory⟩ := Option.bind_eq_some_iff.1 h
    obtain rfl := Option.some.inj hmemory
    by_cases heq : id = declared
    · exact .inr heq.symm
    · rw [Function.update_of_ne heq] at hid
      exact .inl hid
  | augment augmented value =>
    obtain ⟨x, -, h⟩ := Option.bind_eq_some_iff.1 h
    obtain ⟨total, htotal, hmemory⟩ := Option.bind_eq_some_iff.1 h
    obtain rfl := Option.some.inj hmemory
    by_cases heq : id = augmented
    · rw [heq, htotal]
      exact .inl (Option.some_ne_none total)
    · rw [Function.update_of_ne heq] at hid
      exact .inl hid
  | skip =>
    obtain rfl := Option.some.inj h
    exact .inl hid

theorem execute_congr {inputs inputs' : Nat → Option K} (memory : Memory K)
    {command : Command K} (h : ∀ id ∈ command.inputs, inputs id = inputs' id) :
    command.execute inputs memory = command.execute inputs' memory := by
  cases command with
  | declare id value | augment id value =>
    rw [execute, execute, Tree.value?_congr h fun _ _ => rfl]
  | skip => rfl

/-- Only the inputs that occur in commands matter. -/
theorem executeAll_congr {inputs inputs' : Nat → Option K} {code : List (Command K)}
    (h : ∀ command ∈ code, ∀ id ∈ command.inputs, inputs id = inputs' id) :
    executeAll inputs code = executeAll inputs' code := by
  rw [executeAll, executeAll]
  generalize (fun _ => none : Memory K) = memory
  induction code generalizing memory with
  | nil => rfl
  | cons command rest ih =>
    obtain ⟨hfirst, hrest⟩ := List.forall_mem_cons.1 h
    rw [List.foldlM_cons, List.foldlM_cons, execute_congr memory hfirst]
    exact congrArg _ (funext fun memory' => ih hrest memory')

end Command

/-! ### Discipline -/

section

variable {K : Type} {code : List (Command K)} {command : Command K} {count count' : Nat}

/-- The command at a place of a list satisfies `P`. -/
def Command.At (code : List (Command K)) (i : Nat) (P : Command K → Prop) : Prop :=
  ∃ command, code[i]? = some command ∧ P command

/-- Commands on the variables with numbers below `count`: each is declared by exactly one command,
which precedes all that add to it and all that read it, and no variable is added to once it was
read. -/
structure Disciplined (count : Nat) (code : List (Command K)) : Prop where
  /-- Every variable is declared exactly once. -/
  declared_once : ∀ id < count, ∃! i, Command.At code i (Command.Declares id)
  /-- The declaration comes before additions. -/
  declared_before_augmented : ∀ id i j, Command.At code i (Command.Declares id) →
    Command.At code j (Command.Augments id) → i < j
  /-- The declaration comes before reading. -/
  declared_before_read : ∀ id i j, Command.At code i (Command.Declares id) →
    Command.At code j (Command.Reads id) → i < j
  /-- Additions come before reading. -/
  augmented_before_read : ∀ id i j, Command.At code i (Command.Augments id) →
    Command.At code j (Command.Reads id) → i < j
  /-- There are no other variables. -/
  id_lt : ∀ id i, Command.At code i (fun c => c.Declares id ∨ c.Augments id ∨ c.Reads id) →
    id < count

namespace Command.At

variable {P Q : Command K → Prop} {i : Nat}

theorem mono (h : At code i P) (hPQ : ∀ c, P c → Q c) : At code i Q := by
  obtain ⟨c, hc, hP⟩ := h
  exact ⟨c, hc, hPQ c hP⟩

theorem lt_length (h : At code i P) : i < code.length := by
  obtain ⟨c, hc, -⟩ := h
  exact (List.getElem?_eq_some_iff.1 hc).1

theorem concat_iff : At (code ++ [command]) i P ↔ At code i P ∨ i = code.length ∧ P command := by
  constructor
  · rintro ⟨c, hc, hP⟩
    rcases Nat.lt_trichotomy i code.length with hlt | rfl | hgt
    · rw [List.getElem?_append_left hlt] at hc
      exact .inl ⟨c, hc, hP⟩
    · rw [List.getElem?_concat_length] at hc
      exact .inr ⟨rfl, Option.some.inj hc ▸ hP⟩
    · have hout : (code ++ [command])[i]? = none := by
        rw [List.getElem?_eq_none_iff, List.length_append, List.length_singleton]
        omega
      rw [hout] at hc
      cases hc
  · rintro (⟨c, hc, hP⟩ | ⟨rfl, hP⟩)
    · exact ⟨c, (List.getElem?_append_left (List.getElem?_eq_some_iff.1 hc).1).trans hc, hP⟩
    · exact ⟨command, List.getElem?_concat_length, hP⟩

end Command.At

/-- Variables have values because they were declared. -/
theorem Command.exists_declares [Number K] {inputs : Nat → Option K} {memory : Memory K} {id : Nat}
    (h : Command.executeAll inputs code = some memory) (hid : memory id ≠ none) :
    ∃ i, Command.At code i (Command.Declares id) := by
  induction code using List.reverseRecOn generalizing memory with
  | nil =>
    obtain rfl := Option.some.inj h
    exact absurd rfl hid
  | append_singleton code command ih =>
    rw [Command.executeAll_concat] at h
    obtain ⟨before, hbefore, hlast⟩ := Option.bind_eq_some_iff.1 h
    rcases Command.declares_of_execute hlast hid with hold | hnew
    · obtain ⟨i, hi⟩ := ih hbefore hold
      exact ⟨i, Command.At.concat_iff.2 (.inl hi)⟩
    · exact ⟨code.length, Command.At.concat_iff.2 (.inr ⟨rfl, hnew⟩)⟩

namespace Disciplined

theorem nil : Disciplined 0 ([] : List (Command K)) where
  declared_once _ h := absurd h (Nat.not_lt_zero _)
  declared_before_augmented _ _ _ h := absurd h.lt_length (Nat.not_lt_zero _)
  declared_before_read _ _ _ h := absurd h.lt_length (Nat.not_lt_zero _)
  augmented_before_read _ _ _ h := absurd h.lt_length (Nat.not_lt_zero _)
  id_lt _ _ h := absurd h.lt_length (Nat.not_lt_zero _)

/-- An order between two kinds of commands is kept by a command at the end, unless it is of the
first kind and there are commands of the second kind. -/
theorem before_concat {P Q : Command K → Prop} (h : ∀ i j, Command.At code i P →
      Command.At code j Q → i < j)
    (hcommand : P command → ¬ Q command ∧ ∀ j, ¬ Command.At code j Q) {i j : Nat}
    (hi : Command.At (code ++ [command]) i P) (hj : Command.At (code ++ [command]) j Q) :
    i < j := by
  rcases Command.At.concat_iff.1 hi with hi | ⟨rfl, hP⟩
  · rcases Command.At.concat_iff.1 hj with hj | ⟨rfl, -⟩
    · exact h i j hi hj
    · exact hi.lt_length
  · rcases Command.At.concat_iff.1 hj with hj | ⟨-, hQ⟩
    · exact absurd hj ((hcommand hP).2 j)
    · exact absurd hQ (hcommand hP).1

/-- **A command at the end of a disciplined list** has to declare the new variables, may read old
ones, and may add to old ones that were not read. -/
theorem concat (h : Disciplined count code) (hcount : count ≤ count')
    (hdeclares : ∀ id, command.Declares id ↔ count ≤ id ∧ id < count')
    (haugments : ∀ id, command.Augments id → id < count ∧ ¬ command.Reads id ∧
      ∀ i, ¬ Command.At code i (Command.Reads id))
    (hreads : ∀ id, command.Reads id → id < count) :
    Disciplined count' (code ++ [command]) where
  declared_once id hid := by
    by_cases hold : id < count
    · obtain ⟨i, hi, hunique⟩ := h.declared_once id hold
      refine ⟨i, Command.At.concat_iff.2 (.inl hi), fun j hj => ?_⟩
      rcases Command.At.concat_iff.1 hj with hj | ⟨-, hnew⟩
      · exact hunique j hj
      · exact absurd hold (Nat.not_lt.2 ((hdeclares id).1 hnew).1)
    · have hnew := (hdeclares id).2 ⟨Nat.not_lt.1 hold, hid⟩
      refine ⟨code.length, Command.At.concat_iff.2 (.inr ⟨rfl, hnew⟩), fun j hj => ?_⟩
      rcases Command.At.concat_iff.1 hj with hj | ⟨hj, -⟩
      · exact absurd (h.id_lt id j (hj.mono fun _ => .inl)) hold
      · exact hj
  declared_before_augmented id i j hi hj := by
    refine before_concat (h.declared_before_augmented id) (fun hnew => ⟨fun hused => ?_, ?_⟩) hi hj
    · exact absurd (haugments id hused).1 (Nat.not_lt.2 ((hdeclares id).1 hnew).1)
    · intro j hj
      exact absurd (h.id_lt id j (hj.mono fun _ hj => .inr (.inl hj)))
        (Nat.not_lt.2 ((hdeclares id).1 hnew).1)
  declared_before_read id i j hi hj := by
    refine before_concat (h.declared_before_read id) (fun hnew => ⟨fun hused => ?_, ?_⟩) hi hj
    · exact absurd (hreads id hused) (Nat.not_lt.2 ((hdeclares id).1 hnew).1)
    · intro j hj
      exact absurd (h.id_lt id j (hj.mono fun _ hj => .inr (.inr hj)))
        (Nat.not_lt.2 ((hdeclares id).1 hnew).1)
  augmented_before_read id i j hi hj :=
    before_concat (h.augmented_before_read id) (fun hnew => (haugments id hnew).2) hi hj
  id_lt id i hi := by
    rcases Command.At.concat_iff.1 hi with hi | ⟨-, hnew | hnew | hnew⟩
    · exact Nat.lt_of_lt_of_le (h.id_lt id i hi) hcount
    · exact ((hdeclares id).1 hnew).2
    · exact Nat.lt_of_lt_of_le (haugments id hnew).1 hcount
    · exact Nat.lt_of_lt_of_le (hreads id hnew) hcount

end Disciplined

end

/-! ### Programs -/

namespace Program

variable {K : Type} [Number K]

/-- The command of a statement. Both kinds of declarations set their variable. -/
def command (program : Program K) : Statement → Command K
  | .assign id value | .bind id value => .declare id (program.arena.tree value)
  | .augment id value => .augment id (program.arena.tree value)
  | .space | .comment _ => .skip

/-- The commands of a program, in order. -/
def code (program : Program K) : List (Command K) := program.statements.toList.map program.command

/-- The memory after all statements of a program, when inputs have the given values. -/
def execute (valueOf : String → Option K) (program : Program K) : Option (Memory K) :=
  Command.executeAll (fun id => (program.arena.inputName? id).bind valueOf) program.code

variable {program : Program K} {valueOf : String → Option K} {handle : Handle}

theorem toOption_mapM {ε α β : Type} (f : α → Except ε β) (l : List α) :
    (l.mapM f).toOption = l.mapM fun a => (f a).toOption := by
  induction l with
  | nil => rfl
  | cons a rest ih =>
    rw [List.mapM_cons, List.mapM_cons, ← ih]
    cases f a with
    | error e => rfl
    | ok b => cases rest.mapM f <;> rfl

theorem toOption_valueM {ε : Type} (node : Node K) (inputs reads : Nat → Except ε K)
    (operands : Handle → Except ε K) : (node.valueM inputs reads operands).toOption =
      node.valueM (fun id => (inputs id).toOption) (fun id => (reads id).toOption)
        fun child => (operands child).toOption := by
  cases node with
  | number x | input id | read id => rfl
  | negation arg =>
    rw [Node.valueM, Node.valueM]
    cases operands arg <;> rfl
  | binary op left right =>
    rw [Node.valueM, Node.valueM]
    cases operands left with
    | error e => rfl
    | ok x => cases operands right <;> rfl
  | sum args | product args | call f args =>
    rw [Node.valueM, Node.valueM, ← toOption_mapM]
    cases args.mapM operands <;> rfl

namespace WellFormed

/-- The value of a stored expression is that of its node. -/
theorem eval?_eq_valueM (h : program.WellFormed) {node : Node K}
    (hnode : program.arena.node? handle = some node) :
    program.eval? valueOf handle =
      node.valueM (fun id => (program.arena.inputName? id).bind valueOf)
        (fun id => (program.definition? id).bind (program.eval? valueOf))
        (program.eval? valueOf) := by
  rw [eval?, h.evaluate_eq, step, hnode]
  refine (toOption_valueM node _ _ _).trans (Node.valueM_congr (fun id _ => ?_) (fun id _ => ?_)
    fun _ _ => rfl)
  · rw [inputValue]
    cases (program.arena.inputName? id).bind valueOf <;> rfl
  · rw [readValue, ← definition?]
    cases program.definition? id <;> rfl

/-- **A tree has the value of its expression** in a memory that agrees with the definitions. -/
theorem value?_tree (h : program.WellFormed) {memory : Memory K}
    (hmemory : ∀ id definition, program.definition? id = some definition →
      memory id = program.eval? valueOf definition) (handle : Handle) :
    (program.arena.tree handle).value? (fun id => (program.arena.inputName? id).bind valueOf)
      memory = program.eval? valueOf handle := by
  have hvalue : ∀ n (handle : Handle), handle.index = n →
      (program.arena.tree handle).value? (fun id => (program.arena.inputName? id).bind valueOf)
        memory = program.eval? valueOf handle := by
    intro n
    induction n using Nat.strongRecOn with
    | ind n ih =>
      rintro handle rfl
      cases hnode : program.arena.node? handle with
      | none =>
        rw [Arena.tree_of_node?_eq_none hnode, eval?, h.evaluate_eq, Program.step, hnode]
        rfl
      | some node =>
        rw [h.arena.tree_eq hnode, Arena.value?_treeOf, h.eval?_eq_valueM hnode]
        refine Node.valueM_congr (fun _ _ => rfl) ?_ fun child hchild => ?_
        · rintro id rfl
          obtain ⟨definition, hdefinition, -⟩ := h.reads handle id hnode
          rw [hmemory id definition hdefinition, hdefinition]
          rfl
        · exact ih child.index (h.arena.children_lt handle node hnode child hchild) child rfl
  exact hvalue handle.index handle rfl

end WellFormed

end Program

end Clifford
