import Clifford.Expression.Arena
import Clifford.Target

/-!
# Programs

A program is the record of a computation with symbols: statements that compute variables from
inputs. Components become variables that are assigned once and then added to; the results of
functions and operators become temporaries, of which there is one for each expression.

## Main definitions

- `Statement` — one step of a program
- `Program` — the statements, the variables, and the expressions that both refer to
- `Program.newVariable` — a variable with a name of its own
- `Program.temporary` — the variable that holds an expression
- the instance of `Target` for programs

## Design notes

A variable is named by its hint, or by the hint with a number after it. The numbers are tried in
ascending order until the name is free; since each variable takes one name, a free one is found
among the first numbers, one more than there are variables.

Neither the numbers of variables nor the numbers after hints have a bound. Where both are words of
32 bits, this is right for programs of fewer than `2 ^ 32` variables: each number that was tried
for a hint belongs to a name that is taken, so it is not greater than the number of variables.
-/

namespace Clifford

/-- One step of a program. Variables are referred to by number. -/
inductive Statement where
  /-- Declares the variable of a component with its first term. -/
  | assign (id : Nat) (value : Handle)
  /-- Adds a term to the variable of a component. -/
  | augment (id : Nat) (value : Handle)
  /-- Declares a temporary. -/
  | bind (id : Nat) (value : Handle)
  /-- A separator. -/
  | space
  /-- A remark. -/
  | comment (text : String)
  deriving DecidableEq, Repr

namespace Statement

/-- Whether a statement computes something. -/
def isCode : Statement → Bool
  | assign _ _ | augment _ _ | bind _ _ => true
  | space | comment _ => false

end Statement

/-- A variable of a program. -/
structure Variable where
  /-- The name, which no other variable has. -/
  name : String
  /-- The expression of the value, once it is complete. -/
  definition? : Option Handle := none
  deriving DecidableEq, Repr

/-- A component under construction: its variable and the terms so far. -/
structure Slot where
  /-- The number of the variable. -/
  id : Nat
  /-- The terms, in the order of their addition. -/
  terms : List Handle := []
  deriving DecidableEq, Repr

/-- The record of a computation with symbols. -/
structure Program (K : Type) [Number K] where
  /-- The expressions. -/
  arena : Arena K := {}
  /-- The statements, in order. -/
  statements : Array Statement := #[]
  /-- The variables, in the order of their creation. -/
  declared : Array Variable := #[]
  /-- For each hint, the first number that was not yet tried for a name. -/
  suffixes : Std.HashMap String Nat := {}
  /-- The temporary of each expression that has one. -/
  temporaries : Std.HashMap Handle Handle := {}

namespace Program

variable {K : Type} [Number K]

/-- Runs an action on the expressions of a program. -/
def onArena {α : Type} (action : StateM (Arena K) α) : StateM (Program K) α :=
  modifyGet fun program =>
    let (result, arena) := action.run program.arena
    (result, { program with arena })

/-- Appends a statement. -/
def emit (statement : Statement) : StateM (Program K) Unit :=
  modify fun program => { program with statements := program.statements.push statement }

/-- How many statements compute something. -/
def codeCount (program : Program K) : Nat := program.statements.countP Statement.isCode

/-- Forgets the statements, and keeps everything that was computed from them. -/
def clearStatements (program : Program K) : Program K := { program with statements := #[] }

/-- The variable with a number. -/
def variableAt? (program : Program K) (id : Nat) : Option Variable := program.declared[id]?

/-- Whether a variable has the name. -/
def isTaken (program : Program K) (name : String) : Bool :=
  program.declared.any fun v => v.name == name

/-- The name that is tried at a number: the hint itself at zero, and then the hint with the
number after it. -/
def candidate (hint : String) (number : Nat) : String :=
  if number = 0 then hint else s!"{hint}_{number}"

/-- The first number from `start` on whose name is free. -/
def freeNumber (program : Program K) (hint : String) (start : Nat) : Nat :=
  let tried := (List.range (program.declared.size + 1)).map (start + ·)
  (tried.find? fun number => !program.isTaken (candidate hint number)).getD start

/-- Creates a variable, named after a hint or after `t` if the hint is empty. -/
def newVariable (hint : String) : StateM (Program K) Nat :=
  modifyGet fun program =>
    let hint := if hint.isEmpty then "t" else hint
    let number := program.freeNumber hint (program.suffixes.getD hint 0)
    (program.declared.size, { program with
      declared := program.declared.push { name := candidate hint number }
      suffixes := program.suffixes.insert hint (number + 1) })

/-- Completes a variable with the expression of its value. -/
def define (id : Nat) (definition : Handle) : StateM (Program K) Unit :=
  modify fun program => { program with
    declared := program.declared.modify id fun v => { v with definition? := some definition } }

/-- The expression of a factor. -/
def factorHandle : Factor K Handle → StateM (Program K) Handle
  | .number x => onArena (Arena.number x)
  | .symbol handle => pure handle

/-- The expression of a named input, as a factor. -/
def input (name : String) : StateM (Program K) (Factor K Handle) := do
  let handle ← onArena (Arena.input name)
  pure (.symbol handle)

/-- The variable that holds an expression. It is created, and named after the hint, if the
expression has none yet. -/
def temporary (expression : Handle) (hint : String) : StateM (Program K) Handle := do
  let program ← get
  match program.temporaries[expression]? with
  | some existing => pure existing
  | none =>
    let id ← newVariable hint
    define id expression
    emit (.bind id expression)
    let handle ← onArena (Arena.read id)
    modify fun program => { program with
      temporaries := program.temporaries.insert expression handle }
    pure handle

/-- Opens a component. -/
def openSlot (hint : String) : StateM (Program K) Slot := do
  let id ← newVariable hint
  pure { id }

/-- Adds a term, or its negation, to a component. Factors that are the literal one are left out. -/
def emitTerm (slot : Slot) (term : Term K Handle) (negate init : Bool) :
    StateM (Program K) Slot := do
  let factors ← (term.filter fun f => !f.isOne).mapM factorHandle
  let product ← onArena (Arena.product factors)
  let signed ← if negate then onArena (Arena.negate product) else pure product
  emit (if init then .assign slot.id signed else .augment slot.id signed)
  pure { slot with terms := slot.terms ++ [signed] }

/-- Closes a component: its variable is defined by the sum of the terms. -/
def closeSlot (slot : Slot) : StateM (Program K) Handle := do
  let definition ← onArena (Arena.sum slot.terms)
  define slot.id definition
  onArena (Arena.read slot.id)

/-- A function of factors, as a temporary named after the function. -/
def applyFunction (f : ScalarFunction) (args : Term K Handle) : StateM (Program K) Handle := do
  let args ← args.mapM factorHandle
  let expression ← onArena (Arena.call f args)
  temporary expression f.name

/-- An operator on factors, as a temporary. -/
def applyOperator (op : Operator) (left right : Factor K Handle) :
    StateM (Program K) Handle := do
  let left ← factorHandle left
  let right ← factorHandle right
  let expression ← onArena (Arena.binary op left right)
  temporary expression "t"

instance : Target (Program K) K Handle Slot where
  makeVar _ hint := openSlot hint
  emitTerm := emitTerm
  finishVar := closeSlot
  applyFunction _ f args := applyFunction f args
  applyOperator _ op left right := applyOperator op left right
  space := emit .space
  comment text := emit (.comment text)

end Program

end Clifford
