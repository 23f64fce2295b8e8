import Clifford.Program

/-!
# Evaluation of programs

The value of an expression when its inputs have values: variables stand for the expressions that
define them.

## Main definitions

- `EvaluationError` — why an expression has no value
- `Program.evaluate` — the value of an expression
- `Evaluator` — bindings of inputs together with the values found so far
- `Evaluator.value` — the value of an expression, which is remembered
- `Evaluator.rounds` — the values of factors while inputs are bound one after another

## Design notes

An expression whose evaluation does not come back to itself passes through each node at most
once on the way down, so the number of nodes bounds the depth of the recursion.
-/

namespace Clifford

/-- Why an expression has no value. -/
inductive EvaluationError where
  /-- An input without a value, or a variable that is not complete, was reached. -/
  | unbound
  /-- The expression is defined by itself. -/
  | circular
  deriving DecidableEq, Repr

namespace Program

variable {K : Type} [Number K]

/-- The value of an input: that of its name. -/
def inputValue {m : Type → Type} [Monad m] [MonadExceptOf EvaluationError m]
    (program : Program K) (valueOf : String → Option K) (id : Nat) : m K :=
  match (program.arena.inputName? id).bind valueOf with
  | some x => pure x
  | none => throw .unbound

/-- The value of a variable: that of the expression that defines it. -/
def readValue {m : Type → Type} [Monad m] [MonadExceptOf EvaluationError m]
    (program : Program K) (operandValue : Handle → m K) (id : Nat) : m K :=
  match (program.variableAt? id).bind Variable.definition? with
  | some definition => operandValue definition
  | none => throw .unbound

/-- The value of the expression with a handle, from those of the handles that it refers to. -/
def step {m : Type → Type} [Monad m] [MonadExceptOf EvaluationError m] (program : Program K)
    (valueOf : String → Option K) (operandValue : Handle → m K) (handle : Handle) : m K :=
  match program.arena.node? handle with
  | none => throw .unbound
  | some node =>
    node.valueM (program.inputValue valueOf) (program.readValue operandValue) operandValue

/-- The value of an expression, computed without going deeper than `depth` nodes. -/
def evaluateWithin (program : Program K) (valueOf : String → Option K) :
    Nat → Handle → Except EvaluationError K
  | 0, _ => .error .circular
  | depth + 1, handle =>
    program.step valueOf (program.evaluateWithin valueOf depth) handle

/-- The depth that suffices for every expression that is not defined by itself. -/
def depth (program : Program K) : Nat := program.arena.size + 1

/-- The value of an expression when inputs have the given values. -/
def evaluate (program : Program K) (valueOf : String → Option K) (handle : Handle) :
    Except EvaluationError K :=
  program.evaluateWithin valueOf program.depth handle

end Program

/-- Values of expressions that were found so far. -/
abbrev Memo (K : Type) := Std.HashMap Handle K

/-- Bindings of inputs, together with the values that were found under them. -/
structure Evaluator (K : Type) [Number K] where
  /-- The program whose expressions are evaluated. -/
  program : Program K
  /-- The values of the inputs by name. -/
  bindings : Std.HashMap String K := {}
  /-- The values found under these bindings. -/
  memo : Memo K := {}

namespace Evaluator

variable {K : Type} [Number K]

/-- Binds several inputs, the later ones winning. What was found under the old bindings is
forgotten. -/
def bindAll (evaluator : Evaluator K) (values : List (String × K)) : Evaluator K :=
  { evaluator with
    bindings := values.foldl (fun bindings (name, x) => bindings.insert name x) evaluator.bindings
    memo := {} }

/-- Binds an input. -/
def bind (evaluator : Evaluator K) (name : String) (x : K) : Evaluator K :=
  evaluator.bindAll [(name, x)]

/-- The value of an expression, computed without going deeper than `depth` nodes. Values are
looked up first and remembered when they are found. -/
def valueWithin (program : Program K) (valueOf : String → Option K) :
    Nat → Handle → ExceptT EvaluationError (StateM (Memo K)) K
  | 0, _ => throw .circular
  | depth + 1, handle => do
    let memo ← get
    match memo[handle]? with
    | some x => pure x
    | none =>
      let x ← program.step valueOf (valueWithin program valueOf depth) handle
      modify (·.insert handle x)
      pure x

/-- The value of an expression. What was found on the way is kept, also when the whole expression
has no value. -/
def value (handle : Handle) : StateM (Evaluator K) (Except EvaluationError K) :=
  modifyGet fun evaluator =>
    let program := evaluator.program
    let (result, memo) :=
      (valueWithin program (evaluator.bindings[·]?) program.depth handle).run.run evaluator.memo
    (result, { evaluator with memo })

/-- The value of a factor. -/
def factorValue : Factor K Handle → StateM (Evaluator K) (Except EvaluationError K)
  | .number x => pure (.ok x)
  | .symbol handle => value handle

/-- The values of several factors. -/
def factorValues (factors : Term K Handle) :
    StateM (Evaluator K) (List (Except EvaluationError K)) :=
  factors.mapM factorValue

/-- The values of several factors, again after each of the given further bindings. -/
def valuesAfter (factors : Term K Handle) (further : List (String × K)) :
    StateM (Evaluator K) (List (List (Except EvaluationError K))) :=
  further.mapM fun (name, x) => do
    modify (bind · name x)
    factorValues factors

/-- The values of several factors under some bindings, and again after each further one. -/
def rounds (factors : Term K Handle) (values further : List (String × K)) :
    StateM (Evaluator K) (List (List (Except EvaluationError K))) := do
  modify (bindAll · values)
  let first ← factorValues factors
  let rest ← valuesAfter factors further
  pure (first :: rest)

end Evaluator

end Clifford
