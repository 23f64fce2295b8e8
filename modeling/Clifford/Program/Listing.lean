import Clifford.Expression.Tree
import Clifford.Program

/-!
# Program listings

The text of a program, one line for each statement.

## Main definitions

- `Program.formula` — the text of an expression
- `Program.listing` — the text of all statements

## Design notes

A variable is declared `let`, or `let mut` if a later statement adds to it. Adding a negation is
written as a subtraction.
-/

namespace Clifford.Program

variable {K : Type} [Number K]

/-- The name of an input in formulas. -/
def inputName (program : Program K) (id : Nat) : String :=
  (program.arena.inputName? id).getD "?"

/-- The name of a variable in formulas. -/
def variableName (program : Program K) (id : Nat) : String :=
  ((program.variableAt? id).map Variable.name).getD "?"

/-- The text of an expression. -/
def formula [Numeral K] (program : Program K) (handle : Handle) : String :=
  (program.arena.tree handle).text program.inputName program.variableName 0

/-- Whether a statement adds to the variable. -/
def isAugmented (program : Program K) (id : Nat) : Bool :=
  program.statements.any fun
    | .augment updated _ => updated == id
    | _ => false

/-- The declaration of a variable. -/
def declaration [Numeral K] (program : Program K) (id : Nat) (value : Handle) : String :=
  let keyword := if program.isAugmented id then "let mut " else "let "
  keyword ++ program.variableName id ++ " = " ++ program.formula value ++ ";"

/-- The line of a statement. -/
def line [Numeral K] (program : Program K) : Statement → String
  | .assign id value | .bind id value => program.declaration id value
  | .augment id value =>
    match (program.arena.node? value).bind Node.negated? with
    | some inner => program.variableName id ++ " -= " ++ program.formula inner ++ ";"
    | none => program.variableName id ++ " += " ++ program.formula value ++ ";"
  | .space => ""
  | .comment text => "// " ++ text

/-- The text of a program. Each line ends with a line break. -/
def listing [Numeral K] (program : Program K) : String :=
  String.join (program.statements.toList.map fun statement => program.line statement ++ "\n")

end Clifford.Program
