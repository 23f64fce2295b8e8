import Clifford.Expression.Arena

/-!
# Expression trees

An expression of the arena unfolds to a tree, in which shared operands are repeated. The text of
an expression is the text of its tree.

## Main definitions

- `Tree` — an expression without sharing
- `Arena.tree` — the tree of a handle
- `Tree.text` — the formula of a tree, with parentheses where they are needed

## Design notes

Operands lie before their node in the arena, so unfolding descends. An operand that does not is
no operand of an expression that the arena has built; it unfolds to `Tree.absent`.
-/

namespace Clifford

/-- An expression without sharing. -/
inductive Tree (K : Type) where
  /-- A literal number. -/
  | number (x : K)
  /-- An input. -/
  | input (id : Nat)
  /-- A variable. -/
  | read (id : Nat)
  /-- A sum. -/
  | sum (args : List (Tree K))
  /-- A product. -/
  | product (args : List (Tree K))
  /-- A negation. -/
  | negation (arg : Tree K)
  /-- A binary operator. -/
  | binary (op : Operator) (left right : Tree K)
  /-- A function. -/
  | call (f : ScalarFunction) (args : List (Tree K))
  /-- No expression of the arena. -/
  | absent

namespace Arena

variable {K : Type} [Number K]

/-- The tree of a node, from the trees of its operands. -/
def treeOf (operand : Handle → Tree K) : Node K → Tree K
  | .number x => .number x
  | .input id => .input id
  | .read id => .read id
  | .sum args => .sum (args.map operand)
  | .product args => .product (args.map operand)
  | .negation arg => .negation (operand arg)
  | .binary op left right => .binary op (operand left) (operand right)
  | .call f args => .call f (args.map operand)

/-- The tree of a handle. -/
def tree (arena : Arena K) (handle : Handle) : Tree K :=
  match arena.node? handle with
  | none => .absent
  | some node =>
    treeOf (fun arg => if arg.index < handle.index then arena.tree arg else .absent) node
termination_by handle.index

end Arena

namespace Tree

variable {K : Type}

/-- How strongly the outermost operation of a tree binds. -/
def strength : Tree K → Nat
  | sum _ | binary .add _ _ | binary .sub _ _ => 1
  | product _ | binary .mul _ _ | binary .div _ _ => 2
  | negation _ => 3
  | _ => 4

/-- A formula, in parentheses if asked for. -/
def enclosed (parentheses : Bool) (formula : String) : String :=
  if parentheses then "(" ++ formula ++ ")" else formula

mutual

/-- The formula of a tree in a place that needs at least the strength `outer`. The operands of
sums and products stand side by side; the right operand of a binary operator and the operand of
a negation need to bind more strongly than the operation. -/
def text [Numeral K] (inputName variableName : Nat → String) (outer : Nat) : Tree K → String
  | number x => Numeral.pointed x
  | input id => inputName id
  | read id => variableName id
  | sum args =>
    enclosed (1 < outer) (" + ".intercalate (texts inputName variableName 1 args))
  | product args =>
    enclosed (2 < outer) (" * ".intercalate (texts inputName variableName 2 args))
  | negation arg => enclosed (3 < outer) ("-" ++ text inputName variableName 4 arg)
  | binary op left right =>
    let own := match op with
      | .add | .sub => 1
      | .mul | .div => 2
    enclosed (own < outer)
      (text inputName variableName own left ++ " " ++ op.token ++ " " ++
        text inputName variableName (own + 1) right)
  | call f args => f.name ++ "(" ++ ", ".intercalate (texts inputName variableName 0 args) ++ ")"
  | absent => "?"

/-- The formulas of several trees in places of the same kind. -/
def texts [Numeral K] (inputName variableName : Nat → String) (outer : Nat) :
    List (Tree K) → List String
  | [] => []
  | tree :: rest =>
    text inputName variableName outer tree :: texts inputName variableName outer rest

end

end Tree

end Clifford
