import Clifford.Factor
import Clifford.Scalar

/-!
# Expression nodes

An expression is stored as a node whose operands are handles of other nodes.

## Main definitions

- `Handle` — the place of a node in its arena
- `Node` — a number, an input, a variable, or an operation on handles
- `Node.ofNumber` — the node of a number, with one node for both zeros
- `Node.valueM` — the value of a node from the values of its operands

## Design notes

Handles count nodes without a bound. Where a handle is a word of 32 bits, only the first `2 ^ 32`
nodes have handles of their own, and statements about arenas are statements about arenas of at most
that size. The numbers of inputs and variables are limited in the same way.
-/

namespace Clifford

/-- The place of a node in its arena. Handles are ordered by the time of allocation. -/
structure Handle where
  /-- The number of nodes allocated before. -/
  index : Nat
  deriving DecidableEq, Hashable, Repr

instance : Ord Handle where
  compare a b := compare a.index b.index

instance : SymbolText Handle where
  label h := s!"#{h.index}"
  describe h := s!"Expr({h.index})"

/-- A node of an expression. Inputs and variables are referred to by number. -/
inductive Node (K : Type) where
  /-- A literal number. -/
  | number (x : K)
  /-- An input, whose value the user of the program supplies. -/
  | input (id : Nat)
  /-- A variable, whose value a statement of the program computes. -/
  | read (id : Nat)
  /-- A sum. -/
  | sum (args : List Handle)
  /-- A product. -/
  | product (args : List Handle)
  /-- A negation. -/
  | negation (arg : Handle)
  /-- A binary operator. -/
  | binary (op : Operator) (left right : Handle)
  /-- A function. -/
  | call (f : ScalarFunction) (args : List Handle)
  deriving DecidableEq, Hashable, Repr

namespace Node

variable {K : Type}

/-- The node of a number. Zero has one node, whatever its sign. -/
def ofNumber [Number K] (x : K) : Node K := number (if Number.isZero x then 0 else x)

/-- The number, if the node is one. -/
def number? : Node K → Option K
  | number x => some x
  | _ => none

/-- The operand, if the node is a negation. -/
def negated? : Node K → Option Handle
  | negation arg => some arg
  | _ => none

/-- The operands of a node. -/
def children : Node K → List Handle
  | number _ | input _ | read _ => []
  | sum args | product args | call _ args => args
  | negation arg => [arg]
  | binary _ left right => [left, right]

/-- Whether a node is a number, an input or a variable. -/
def isAtom : Node K → Bool
  | number _ | input _ | read _ => true
  | _ => false

/-- The value of a node. The values of inputs, variables and operands are computed by the given
actions, from left to right. Sums start from zero and products from one. -/
def valueM {m : Type → Type} [Monad m] [Number K] (inputValue readValue : Nat → m K)
    (operandValue : Handle → m K) : Node K → m K
  | number x => pure x
  | input id => inputValue id
  | read id => readValue id
  | sum args => do
    let xs ← args.mapM operandValue
    pure (xs.foldl (· + ·) 0)
  | product args => do
    let xs ← args.mapM operandValue
    pure (Number.productFrom 1 xs)
  | negation arg => do
    let x ← operandValue arg
    pure (-x)
  | binary op left right => do
    let x ← operandValue left
    let y ← operandValue right
    pure (op.eval x y)
  | call f args => do
    let xs ← args.mapM operandValue
    pure (f.eval xs)

end Node

end Clifford
