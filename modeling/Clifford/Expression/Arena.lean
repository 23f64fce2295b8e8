import Clifford.Expression.Node
import Clifford.Interner

/-!
# The arena of expressions

The arena stores each node once, so that equal expressions have equal handles. The operands of
sums and products are sorted by handle first, which makes equal expressions of operands in any
order.

## Main definitions

- `Arena` — the nodes, the index from nodes to handles, and the names of inputs
- `Arena.intern` — the handle of a node, new or old
- `Arena.number`, `Arena.input`, `Arena.read`, `Arena.sum`, `Arena.product`, `Arena.negate`,
  `Arena.binary`, `Arena.call` — the handle of an expression

## Design notes

The functions that build expressions are actions on the arena, so that several of them can be
written one after the other.
-/

namespace Clifford

/-- Distinct nodes in the order of their allocation. -/
structure Arena (K : Type) [Number K] where
  /-- The nodes, each at the index of its handle. -/
  nodes : Array (Node K) := #[]
  /-- The handle of each node. -/
  index : Std.HashMap (Node K) Handle := {}
  /-- The names of the inputs. -/
  inputs : Interner String := {}

namespace Arena

variable {K : Type} [Number K]

/-- The handle of a node, which is stored if it is new. -/
def intern (arena : Arena K) (node : Node K) : Handle × Arena K :=
  match arena.index[node]? with
  | some handle => (handle, arena)
  | none =>
    let handle : Handle := ⟨arena.nodes.size⟩
    (handle, { arena with
      nodes := arena.nodes.push node
      index := arena.index.insert node handle })

/-- The node with a handle. -/
def node? (arena : Arena K) (handle : Handle) : Option (Node K) := arena.nodes[handle.index]?

/-- The name of an input. -/
def inputName? (arena : Arena K) (id : Nat) : Option String := arena.inputs.value? id

/-- The number of an input. -/
def inputId? (arena : Arena K) (name : String) : Option Nat := arena.inputs.id? name

/-- How many nodes are stored. -/
def size (arena : Arena K) : Nat := arena.nodes.size

/-- Whether no node is stored. -/
def isEmpty (arena : Arena K) : Bool := arena.nodes.isEmpty

/-- Stores a node. -/
def store (node : Node K) : StateM (Arena K) Handle := modifyGet (·.intern node)

/-- The number of an input, which is added if it is new. -/
def internInput (name : String) : StateM (Arena K) Nat :=
  modifyGet fun arena =>
    let (id, inputs) := arena.inputs.intern name
    (id, { arena with inputs })

/-- The expression of a number. -/
def number (x : K) : StateM (Arena K) Handle := store (.ofNumber x)

/-- The expression of a named input. -/
def input (name : String) : StateM (Arena K) Handle := do
  let id ← internInput name
  store (.input id)

/-- The expression of a variable. -/
def read (id : Nat) : StateM (Arena K) Handle := store (.read id)

/-- Handles in ascending order. -/
def sorted (args : List Handle) : List Handle := args.mergeSort fun a b => a.index ≤ b.index

/-- The sum of expressions. The empty sum is zero, and a sum of one is that one. -/
def sum : List Handle → StateM (Arena K) Handle
  | [] => number 0
  | [arg] => pure arg
  | args => store (.sum (sorted args))

/-- The product of expressions. The empty product is one, and a product of one is that one. -/
def product : List Handle → StateM (Arena K) Handle
  | [] => number 1
  | [arg] => pure arg
  | args => store (.product (sorted args))

/-- The negation of an expression. Two negations cancel. -/
def negate (arg : Handle) : StateM (Arena K) Handle := do
  let arena ← get
  match (arena.node? arg).bind Node.negated? with
  | some inner => pure inner
  | none => store (.negation arg)

/-- An operator on two expressions. -/
def binary (op : Operator) (left right : Handle) : StateM (Arena K) Handle :=
  store (.binary op left right)

/-- A function of expressions. -/
def call (f : ScalarFunction) (args : List Handle) : StateM (Arena K) Handle :=
  store (.call f args)

end Arena

end Clifford
