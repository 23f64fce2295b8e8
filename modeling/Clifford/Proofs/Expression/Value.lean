import Clifford.Expression.Node

/-!
# Values of nodes

The value of a node is computed by an action that visits its operands. What that action does is
determined by what it does on the input, the variable and the operands that the node has.

## Main definitions

- `Node.value` — the value of a node when all its parts have values

## Main results

- `Node.valueM_congr` — only the parts of a node matter
- `Node.valueM_pure` — when the parts have values, the node has its value
-/

namespace Clifford

variable {m : Type → Type} [Monad m] [LawfulMonad m] {α β : Type}

theorem mapM_congr_of_mem {f g : α → m β} {l : List α} (h : ∀ a ∈ l, f a = g a) :
    l.mapM f = l.mapM g := by
  induction l with
  | nil => rfl
  | cons a rest ih =>
    rw [List.mapM_cons, List.mapM_cons, h a List.mem_cons_self,
      ih fun b hb => h b (List.mem_cons_of_mem a hb)]

namespace Node

variable {K : Type} [Number K]

/-- The value of a node whose input, variable and operands have the given values. -/
def value (inputs reads : Nat → K) (operands : Handle → K) (node : Node K) : K :=
  Id.run (node.valueM (fun id => pure (inputs id)) (fun id => pure (reads id))
    fun child => pure (operands child))

theorem valueM_congr {node : Node K} {inputs inputs' reads reads' : Nat → m K}
    {operands operands' : Handle → m K}
    (hinputs : ∀ id, node = .input id → inputs id = inputs' id)
    (hreads : ∀ id, node = .read id → reads id = reads' id)
    (hoperands : ∀ child ∈ node.children, operands child = operands' child) :
    node.valueM inputs reads operands = node.valueM inputs' reads' operands' := by
  cases node with
  | number x => rfl
  | input id => exact hinputs id rfl
  | read id => exact hreads id rfl
  | negation arg => rw [valueM, valueM, hoperands arg List.mem_cons_self]
  | binary op left right =>
    rw [valueM, valueM, hoperands left List.mem_cons_self,
      hoperands right (List.mem_cons_of_mem left List.mem_cons_self)]
  | sum args | product args | call f args =>
    have hargs : args.mapM operands = args.mapM operands' := mapM_congr_of_mem hoperands
    rw [valueM, valueM, hargs]

theorem valueM_pure (node : Node K) (inputs reads : Nat → K) (operands : Handle → K) :
    node.valueM (fun id => (pure (inputs id) : m K)) (fun id => pure (reads id))
      (fun child => pure (operands child)) = pure (node.value inputs reads operands) := by
  cases node <;> simp [valueM, value]

variable {inputs reads : Nat → K} {operands : Handle → K}

@[simp] theorem value_number (x : K) : (number x).value inputs reads operands = x := rfl

@[simp] theorem value_input (id : Nat) :
    (input id : Node K).value inputs reads operands = inputs id := rfl

@[simp] theorem value_read (id : Nat) :
    (read id : Node K).value inputs reads operands = reads id := rfl

@[simp] theorem value_sum (args : List Handle) :
    (sum args : Node K).value inputs reads operands = (args.map operands).foldl (· + ·) 0 := by
  simp [value, valueM]

@[simp] theorem value_product (args : List Handle) :
    (product args : Node K).value inputs reads operands =
      Number.productFrom 1 (args.map operands) := by
  simp [value, valueM]

@[simp] theorem value_negation (arg : Handle) :
    (negation arg : Node K).value inputs reads operands = -operands arg := rfl

@[simp] theorem value_binary (op : Operator) (left right : Handle) :
    (binary op left right : Node K).value inputs reads operands =
      op.eval (operands left) (operands right) := rfl

@[simp] theorem value_call (f : ScalarFunction) (args : List Handle) :
    (call f args : Node K).value inputs reads operands = f.eval (args.map operands) := by
  simp [value, valueM]

end Node

end Clifford
