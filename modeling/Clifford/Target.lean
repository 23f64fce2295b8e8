import Clifford.Factor
import Clifford.Scalar

/-!
# Targets

A target is what a computation with symbols is compiled for. It keeps a state, hands out
symbols, and is told every term that still has a symbol after numbers have been folded, always in
a fixed order.

## Main definitions

- `Target` — the calls that a target answers
- `Target.call` — a scalar function of factors, folded where all of them are numbers
- `Target.combine` — a binary operator on factors, folded where numbers decide the result
- `Operator.simplify?` — the identities that `combine` uses

## Design notes

The calls that create something take a proof that a symbol exists. Such a call is only made for
the sake of a symbol, so the proof is always at hand, and a target without symbols answers these
calls by having none: for it, the type of a computation shows that numbers stay numbers.
-/

namespace Clifford

/-- The calls that a target with state `σ` answers. Its symbols are `S`; a value of `V` is the
storage of one component while terms are added to it. -/
class Target (σ : Type) (K S V : outParam Type) where
  /-- Opens the storage of a component. The text is a hint for its name. -/
  makeVar : Nonempty S → String → StateM σ V
  /-- Adds a term, or its negation, to a component; `init` marks the first term. -/
  emitTerm : V → Term K S → (negate init : Bool) → StateM σ V
  /-- Closes a component and returns the symbol of its value. -/
  finishVar : V → StateM σ S
  /-- Applies a function to arguments of which at least one is a symbol. -/
  applyFunction : Nonempty S → ScalarFunction → Term K S → StateM σ S
  /-- Applies an operator to operands of which at least one is a symbol. -/
  applyOperator : Nonempty S → Operator → Factor K S → Factor K S → StateM σ S
  /-- Separates what follows from what was emitted before. -/
  space : StateM σ Unit
  /-- Notes a remark. -/
  comment : String → StateM σ Unit

/-- The identities by which an operator with a literal operand is resolved: a product with zero is
zero, a factor or divisor of one is dropped, and so is a summand or subtrahend of zero. -/
def Operator.simplify? {K S : Type} [Number K] :
    Operator → Factor K S → Factor K S → Option (Factor K S)
  | .mul, l, r =>
    if l.isZero || r.isZero then some (.number 0)
    else if l.isOne then some r
    else if r.isOne then some l
    else none
  | .div, l, r => if r.isOne then some l else none
  | .add, l, r => if l.isZero then some r else if r.isZero then some l else none
  | .sub, l, r => if r.isZero then some l else none

namespace Target

variable {σ K S V : Type} [Number K] [Target σ K S V]

/-- The value of a function of factors. Numbers are folded; otherwise the target applies it. -/
def call (f : ScalarFunction) (args : Term K S) : StateM σ (Factor K S) :=
  match h : args.numbers? with
  | some xs => pure (.number (f.eval xs))
  | none => do
    let s ← applyFunction (Term.nonempty_of_numbers?_eq_none h) f args
    pure (.symbol s)

/-- The value of an operator on factors of which one is a symbol. -/
def combineSymbolic (h : Nonempty S) (op : Operator) (l r : Factor K S) :
    StateM σ (Factor K S) :=
  match op.simplify? l r with
  | some f => pure f
  | none => do
    let s ← applyOperator h op l r
    pure (.symbol s)

/-- The value of an operator on factors. Two numbers are folded, literal zeros and ones are
simplified, and otherwise the target applies it. -/
def combine (op : Operator) : Factor K S → Factor K S → StateM σ (Factor K S)
  | .number x, .number y => pure (.number (op.eval x y))
  | .symbol s, r => combineSymbolic ⟨s⟩ op (.symbol s) r
  | l, .symbol s => combineSymbolic ⟨s⟩ op l (.symbol s)

end Target

end Clifford
