import Clifford.Error
import Clifford.Target

/-!
# Accumulators

An accumulator collects the signed terms of one scalar. Terms without a symbol are added up as
they come; the others go to the target, which opens storage for the scalar at the first of them.
Reading the value freezes the accumulator.

## Main definitions

- `Emission` — computations that drive a target and may fail
- `Cell` — a scalar that still takes terms, with `Cell.add` and `Cell.close`
- `Accumulator` — a cell, or the value that was read from it

## Design notes

Adding to a cell cannot fail; only an accumulator can be frozen. Code that opens and closes a
scalar by itself uses cells and has no failure to propagate.
-/

namespace Clifford

/-- Computations that drive a target with state `σ` and may fail. What was emitted before a
failure stays emitted. -/
abbrev Emission (σ K : Type) := ExceptT (AlgebraError K) (StateM σ)

/-- A scalar that still takes terms: the sum of the terms without symbols, and the storage that
the target has opened for the others. -/
structure Cell (K V : Type) where
  /-- The hint for the name of the scalar. -/
  name : String
  /-- The sum of the terms without symbols. -/
  total : K
  /-- The storage for terms with symbols, once there is one. -/
  var? : Option V

namespace Cell

variable {σ K S V : Type} [Number K] [Target σ K S V]

/-- A scalar without terms. -/
def empty (name : String) : Cell K V := ⟨name, 0, none⟩

/-- The storage of a scalar, opened if need be, and whether it was opened just now. -/
def storage (h : Nonempty S) (cell : Cell K V) : StateM σ (V × Bool) :=
  match cell.var? with
  | some v => pure (v, false)
  | none => do
    let v ← Target.makeVar h cell.name
    pure (v, true)

/-- Adds a term, or its negation. A term with a literal zero is ignored. -/
def add (cell : Cell K V) (term : Term K S) (negate : Bool) : StateM σ (Cell K V) :=
  if term.hasZero then pure cell
  else match h : term.product? with
    | some p => pure { cell with total := if negate then cell.total - p else cell.total + p }
    | none => do
      let (v, init) ← cell.storage (Term.nonempty_of_product?_eq_none h)
      let v ← Target.emitTerm v term negate init
      pure { cell with var? := some v }

/-- The value of a scalar. If the target has storage for it, the sum of the numbers goes there as
a last term unless it is zero, and the value is the target's symbol; otherwise it is the sum. -/
def close (cell : Cell K V) : StateM σ (Factor K S) :=
  match cell.var? with
  | none => pure (.number cell.total)
  | some v => do
    let v ←
      if Number.isZero cell.total then pure v
      else Target.emitTerm v [.number cell.total] false false
    let s ← Target.finishVar v
    pure (.symbol s)

/-- The scalar with the given terms, in this order. -/
def sum (name : String) (terms : List (Term K S × Bool)) : StateM σ (Factor K S) := do
  let cell ← terms.foldlM (fun cell (term, negate) => add cell term negate) (empty name)
  cell.close

end Cell

/-- A scalar that takes terms until its value is read. -/
inductive Accumulator (K S V : Type) where
  /-- The scalar still takes terms. -/
  | building (cell : Cell K V)
  /-- The value has been read. -/
  | frozen (name : String) (value : Factor K S)

namespace Accumulator

variable {σ K S V : Type} [Number K] [Target σ K S V]

/-- An accumulator without terms. -/
def new (name : String) : Accumulator K S V := .building (.empty name)

/-- The hint for the name of the scalar. -/
def name : Accumulator K S V → String
  | building cell => cell.name
  | frozen name _ => name

/-- Whether the value has been read. -/
def isFrozen : Accumulator K S V → Bool
  | building _ => false
  | frozen _ _ => true

/-- Adds a term, or its negation. Fails once the value has been read. -/
def add : Accumulator K S V → Term K S → Bool → Emission σ K (Accumulator K S V)
  | building cell, term, negate => do
    let cell ← (cell.add term negate : StateM σ (Cell K V))
    pure (.building cell)
  | frozen name _, _, _ => throw (.frozenAccumulator name)

/-- The value, and the accumulator frozen with it. -/
def value : Accumulator K S V → StateM σ (Factor K S × Accumulator K S V)
  | building cell => do
    let value ← cell.close
    pure (value, .frozen cell.name value)
  | frozen name value => pure (value, .frozen name value)

end Accumulator

end Clifford
