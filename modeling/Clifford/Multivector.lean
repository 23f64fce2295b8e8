import Clifford.Accumulator
import Clifford.Blade

/-!
# Multivectors

A multivector is a list of blades with coefficients. It is built from contributions, which may
come in any order and several to a blade; the blades are listed in the order in which they are
first touched.

## Main definitions

- `Multivector` — blades with coefficients, and whether the norm is known to be one
- `Contribution` — a signed term for a blade
- `Draft` — a multivector under construction: one cell for each blade touched so far
- `Draft.add`, `Draft.close` — adds a contribution; reads all coefficients
-/

namespace Clifford

/-- Blades with coefficients. All blades that are not listed have the coefficient zero. -/
structure Multivector (K S : Type) where
  /-- The identity of the algebra that it belongs to. -/
  owner : Nat
  /-- The touched blades, in the order of their first contribution. -/
  components : List (Blade × Factor K S) := []
  /-- Whether an operation has established that the norm is one. -/
  knownUnit : Bool := false
  deriving DecidableEq, Repr

namespace Multivector

variable {K S : Type}

/-- The coefficient of a touched blade. -/
def get? (m : Multivector K S) (b : Blade) : Option (Factor K S) := m.components.lookup b

/-- The coefficient of a blade. -/
def value [Number K] (m : Multivector K S) (b : Blade) : Factor K S :=
  (m.get? b).getD (.number 0)

/-- The touched blades, in the order of their first contribution. -/
def blades (m : Multivector K S) : List Blade := m.components.map Prod.fst

/-- How many blades were touched. -/
def size (m : Multivector K S) : Nat := m.components.length

/-- Whether no blade was touched. -/
def isEmpty (m : Multivector K S) : Bool := m.components.isEmpty

/-- The grades of the touched blades, ascending and without repetitions. -/
def grades (m : Multivector K S) : List Nat := (m.blades.map Blade.grade).mergeSort.eraseReps

/-- The components as numbers, if none of the coefficients is a symbol. -/
def numbers? (m : Multivector K S) : Option (List (Blade × K)) :=
  m.components.mapM fun (b, value) => value.number?.map (b, ·)

/-- The same components with another statement about the norm. -/
def withKnownUnit (m : Multivector K S) (knownUnit : Bool) : Multivector K S :=
  { m with knownUnit }

end Multivector

/-- A signed term for a blade. -/
structure Contribution (K S : Type) where
  /-- The blade that the term is added to. -/
  blade : Blade
  /-- The term. -/
  term : Term K S
  /-- Whether the term is subtracted instead. -/
  negate : Bool := false
  deriving DecidableEq, Repr

/-- A multivector under construction: the blades touched so far, each with its cell. -/
abbrev Draft (K V : Type) := List (Blade × Cell K V)

namespace Draft

variable {σ K S V : Type} [Number K] [Target σ K S V]

/-- Adds a contribution. The first one for a blade creates its cell, even if its term is zero. -/
def add (nameOf : Blade → String) (c : Contribution K S) : Draft K V → StateM σ (Draft K V)
  | [] => do
    let cell ← Cell.add (.empty (nameOf c.blade)) c.term c.negate
    pure [(c.blade, cell)]
  | (blade, cell) :: rest =>
    if blade = c.blade then do
      let cell ← cell.add c.term c.negate
      pure ((blade, cell) :: rest)
    else do
      let rest ← add nameOf c rest
      pure ((blade, cell) :: rest)

/-- Adds several contributions, in this order. -/
def addAll (nameOf : Blade → String) (draft : Draft K V) (cs : List (Contribution K S)) :
    StateM σ (Draft K V) :=
  cs.foldlM (fun draft c => add nameOf c draft) draft

/-- The coefficients, read in the order in which the blades were touched. -/
def close (draft : Draft K V) : StateM σ (List (Blade × Factor K S)) :=
  draft.mapM fun (blade, cell) => do
    let value ← cell.close
    pure (blade, value)

end Draft

end Clifford
