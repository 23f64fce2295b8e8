import Std.Data.HashMap

/-!
# Interning

An interner numbers distinct values in the order in which they are first seen, so that they can
be stored once and referred to by number.

## Main definitions

- `Interner` — distinct values and their numbers
- `Interner.intern` — the number of a value, new or old

## Design notes

Numbers have no bound here. An implementation that keeps them in words of 32 bits is described for
as many values as there are such words: of more than `2 ^ 32` values, the last ones would share the
greatest number.
-/

namespace Clifford

/-- Distinct values, numbered from zero in the order in which they were first seen. -/
structure Interner (T : Type) [BEq T] [Hashable T] where
  /-- The values in the order of their numbers. -/
  values : Array T := #[]
  /-- The number of each value. -/
  ids : Std.HashMap T Nat := {}

namespace Interner

variable {T : Type} [BEq T] [Hashable T]

/-- The number of a value, which is added if it was not seen before. -/
def intern (table : Interner T) (value : T) : Nat × Interner T :=
  match table.ids[value]? with
  | some id => (id, table)
  | none =>
    let id := table.values.size
    (id, ⟨table.values.push value, table.ids.insert value id⟩)

/-- The value with a number. -/
def value? (table : Interner T) (id : Nat) : Option T := table.values[id]?

/-- The number of a value, if it was seen. -/
def id? (table : Interner T) (value : T) : Option Nat := table.ids[value]?

/-- Whether a value was seen. -/
def contains (table : Interner T) (value : T) : Bool := table.ids.contains value

/-- How many values were seen. -/
def size (table : Interner T) : Nat := table.values.size

/-- Whether no value was seen. -/
def isEmpty (table : Interner T) : Bool := table.values.isEmpty

end Interner

end Clifford
