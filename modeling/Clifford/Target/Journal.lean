import Clifford.Target
import Clifford.Text.Quoted

/-!
# The journal

A target that only writes down what it is told. Its symbols are names: those of inputs, and
numbered names for what it hands out.

## Main definitions

- `JournalEntry` — one call
- `Journal` — the calls so far
-/

namespace Clifford

/-- Names as symbols. -/
instance : SymbolText String where
  label s := s
  describe := Quoted.text

/-- One call to the journal. -/
inductive JournalEntry (K : Type) where
  /-- A component was opened under a number, with a hint for its name. -/
  | opened (id : Nat) (hint : String)
  /-- A term was added to a component. -/
  | term (id : Nat) (term : Term K String) (negate init : Bool)
  /-- A component was closed. -/
  | closed (id : Nat)
  /-- A function was applied. -/
  | call (result : String) (f : ScalarFunction) (args : Term K String)
  /-- An operator was applied. -/
  | combine (result : String) (op : Operator) (left right : Factor K String)
  /-- A separator. -/
  | space
  /-- A remark. -/
  | comment (text : String)
  deriving DecidableEq, Repr

/-- The calls so far. Whatever is handed out is numbered from one. -/
structure Journal (K : Type) where
  /-- The last number that was handed out. -/
  counter : Nat := 0
  /-- The calls, in order. -/
  entries : Array (JournalEntry K) := #[]
  deriving Repr

namespace Journal

variable {K : Type}

/-- Writes down a call. -/
def record (entry : JournalEntry K) : StateM (Journal K) Unit :=
  modify fun journal => { journal with entries := journal.entries.push entry }

/-- The next number. -/
def next : StateM (Journal K) Nat :=
  modifyGet fun journal =>
    (journal.counter + 1, { journal with counter := journal.counter + 1 })

instance : Target (Journal K) K String Nat where
  makeVar _ hint := do
    let id ← next
    record (.opened id hint)
    pure id
  emitTerm id term negate init := do
    record (.term id term negate init)
    pure id
  finishVar id := do
    record (.closed id)
    pure s!"v{id}"
  applyFunction _ f args := do
    let id ← next
    record (.call s!"f{id}" f args)
    pure s!"f{id}"
  applyOperator _ op left right := do
    let id ← next
    record (.combine s!"t{id}" op left right)
    pure s!"t{id}"
  space := record .space
  comment text := record (.comment text)

end Journal

end Clifford
