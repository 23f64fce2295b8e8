import Clifford.Metric
import Clifford.Multivector

/-!
# Geometric algebras

An algebra consists of a diagonal metric, a table of blade names, and settings. It never changes;
all operations on its multivectors drive a target while they build their result.

## Main definitions

- `Settings` — the choices that operations respect
- `Algebra` — a metric with names for its blades
- `Algebra.create` — an algebra, if the names fit the metric
- `Algebra.build` — the multivector with given contributions
- `Algebra.markUnit` — states that the norm is one, and verifies it if asked to

## Design notes

A target is told nothing about an operation before its operands have been checked, with one
exception: operations that only change signs announce themselves first.
-/

namespace Clifford

/-- The choices that operations respect. -/
structure Settings (K : Type) where
  /-- How far from one a norm may be when a result is marked as unit; no verification if absent. -/
  unitTolerance? : Option K := none
  /-- Whether negative squared norms count as zero; otherwise their absolute value is used. -/
  clampNegativeNorm : Bool := true
  /-- Whether operations announce themselves to the target. -/
  comments : Bool := false
  deriving DecidableEq, Repr

/-- The largest number of basis vectors of an algebra: the number of its blades still has to fit
a word. -/
def maxDimension : Nat := 31

/-- A geometric algebra with a diagonal metric. -/
structure Algebra (K S : Type) where
  /-- The identity that its multivectors carry. -/
  id : Nat
  /-- The squares of the basis vectors. -/
  metric : Metric K S
  /-- The name of each blade, at the index of its word. -/
  names : Array String
  /-- The choices that operations respect. -/
  settings : Settings K := {}
  /-- There are not too many basis vectors. -/
  dimension_le : metric.length ≤ maxDimension
  /-- Every blade has a name. -/
  size_names : names.size = Blade.count metric.length

namespace Algebra

variable {σ K S V : Type}

/-- The algebra with a metric and a table of names, if the names fit the metric. -/
def create (id : Nat) (metric : Metric K S) (names : List String) (settings : Settings K) :
    Except (AlgebraError K) (Algebra K S) :=
  if hmetric : metric.length ≤ maxDimension then
    if hnames : names.length = Blade.count metric.length then
      .ok ⟨id, metric, names.toArray, settings, hmetric, by simpa using hnames⟩
    else .error (.nameTableSize (Blade.count metric.length) names.length)
  else .error (.tooManyDimensions maxDimension metric.length)

/-- The number of basis vectors. -/
def dimension (A : Algebra K S) : Nat := A.metric.length

/-- The blade of all basis vectors. -/
def fullBlade (A : Algebra K S) : Blade := .full A.dimension

/-- The name of a blade; a question mark for a blade outside the algebra. -/
def bladeName (A : Algebra K S) (b : Blade) : String := A.names.getD b.toNat "?"

/-- The blade with a name. Of several blades with one name, the last one is meant. -/
def bladeNamed? (A : Algebra K S) (name : String) : Option Blade :=
  ((List.range A.names.size).reverse.find? fun word => A.names[word]? == some name).map
    (BitVec.ofNat 32)

/-- The hint for the name of a blade's coefficient. -/
def cellName (A : Algebra K S) (b : Blade) : String :=
  if b = 0 then "scalar" else A.bladeName b

/-- Whether a multivector belongs to the algebra. -/
def owns (A : Algebra K S) (m : Multivector K S) : Bool := m.owner == A.id

/-- Fails if a multivector belongs to another algebra. -/
def check (A : Algebra K S) (m : Multivector K S) : Emission σ K Unit :=
  if A.owns m then pure () else throw .foreignOperand

/-- The multivector without components. -/
def zero (A : Algebra K S) : Multivector K S := { owner := A.id }

variable [Number K] [Target σ K S V]

/-- A scalar function of factors. -/
def call (f : ScalarFunction) (args : Term K S) : Emission σ K (Factor K S) :=
  ExceptT.lift (Target.call f args)

/-- A binary operator on factors. -/
def combine (op : Operator) (l r : Factor K S) : Emission σ K (Factor K S) :=
  ExceptT.lift (Target.combine op l r)

/-- The scalar with the given terms. -/
def sum (name : String) (terms : List (Term K S × Bool)) : Emission σ K (Factor K S) :=
  ExceptT.lift (Cell.sum name terms)

/-- Announces an operation, if the settings ask for it. -/
def announce (A : Algebra K S) (operation : String) : StateM σ Unit := do
  if A.settings.comments then
    Target.space
    Target.comment operation

/-- Announces an operation, if the settings ask for it, as a step of a computation that may
fail. -/
def annotate (A : Algebra K S) (operation : String) : Emission σ K Unit :=
  ExceptT.lift (A.announce operation)

/-- Adds contributions to a draft. -/
def extend (A : Algebra K S) (draft : Draft K V) (cs : List (Contribution K S)) :
    Emission σ K (Draft K V) :=
  ExceptT.lift (draft.addAll A.cellName cs)

/-- The multivector of a draft. -/
def finish (A : Algebra K S) (draft : Draft K V) : Emission σ K (Multivector K S) :=
  ExceptT.lift do
    let components ← draft.close
    pure { owner := A.id, components }

/-- The multivector with the given contributions, which are emitted in this order. -/
def build (A : Algebra K S) (cs : List (Contribution K S)) : Emission σ K (Multivector K S) := do
  let draft ← A.extend [] cs
  A.finish draft

/-- The square of a coefficient times the square of its blade, if both are numbers. Nothing is
left of a null blade. -/
def numericSquare? (A : Algebra K S) (b : Blade) (value : Factor K S) : Option (Option K) := do
  let x ← value.number?
  match A.metric.factors? b with
  | none => pure none
  | some squares => do
    let square ← Term.product? squares
    pure (some (square * x * x))

/-- The norm, if all coefficients and all squares involved are numbers. -/
def numericNorm? (A : Algebra K S) (m : Multivector K S) : Option K := do
  let squares ← m.components.mapM fun (b, value) => A.numericSquare? b value
  let total := (squares.filterMap fun square => square).foldl (· + ·) 0
  pure (Number.sqrt (Number.abs total))

/-- The multivector, stated to have norm one. If the settings ask for it and the norm is a number,
it is verified. -/
def markUnit (A : Algebra K S) (m : Multivector K S) : Emission σ K (Multivector K S) :=
  match A.settings.unitTolerance?, A.numericNorm? m with
  | some tolerance, some norm =>
    if tolerance < Number.abs (norm - 1) then throw (.notUnit norm)
    else pure (m.withKnownUnit true)
  | _, _ => pure (m.withKnownUnit true)

end Algebra

end Clifford
