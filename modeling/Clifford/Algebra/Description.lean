import Clifford.Algebra
import Clifford.Text.Quoted

/-!
# Descriptions

Texts for multivectors, and texts that show the structure of a value.

## Main definitions

- `Algebra.format` — a multivector as a formula
- `Algebra.describe` — an algebra with its metric and settings
- `Accumulator.describe` — the name and state of an accumulator
-/

namespace Clifford

variable {K S V : Type}

/-- The text of a truth value. -/
def boolText (b : Bool) : String := if b then "true" else "false"

/-- A value with named fields, where `more` asks for a mark that there are others. -/
def describeFields (name : String) (fields : List (String × String)) (more : Bool) : String :=
  let shown := fields.map fun (field, value) => field ++ ": " ++ value
  let shown := if more then shown ++ [".."] else shown
  name ++ " \x7b " ++ ", ".intercalate shown ++ " \x7d"

/-- The structure of a factor. -/
def Factor.describe [Numeral K] [SymbolText S] : Factor K S → String
  | number x => "Numeric(" ++ Numeral.pointed x ++ ")"
  | symbol s => "Symbolic(" ++ SymbolText.describe s ++ ")"

/-- The structure of settings. -/
def Settings.describe [Numeral K] (settings : Settings K) : String :=
  let tolerance := match settings.unitTolerance? with
    | none => "None"
    | some x => "Some(" ++ Numeral.pointed x ++ ")"
  describeFields "AlgebraConfig"
    [("verify_known_unit", tolerance),
     ("clamp_negative_norm", boolText settings.clampNegativeNorm),
     ("comments", boolText settings.comments)] false

/-- The structure of an accumulator. -/
def Accumulator.describe (accumulator : Accumulator K S V) : String :=
  describeFields "Accumulator"
    [("name", Quoted.text accumulator.name), ("frozen", boolText accumulator.isFrozen)] false

namespace Algebra

/-- The text of an identity. -/
def identityText (id : Nat) : String := s!"AlgebraId({id})"

/-- The structure of an algebra, without its names. -/
def describe [Numeral K] [SymbolText S] (A : Algebra K S) : String :=
  describeFields "Algebra"
    [("id", identityText A.id),
     ("metric", "[" ++ ", ".intercalate (A.metric.map Factor.describe) ++ "]"),
     ("config", A.settings.describe)] true

/-- The text of a component: the coefficient, times the name of its blade unless that is the
scalar one. -/
def formatComponent [Numeral K] [SymbolText S] (A : Algebra K S) (b : Blade)
    (value : Factor K S) : String :=
  if b = 0 then value.text else value.text ++ "*" ++ A.bladeName b

/-- A multivector as a sum of its components. Without components it is zero. -/
def format [Numeral K] [SymbolText S] (A : Algebra K S) (m : Multivector K S) : String :=
  let shown := m.components.map fun (b, value) => A.formatComponent b value
  let joined := " + ".intercalate shown
  if joined.isEmpty then "0" else joined

end Algebra

end Clifford
