import Clifford.Number

/-!
# Factors and terms

A coefficient is known as a number, or it is a symbol of the target that the computation is
compiled for. A term is a list of such factors, understood as their product.

## Main definitions

- `Factor` — a number or a symbol
- `Term` — a product of factors
- `Term.numbers?` — the factors as numbers, if none of them is a symbol
- `Term.product?` — the product of a term without symbols
- `SymbolText` — symbols that have a text
-/

namespace Clifford

/-- One multiplicand: a number that is known now, or a symbol of the target. -/
inductive Factor (K S : Type) where
  /-- A known number. -/
  | number (x : K)
  /-- A symbol of the target. -/
  | symbol (s : S)
  deriving DecidableEq, Repr

/-- A product of factors. -/
abbrev Term (K S : Type) := List (Factor K S)

/-- Symbols with a text. -/
class SymbolText (S : Type) where
  /-- The text of a symbol in formulas. -/
  label : S → String
  /-- The text of a symbol in descriptions of a value's structure. -/
  describe : S → String

instance : SymbolText Empty where
  label := nofun
  describe := nofun

namespace Factor

variable {K S : Type}

/-- The number, if the factor is one. -/
def number? : Factor K S → Option K
  | number x => some x
  | symbol _ => none

/-- The symbol, if the factor is one. -/
def symbol? : Factor K S → Option S
  | number _ => none
  | symbol s => some s

/-- Whether the factor is a number. -/
def isNumber : Factor K S → Bool
  | number _ => true
  | symbol _ => false

/-- Whether the factor is the literal zero, of either sign. A symbol never is, whatever value it
will have. -/
def isZero [Number K] : Factor K S → Bool
  | number x => Number.isZero x
  | symbol _ => false

/-- Whether the factor is the literal one. -/
def isOne [Number K] : Factor K S → Bool
  | number x => Number.isOne x
  | symbol _ => false

/-- The text of a factor in formulas. -/
def text [Numeral K] [SymbolText S] : Factor K S → String
  | number x => Numeral.plain x
  | symbol s => SymbolText.label s

end Factor

namespace Term

variable {K S : Type}

/-- The factors as numbers, if none of them is a symbol. -/
def numbers? (term : Term K S) : Option (List K) := term.mapM Factor.number?

/-- The product of a term without symbols, multiplied up from the left. -/
def product? [Number K] (term : Term K S) : Option K :=
  term.numbers?.map (Number.productFrom 1)

/-- Whether a term has a literal zero among its factors. -/
def hasZero [Number K] (term : Term K S) : Bool := term.any Factor.isZero

/-- A term that does not consist of numbers has a symbol. -/
theorem nonempty_of_numbers?_eq_none {term : Term K S} (h : term.numbers? = none) :
    Nonempty S := by
  induction term with
  | nil => simp [numbers?] at h
  | cons f rest ih =>
    cases f with
    | symbol s => exact ⟨s⟩
    | number x =>
      refine ih (Option.eq_none_iff_forall_ne_some.2 ?_)
      simpa [numbers?, Factor.number?] using h

/-- A term that has no numeric product has a symbol. -/
theorem nonempty_of_product?_eq_none [Number K] {term : Term K S} (h : term.product? = none) :
    Nonempty S :=
  nonempty_of_numbers?_eq_none (Option.map_eq_none_iff.1 h)

end Term

end Clifford
