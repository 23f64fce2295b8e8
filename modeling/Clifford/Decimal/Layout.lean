import Clifford.Decimal.Shortest

/-!
# Layout of decimals

How the digits of a decimal are written out: positionally, with or without a decimal point, or
with an exponent.

## Main definitions

- `Layout` — the decisions that a number format makes
- `Layout.text` — the text of a decimal
- `Layout.message` — always positional, integers without a point
- `Layout.listing` — always a point or an exponent
-/

namespace Clifford

/-- The decisions of a number format. The magnitude of a decimal is the power of ten of its first
digit. -/
structure Layout where
  /-- Whether decimals of this magnitude are written without an exponent. -/
  positional : Int → Bool
  /-- Whether an integer is written with `.0` at its end. -/
  pointed : Bool

namespace Layout

/-- Messages never use an exponent and write integers without a point. -/
def message : Layout where
  positional _ := true
  pointed := false

/-- Listings use an exponent below `10 ^ -4` and from `10 ^ 16` on, and write integers with a
point. -/
def listing : Layout where
  positional magnitude := -4 ≤ magnitude && magnitude < 16
  pointed := true

/-- `n` zeros. -/
def zeros (n : Nat) : String := String.ofList (List.replicate n '0')

/-- The text of a decimal whose digits do not end in zero. -/
def text (l : Layout) (d : Decimal) : String :=
  let digits := toString d.digits
  let magnitude : Int := d.exponent + digits.length - 1
  if l.positional magnitude then
    if 0 ≤ d.exponent then
      digits ++ zeros d.exponent.toNat ++ (if l.pointed then ".0" else "")
    else if 0 ≤ magnitude then
      let whole := magnitude.toNat + 1
      (digits.take whole).toString ++ "." ++ (digits.drop whole).toString
    else
      "0." ++ zeros (-magnitude - 1).toNat ++ digits
  else
    let rest := (digits.drop 1).toString
    (digits.take 1).toString ++ (if rest.isEmpty then "" else "." ++ rest) ++ "e" ++
      toString magnitude

/-- The text of zero. -/
def zeroText (l : Layout) : String := if l.pointed then "0.0" else "0"

end Layout

end Clifford
