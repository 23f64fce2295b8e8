/-!
# Shortest decimals

A binary floating-point number stands for an interval of reals: those that round to it. Its
shortest decimals are the decimals in this interval with the fewest digits, and of these the one
nearest to the number itself is chosen.

## Main definitions

- `Binary` — a positive finite number `mantissa · 2 ^ exponent`
- `Decimal` — a positive decimal `digits · 10 ^ exponent`
- `Binary.readsBack` — the decimal lies in the interval that the number stands for
- `Binary.shortest` — the nearest of the shortest decimals that read back

## Design notes

All comparisons are exact comparisons of naturals. The decimals with a given last place form a
grid; if the interval holds a point of that grid, it holds one of the two neighbours of the
number on it, so only these two are tried, from the coarsest grid to finer ones.
-/

namespace Clifford

/-- A positive finite binary number `mantissa · 2 ^ exponent`. -/
structure Binary where
  /-- The significand. -/
  mantissa : Nat
  /-- The power of two that scales it. -/
  exponent : Int
  /-- The number below is half as far away as the number above. -/
  narrowBelow : Bool
  deriving DecidableEq, Repr

/-- A decimal `digits · 10 ^ exponent`. -/
structure Decimal where
  /-- The digits, read as one natural number. -/
  digits : Nat
  /-- The power of ten that scales it. -/
  exponent : Int
  deriving DecidableEq, Repr

/-- A power of a natural number, which counts as one where the exponent is negative. The true
power is the quotient of this one and the one for the opposite exponent. -/
def power (base : Nat) (exponent : Int) : Nat := base.pow exponent.toNat

namespace Decimal

/-- The comparison of a decimal with `mantissa · 2 ^ exponent`, exactly. -/
def compareBinary (d : Decimal) (mantissa : Nat) (exponent : Int) : Ordering :=
  compare (d.digits * power 10 d.exponent * power 2 (-exponent))
    (mantissa * power 2 exponent * power 10 (-d.exponent))

/-- The same decimal without the zeros at the end of its digits. The digits bound the number of
zeros, so dividing as often as there are digits is enough. -/
def trimmed (d : Decimal) : Decimal :=
  go (Nat.log2 d.digits) d
where
  /-- At most `fuel` zeros are dropped. -/
  go : Nat → Decimal → Decimal
    | 0, d => d
    | fuel + 1, d =>
      if d.digits % 10 = 0 then go fuel ⟨d.digits / 10, d.exponent + 1⟩ else d

end Decimal

namespace Binary

/-- The number with the given bits in the 64-bit format, read without its sign. Neither zero, nor
an infinity, nor an undefined number is meant. -/
def ofBits (bits : UInt64) : Binary :=
  let hidden : Nat := 1 <<< 52
  let exponent : Nat := bits.toNat / hidden % 2048
  let fraction : Nat := bits.toNat % hidden
  if exponent = 0 then ⟨fraction, -1074, false⟩
  else ⟨hidden + fraction, (exponent : Int) - 1075, fraction = 0 && 1 < exponent⟩

/-- The decimal rounds to this number. The ends of the interval lie halfway to the two
neighbouring numbers and belong to it when the significand is even. -/
def readsBack (x : Binary) (d : Decimal) : Bool :=
  let low := if x.narrowBelow then 4 * x.mantissa - 1 else 4 * x.mantissa - 2
  let high := 4 * x.mantissa + 2
  let closed := x.mantissa % 2 = 0
  let above := d.compareBinary low (x.exponent - 2)
  let below := d.compareBinary high (x.exponent - 2)
  (above = .gt || (closed && above = .eq)) && (below = .lt || (closed && below = .eq))

/-- The number of digits before the decimal point: the least `k` with `x < 10 ^ k`. The power of
two below the number gives an estimate that is off by two at most. -/
def wholeDigits (x : Binary) : Int :=
  let power : Int := Nat.log2 x.mantissa + x.exponent
  let estimate : Int := (power * 1233).fdiv 4096
  let candidates : List Int := (List.range 5).map fun i : Nat => estimate - 1 + (i : Int)
  let exceeds (k : Int) : Bool := (Decimal.mk 1 k).compareBinary x.mantissa x.exponent = .gt
  (candidates.find? exceeds).getD estimate

/-- The lower of the two neighbours of the number among the multiples of `10 ^ place`. -/
def below (x : Binary) (place : Int) : Decimal :=
  let numerator := x.mantissa * power 2 x.exponent * power 10 (-place)
  let denominator := power 2 (-x.exponent) * power 10 place
  ⟨numerator / denominator, place⟩

/-- The neighbour of the number among the multiples of `10 ^ place` that reads back, if one does.
Of two, the nearer is taken, and the upper one where the number lies in the middle. -/
def onGrid? (x : Binary) (place : Int) : Option Decimal :=
  let lower := x.below place
  let upper : Decimal := ⟨lower.digits + 1, place⟩
  match x.readsBack lower, x.readsBack upper with
  | false, false => none
  | true, false => some lower
  | false, true => some upper
  | true, true =>
    let middle : Decimal := ⟨5 * (lower.digits + upper.digits), place - 1⟩
    if middle.compareBinary x.mantissa x.exponent = .gt then some lower else some upper

/-- The exact value of the number as a decimal. -/
def exact (x : Binary) : Decimal :=
  ⟨x.mantissa * power 2 x.exponent * power 5 (-x.exponent), min x.exponent 0⟩

/-- The nearest of the decimals with the fewest digits that read back. Seventeen digits are
always enough. -/
def shortest (x : Binary) : Decimal :=
  let k := x.wholeDigits
  let found := (List.range 17).findSome? fun i : Nat => x.onGrid? (k - (i + 1 : Nat))
  (found.getD x.exact).trimmed

end Binary

end Clifford
