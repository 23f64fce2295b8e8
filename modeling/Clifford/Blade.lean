/-!
# Basis blades

A basis blade is a set of basis vectors, stored as a word with one bit per basis vector. The
geometric product of two blades is, up to a sign and the squares of the shared basis vectors,
the symmetric difference of the two sets; this file holds the combinatorics of that sign.

## Main definitions

- `Blade` — a set of at most 32 basis vectors; the empty set is the scalar blade
- `Blade.positions` — the basis vectors of a blade, ascending
- `Blade.grade` — how many basis vectors a blade has
- `Blade.productFlips` — the transpositions that sort the vectors of one blade followed by
  those of another
- `Blade.reverseFlips` — the transpositions that reverse a blade
- `Blade.count`, `Blade.full` — how many blades some basis vectors have, and the greatest of them

## Design notes

Both loops over a blade clear its lowest basis vector in each round, so they end after as many
rounds as the blade has vectors; `Blade.dropLowest_lt` is the measure that they share.
-/

namespace Clifford

/-- A basis blade: bit `i` is set when the `i`-th basis vector takes part. -/
abbrev Blade := BitVec 32

namespace Blade

/-- The blade without its lowest basis vector: the word and its predecessor agree above that
vector, and the predecessor lacks it. The scalar blade stays as it is. -/
def dropLowest (b : Blade) : Blade :=
  .ofNatLT (b.toNat &&& (b.toNat - 1)) (Nat.lt_of_le_of_lt Nat.and_le_left b.isLt)

/-- Dropping the lowest basis vector makes the word smaller. -/
theorem dropLowest_lt {b : Blade} (h : b ≠ 0) : b.dropLowest.toNat < b.toNat := by
  have hpos : b.toNat ≠ 0 := fun h' => h (BitVec.eq_of_toNat_eq (by simpa using h'))
  have hand : b.dropLowest.toNat ≤ b.toNat - 1 := Nat.and_le_right
  omega

/-- The position of the lowest basis vector; 32 for the scalar blade, which has none. -/
def lowest (b : Blade) : Nat := ((List.range 32).find? b.getLsbD).getD 32

/-- The positions of the basis vectors of a blade, ascending. -/
def positions (b : Blade) : List Nat :=
  if _h : b = 0 then [] else b.lowest :: positions b.dropLowest
termination_by b.toNat
decreasing_by exact dropLowest_lt _h

/-- The number of basis vectors of a blade. -/
def grade (b : Blade) : Nat :=
  if _h : b = 0 then 0 else grade b.dropLowest + 1
termination_by b.toNat
decreasing_by exact dropLowest_lt _h

/-- The number of adjacent transpositions that sort the basis vectors of `a` followed by those
of `b`. Vectors that occur in both are kept, so only the parity matters for the product: an odd
count flips its sign.

Each vector of `a` has to pass the vectors of `b` that lie below it; going up through the
vectors of both, `seen` counts those of `b`. -/
def productFlips (a b : Blade) : Nat :=
  go 0 (a ||| b).positions
where
  /-- The transpositions over the remaining positions, after `seen` vectors of `b`. -/
  go (seen : Nat) : List Nat → Nat
    | [] => 0
    | i :: rest =>
      (if a.getLsbD i then seen else 0) + go (if b.getLsbD i then seen + 1 else seen) rest

/-- The number of adjacent transpositions that reverse a blade: `k (k - 1) / 2` for grade `k`. -/
def reverseFlips (b : Blade) : Nat := b.grade * (b.grade - 1) / 2

/-- The blade of a single basis vector. -/
def vector (i : Nat) : Blade := 1 <<< i

/-- The number of blades over `n` basis vectors, which is two to the power of `n`. -/
def count (n : Nat) : Nat := 1 <<< n

/-- The blade of the first `n` basis vectors. -/
def full (n : Nat) : Blade := BitVec.ofNat 32 (count n - 1)

end Blade

/-- Whether a count of transpositions flips the sign. -/
def isOdd (flips : Nat) : Bool := flips % 2 == 1

end Clifford
