import Clifford.Blade

/-!
# Names of blades

A blade is named by the names of its basis vectors, ascending and without a separator. The
scalar blade is named `1`.

## Main definitions

- `Blade.names` — the names of all blades over named basis vectors, in the order of their words
- `Blade.defaultNames` — the names of all blades over the basis vectors `e1`, `e2`, …
-/

namespace Clifford.Blade

/-- The names of the `2 ^ n` blades over `n` basis vectors, in the order of their words, where
`compound` names every blade but the scalar one. -/
def table (n : Nat) (compound : Blade → String) : List String :=
  (List.range (count n)).map fun word =>
    if word = 0 then "1" else compound (BitVec.ofNat 32 word)

/-- The names of the blades over basis vectors of the given names: `["x", "y", "z"]` yields
`1, x, y, xy, z, xz, yz, xyz`. -/
def names (basis : List String) : List String :=
  table basis.length fun b => String.join (b.positions.map fun i => basis.getD i "")

/-- The names of the blades over `n` numbered basis vectors: `1, e1, e2, e12, e3, …`. The digits
of the numbers run together. -/
def defaultNames (n : Nat) : List String :=
  table n fun b => "e" ++ String.join (b.positions.map fun i => toString (i + 1))

end Clifford.Blade
