import Clifford.Algebra.Linear

/-!
# Norms and inverses

The squared norm of a multivector, and what is made from it for products of vectors.

## Main definitions

- `Algebra.normSquared` — the sum of the squares of all components
- `Algebra.norm` — the magnitude of a product of vectors
- `Algebra.inverse` — the inverse of a product of vectors
- `Algebra.normalize` — a product of vectors scaled to unit norm
- `Algebra.dist` — the norm of a difference

## Design notes

Operands whose norm is known to be one take a short way everywhere. A multivector with a single
component whose blade squares to one takes another: its norm is the absolute value of the
coefficient, without a square root.
-/

namespace Clifford.Algebra

variable {σ K S V : Type} [Number K]

/-- The terms of the squared norm: each coefficient twice, with the square of its blade. Null
blades have none. -/
def normTerms (A : Algebra K S) (m : Multivector K S) : List (Term K S × Bool) :=
  m.components.filterMap fun (b, value) =>
    (A.metric.factors? b).map fun squares => (squares ++ [value, value], false)

/-- The blade of the only component that is not a literal zero, if its vectors all square to the
literal one. Where all components are zero, this is the scalar blade. -/
def loneEuclidean? (A : Algebra K S) (m : Multivector K S) : Option Blade :=
  match m.components.filter fun (_, value) => !value.isZero with
  | [] => some 0
  | [(b, _)] => if A.metric.isEuclidean b then some b else none
  | _ => none

variable [Target σ K S V]

/-- The squared norm: the sum over all components of the square of the coefficient times the
square of the blade's vectors. -/
def normSquared (A : Algebra K S) (m : Multivector K S) : Emission σ K (Factor K S) := do
  A.check m
  if m.knownUnit then pure (.number 1)
  else
    A.annotate "norm squared"
    sum "norm_squared" (A.normTerms m)

/-- The magnitude of a product of vectors. A negative squared norm counts as zero, or as its
absolute value, as the settings choose. -/
def norm (A : Algebra K S) (m : Multivector K S) : Emission σ K (Factor K S) := do
  A.check m
  if m.knownUnit then pure (.number 1)
  else match A.loneEuclidean? m with
    | some b => call .abs [m.value b]
    | none => do
      let square ← A.normSquared m
      let magnitude ←
        if A.settings.clampNegativeNorm then call .max [.number 0, square]
        else call .abs [square]
      call .sqrt [magnitude]

/-- The inverse of a single component: its blade with the reciprocal of the coefficient times the
square of the blade, with the sign of the reversion. -/
def inverseComponent (A : Algebra K S) (b : Blade) (value : Factor K S) (square : K) :
    Emission σ K (Multivector K S) := do
  let sign : K := if isOdd b.reverseFlips then -1 else 1
  let coefficient ← combine .div (.number (sign / square)) value
  A.build [{ blade := b, term := [coefficient] }]

/-- The inverse of a product of vectors by its reverse over its squared norm. -/
def inverseByReverse (A : Algebra K S) (m : Multivector K S) (square : Factor K S) :
    Emission σ K (Multivector K S) := do
  let factor ← combine .div (.number 1) square
  A.build (m.components.map fun (b, value) =>
    { blade := b, term := [factor, value], negate := isOdd b.reverseFlips })

/-- The inverse of a product of vectors. One of unit norm is inverted by reversion alone; a literal
zero for the squared norm leaves no inverse. -/
def inverse (A : Algebra K S) (m : Multivector K S) : Emission σ K (Multivector K S) := do
  A.check m
  if m.knownUnit then A.reverse m
  else
    let square ← A.normSquared m
    if square.isZero then throw (.divisionByZero "inverse")
    A.annotate "inverse"
    match m.components with
    | [(b, value)] =>
      match (A.metric.factors? b).bind Term.product? with
      | some bladeSquare => A.inverseComponent b value bladeSquare
      | none => A.inverseByReverse m square
    | _ => A.inverseByReverse m square

/-- The multivector with the sign of a coefficient as its only component. -/
def normalizeComponent (A : Algebra K S) (b : Blade) (value : Factor K S) :
    Emission σ K (Multivector K S) := do
  if value.isZero then throw (.divisionByZero "normalize")
  let sign ← call .sign [value]
  let result ← A.build [{ blade := b, term := [sign] }]
  A.markUnit result

/-- A product of vectors scaled to unit norm, and marked so. A literal zero for the squared norm
cannot be scaled. -/
def normalize (A : Algebra K S) (m : Multivector K S) : Emission σ K (Multivector K S) := do
  A.check m
  if m.knownUnit then pure m
  else
    A.annotate "normalize"
    match A.loneEuclidean? m with
    | some b => A.normalizeComponent b (m.value b)
    | none =>
      let square ← A.normSquared m
      if square.isZero then throw (.divisionByZero "normalize")
      let magnitude ← call .abs [square]
      let root ← call .sqrt [magnitude]
      let factor ← combine .div (.number 1) root
      let result ← A.scale factor m
      A.markUnit result

/-- The norm of the difference of two multivectors. -/
def dist (A : Algebra K S) (a b : Multivector K S) : Emission σ K (Factor K S) := do
  let difference ← A.minus a b
  A.norm difference

end Clifford.Algebra
