import Clifford.Algebra.Norm
import Clifford.Algebra.Product

/-!
# Rotors

Rotations by an angle: exponential and logarithm, angles between vectors, and interpolation along
a great circle.

## Main definitions

- `Algebra.exp` — the exponential of a bivector that is a blade
- `Algebra.log` — the logarithm of a rotor
- `Algebra.angle` — the angle between two vectors
- `Slerp`, `Algebra.slerp`, `Algebra.slerpAt` — interpolation between two unit vectors
-/

namespace Clifford

namespace Algebra

variable {σ K S V : Type} [Number K] [Target σ K S V]

/-- The exponential of a bivector that is a blade, where squares are not negative. For a null
bivector it ends after the linear term. -/
def exp (A : Algebra K S) (m : Multivector K S) : Emission σ K (Multivector K S) := do
  A.check m
  let square ← A.normSquared m
  if square.isZero then
    let one ← A.one
    let result ← A.plus [one, m]
    pure (result.withKnownUnit (m.components.all fun (_, value) => value.isZero))
  else
    A.annotate "exp"
    let angle ← call .sqrt [square]
    let cosine ← call .cos [angle]
    let sine ← call .sin [angle]
    let weight ← combine .div sine angle
    let result ← A.build ({ blade := 0, term := [cosine] } :: m.scaled weight)
    A.markUnit result

/-- The logarithm of a rotor: the bivector whose exponential it is. -/
def log (A : Algebra K S) (rotor : Multivector K S) : Emission σ K (Multivector K S) := do
  A.check rotor
  let bivector ← A.extract (fun b => b.grade == 2) rotor
  let norm ← A.norm bivector
  if norm.isZero then throw (.divisionByZero "log")
  A.annotate "log"
  let angle ← call .atan2 [norm, rotor.value 0]
  let factor ← combine .div angle norm
  A.scale factor bivector

/-- The angle between two vectors. -/
def angle (A : Algebra K S) (a b : Multivector K S) : Emission σ K (Factor K S) := do
  let wedge ← A.mul .wedge a b
  let sine ← A.norm wedge
  let cosine ← A.scalarProduct a b
  call .atan2 [sine, cosine]

end Algebra

/-- The great circle through two unit vectors, prepared for interpolation. -/
structure Slerp (K S : Type) where
  /-- The point at parameter zero. -/
  first : Multivector K S
  /-- The point at parameter one. -/
  last : Multivector K S
  /-- The angle between them. -/
  angle : Factor K S
  /-- The sine of the angle. -/
  sine : Factor K S
  deriving DecidableEq, Repr

namespace Algebra

variable {σ K S V : Type} [Number K] [Target σ K S V]

/-- Prepares the interpolation between two unit vectors. -/
def slerp (A : Algebra K S) (a b : Multivector K S) : Emission σ K (Slerp K S) := do
  let angle ← A.angle a b
  let sine ← call .sin [angle]
  pure ⟨a, b, angle, sine⟩

/-- The weight of an end point: the sine of a fraction of the angle over the sine of all of it. -/
def slerpWeight (s : Slerp K S) (fraction : Factor K S) : Emission σ K (Factor K S) := do
  let part ← combine .mul fraction s.angle
  let sine ← call .sin [part]
  combine .div sine s.sine

/-- The point at a parameter. -/
def slerpAt (A : Algebra K S) (s : Slerp K S) (t : Factor K S) :
    Emission σ K (Multivector K S) := do
  A.annotate "slerp"
  let rest ← combine .sub (.number 1) t
  let first ← slerpWeight s rest
  let last ← slerpWeight s t
  let result ← A.build (s.first.scaled first ++ s.last.scaled last)
  A.markUnit result

end Algebra

end Clifford
