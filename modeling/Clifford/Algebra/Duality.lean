import Clifford.Algebra.Norm
import Clifford.Algebra.Product

/-!
# Duality

The dual of a multivector is its left contraction onto the inverse of the pseudoscalar.

## Main definitions

- `Algebra.dual` — the dual, where the pseudoscalar has an inverse
- `Algebra.undual` — the left contraction onto the pseudoscalar itself
-/

namespace Clifford.Algebra

variable {σ K S V : Type} [Number K] [Target σ K S V]

/-- The failure to invert the pseudoscalar, as a failure of duality. -/
def duality : AlgebraError K → AlgebraError K
  | .divisionByZero _ => .nullPseudoscalar
  | other => other

/-- The dual of a multivector. -/
def dual (A : Algebra K S) (m : Multivector K S) : Emission σ K (Multivector K S) := do
  A.check m
  let pseudoscalar ← A.pseudoscalar
  let inverse ← ExceptT.adapt duality (A.inverse pseudoscalar)
  A.mul .leftContraction m inverse

/-- The multivector whose dual is given. -/
def undual (A : Algebra K S) (m : Multivector K S) : Emission σ K (Multivector K S) := do
  A.check m
  let pseudoscalar ← A.pseudoscalar
  A.mul .leftContraction m pseudoscalar

end Clifford.Algebra
