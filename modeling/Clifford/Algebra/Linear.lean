import Clifford.Algebra.Elements

/-!
# Linear operations

Operations that act on each component by itself, and sums.

## Main definitions

- `Algebra.negate`, `Algebra.gradeInvolution`, `Algebra.reverse`, `Algebra.conjugate` — change
  signs grade by grade
- `Algebra.scale` — multiplies by a factor
- `Algebra.extract`, `Algebra.extractGrade` — keep some of the components
- `Algebra.plus`, `Algebra.minus` — sums and differences
-/

namespace Clifford

/-- Contributions that repeat the components of a multivector, with the sign changed where `flip`
holds. -/
def Multivector.signed {K S : Type} (m : Multivector K S) (flip : Blade → Bool) :
    List (Contribution K S) :=
  m.components.map fun (b, value) => { blade := b, term := [value], negate := flip b }

/-- Contributions that multiply the components of a multivector by a factor. -/
def Multivector.scaled {K S : Type} (m : Multivector K S) (factor : Factor K S) :
    List (Contribution K S) :=
  m.components.map fun (b, value) => { blade := b, term := [factor, value] }

namespace Algebra

variable {σ K S V : Type} [Number K] [Target σ K S V]

/-- The multivector with the sign of its components changed where `flip` holds, which keeps the
norm. -/
def resign (A : Algebra K S) (flip : Blade → Bool) (m : Multivector K S) :
    Emission σ K (Multivector K S) := do
  A.check m
  let result ← A.build (m.signed flip)
  pure (result.withKnownUnit m.knownUnit)

/-- The negation of a multivector. -/
def negate (A : Algebra K S) (m : Multivector K S) : Emission σ K (Multivector K S) := do
  A.annotate "negate"
  A.resign (fun _ => true) m

/-- The grade involution: odd grades change sign. -/
def gradeInvolution (A : Algebra K S) (m : Multivector K S) :
    Emission σ K (Multivector K S) := do
  A.annotate "grade involution"
  A.resign (fun b => isOdd b.grade) m

/-- The reverse: the order of the vectors in each blade is reversed. -/
def reverse (A : Algebra K S) (m : Multivector K S) : Emission σ K (Multivector K S) := do
  A.annotate "reverse"
  A.resign (fun b => isOdd b.reverseFlips) m

/-- The Clifford conjugate: the reverse of the grade involution. -/
def conjugate (A : Algebra K S) (m : Multivector K S) : Emission σ K (Multivector K S) := do
  A.annotate "conjugate"
  A.resign (fun b => isOdd (b.grade + b.reverseFlips)) m

/-- The product with a factor. Scaling by a literal zero leaves no components at all. -/
def scale (A : Algebra K S) (factor : Factor K S) (m : Multivector K S) :
    Emission σ K (Multivector K S) := do
  A.check m
  if factor.isZero then pure A.zero
  else
    A.annotate "scale"
    A.build (m.scaled factor)

/-- The components whose blade is kept. -/
def extract (A : Algebra K S) (keep : Blade → Bool) (m : Multivector K S) :
    Emission σ K (Multivector K S) := do
  A.check m
  A.build ((m.signed fun _ => false).filter fun c => keep c.blade)

/-- The components of a grade. -/
def extractGrade (A : Algebra K S) (k : Nat) (m : Multivector K S) :
    Emission σ K (Multivector K S) :=
  A.extract (fun b => b.grade == k) m

/-- The sum of multivectors. A single one is returned as it is. -/
def plus (A : Algebra K S) (ms : List (Multivector K S)) : Emission σ K (Multivector K S) := do
  ms.forM A.check
  match ms with
  | [] => pure A.zero
  | [m] => pure m
  | ms =>
    A.annotate "plus"
    A.build (ms.flatMap fun m => m.signed fun _ => false)

/-- The difference of two multivectors. -/
def minus (A : Algebra K S) (a b : Multivector K S) : Emission σ K (Multivector K S) := do
  A.check a
  A.check b
  A.annotate "minus"
  A.build ((a.signed fun _ => false) ++ b.signed fun _ => true)

end Algebra

end Clifford
