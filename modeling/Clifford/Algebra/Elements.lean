import Clifford.Algebra

/-!
# Elements of an algebra

Multivectors that are made from factors.

## Main definitions

- `Algebra.one`, `Algebra.scalar`, `Algebra.pseudoscalar`, `Algebra.basisVectors`
- `Algebra.vector` — from one coefficient for each basis vector
- `Algebra.ofNamed` — from coefficients of named blades
-/

namespace Clifford.Algebra

variable {σ K S V : Type} [Number K] [Target σ K S V]

/-- The unit scalar. -/
def one (A : Algebra K S) : Emission σ K (Multivector K S) := do
  let m ← A.build [{ blade := 0, term := [.number 1] }]
  pure (m.withKnownUnit true)

/-- A scalar. Its norm is known to be one if it is the literal one. -/
def scalar (A : Algebra K S) (value : Factor K S) : Emission σ K (Multivector K S) := do
  let m ← A.build [{ blade := 0, term := [value] }]
  pure (m.withKnownUnit value.isOne)

/-- The unit pseudoscalar. Its norm is known to be one if every basis vector squares to the literal
one. -/
def pseudoscalar (A : Algebra K S) : Emission σ K (Multivector K S) := do
  let m ← A.build [{ blade := A.fullBlade, term := [.number 1] }]
  pure (m.withKnownUnit (A.metric.all Factor.isOne))

/-- The basis vectors. The norm of one is known to be one if it squares to the literal one. -/
def basisVectors (A : Algebra K S) : Emission σ K (List (Multivector K S)) :=
  A.metric.zipIdx.mapM fun (square, i) => do
    let m ← A.build [{ blade := .vector i, term := [.number 1] }]
    pure (m.withKnownUnit square.isOne)

/-- The vector with one coefficient for each basis vector. -/
def vector (A : Algebra K S) (coefficients : List (Factor K S)) :
    Emission σ K (Multivector K S) :=
  if coefficients.length ≠ A.dimension then
    throw (.dimensionMismatch A.dimension coefficients.length)
  else
    A.build (coefficients.zipIdx.map fun (value, i) => { blade := .vector i, term := [value] })

/-- Adds coefficients of named blades to a draft. A name that no blade has ends this with a failure
after the coefficients before it have been added. -/
def extendNamed (A : Algebra K S) (draft : Draft K V) :
    List (String × Factor K S) → Emission σ K (Draft K V)
  | [] => pure draft
  | (name, value) :: rest =>
    match A.bladeNamed? name with
    | none => throw (.unknownBlade name)
    | some blade => do
      let draft ← A.extend draft [{ blade, term := [value] }]
      A.extendNamed draft rest

/-- The multivector with coefficients of named blades. -/
def ofNamed (A : Algebra K S) (components : List (String × Factor K S)) :
    Emission σ K (Multivector K S) := do
  let draft ← A.extendNamed [] components
  A.finish draft

end Clifford.Algebra
