import Clifford.Algebra

/-!
# Outermorphisms

A linear map of vectors extends to all multivectors: a blade goes to the wedge product of the
images of its vectors.

## Main definitions

- `SparseMatrix` — a sparse matrix
- `SparseMatrix.placements` — the terms of the image of a blade
- `Algebra.outermorphism` — the image of a multivector
-/

namespace Clifford

/-- A sparse matrix: row `j` holds at position `i` the coordinate along basis vector `j` of the
image of basis vector `i`. Rows may be short; what is absent counts for zero. -/
abbrev SparseMatrix (K S : Type) := List (List (Option (Factor K S)))

namespace SparseMatrix

variable {K S : Type} [Number K]

/-- The coordinate of the image of basis vector `i` in a row, unless it is absent or a literal
zero. -/
def entry? (row : List (Option (Factor K S))) (i : Nat) : Option (Factor K S) :=
  match row[i]? with
  | some (some f) => if f.isZero then none else some f
  | _ => none

/-- The terms of the image of a blade, of which the basis vectors at `positions` are still to be
mapped. The others went to the vectors of `image`, with the coordinates in `term`, and `flips`
counts the transpositions that sort these vectors. Each vector goes to every vector that is not
yet taken. -/
def placements (matrix : SparseMatrix K S) (value : Factor K S) :
    (positions : List Nat) → (image : Blade) → (flips : Nat) → (term : Term K S) →
      List (Contribution K S)
  | [], image, flips, term =>
    [{ blade := image, term := term ++ [value], negate := isOdd flips }]
  | i :: rest, image, flips, term =>
    matrix.zipIdx.flatMap fun (row, j) =>
      if image.getLsbD j then []
      else match entry? row i with
        | none => []
        | some f =>
          placements matrix value rest (image ||| .vector j)
            (flips + Blade.grade (image >>> (j + 1))) (term ++ [f])

end SparseMatrix

namespace Algebra

variable {σ K S V : Type} [Number K] [Target σ K S V]

/-- The image of a multivector under the extension of a linear map. The matrix may have fewer rows
than the algebra has basis vectors, but not more. -/
def outermorphism (A : Algebra K S) (m : Multivector K S) (matrix : SparseMatrix K S) :
    Emission σ K (Multivector K S) := do
  A.check m
  if A.dimension < matrix.length then
    throw (.dimensionMismatch A.dimension matrix.length)
  A.annotate "outermorphism"
  A.build (m.components.flatMap fun (b, value) => matrix.placements value b.positions 0 0 [])

end Algebra

end Clifford
