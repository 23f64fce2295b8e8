import Clifford.Proofs.Algebra.Elements
import Clifford.Proofs.Algebra.Terms
import Clifford.Proofs.Values.Sums

/-!
# Values of outermorphisms

The image of a blade is a sum over all ways to send its vectors to different vectors, with the
product of the coordinates that are used. What is dropped for a literal zero adds nothing.

## Main definitions

- `Values.entry`, `Reading.entry` — an entry of a ragged matrix, which is zero where it is absent
- `Values.placed` — the coefficients of the image of a blade, some of whose vectors are placed
- `Values.outermorphism` — the coefficients of the image of a multivector
- `Reading.HasMatrix` — a matrix whose entries have given values
- `Reading.matrixValues` — the values of the entries of a matrix

## Main results

- `SparseMatrix.contribute_placements` — the emitted terms of a blade add up to its image
- `Algebra.outermorphism_gives` — the image of a multivector
-/

namespace Clifford

open Finset

namespace Values

variable {R : Type*} [CommRing R]

/-- A coordinate in a row. What is absent counts for zero. -/
def coordinate (row : List (Option R)) (i : Nat) : R := (row[i]?.join).getD 0

/-- An entry of a matrix, whose rows may be short or missing. -/
def entry (matrix : List (List (Option R))) (j i : Nat) : R := coordinate (matrix.getD j []) i

/-- The coefficients of the image of a blade whose vectors at `positions` are still to be mapped,
where the others went to `image` with the coordinates whose product is `x`. -/
def placed (matrix : List (List (Option R))) :
    (positions : List Nat) → (image : Blade) → (flips : Nat) → (x : R) → Values R
  | [], image, flips, x => single image ((-1) ^ flips * x)
  | i :: rest, image, flips, x =>
    (matrix.zipIdx.map fun (row, j) =>
      if image.getLsbD j then 0
      else placed matrix rest (image ||| .vector j)
        (flips + Blade.grade (image >>> (j + 1))) (coordinate row i * x)).sum

/-- The coefficients of the image of a multivector. -/
noncomputable def outermorphism (matrix : List (List (Option R))) (f : Values R) : Values R :=
  ∑ b : Blade, placed matrix b.positions 0 0 (f b)

theorem placed_zero (matrix : List (List (Option R))) (positions : List Nat) (image : Blade)
    (flips : Nat) : placed matrix positions image flips 0 = 0 := by
  induction positions generalizing image flips with
  | nil => rw [placed, mul_zero, single_zero]
  | cons i rest ih =>
    rw [placed]
    refine List.sum_eq_zero fun f hf => ?_
    obtain ⟨⟨row, j⟩, -, rfl⟩ := List.mem_map.1 hf
    dsimp only
    rw [mul_zero, ih, ite_self]

end Values

variable {σ K S V : Type} [Number K] {M : Reading σ K S V} {s : σ}

/-- The entries of a row have values where they are present. -/
def Reading.HasRow (M : Reading σ K S V) (s : σ) :
    List (Option (Factor K S)) → List (Option K) → Prop :=
  List.Forall₂ (Option.Rel (M.HasValue s))

/-- The entries of a matrix have values where they are present. -/
def Reading.HasMatrix (M : Reading σ K S V) (s : σ) :
    SparseMatrix K S → List (List (Option K)) → Prop :=
  List.Forall₂ (M.HasRow s)

/-- The values of the entries of a matrix. -/
def Reading.matrixValues (M : Reading σ K S V) (s : σ) (matrix : SparseMatrix K S) :
    List (List (Option K)) :=
  matrix.map fun row => row.map (Option.map (M.value s))

/-- The value of an entry of a matrix. What is absent counts for zero. -/
def Reading.entry (M : Reading σ K S V) (s : σ) (matrix : SparseMatrix K S) (j i : Nat) : K :=
  M.value s (((matrix.getD j [])[i]?.join).getD (.number 0))

theorem Reading.length_matrixValues (M : Reading σ K S V) (s : σ) (matrix : SparseMatrix K S) :
    (M.matrixValues s matrix).length = matrix.length := List.length_map _

theorem Reading.KnownMatrix.hasMatrix {matrix : SparseMatrix K S} (h : M.KnownMatrix s matrix) :
    M.HasMatrix s matrix (M.matrixValues s matrix) := by
  refine List.forall₂_map_right_iff.2 (List.forall₂_same.2 fun row hrow => ?_)
  refine List.forall₂_map_right_iff.2 (List.forall₂_same.2 ?_)
  rintro (_ | f) hf
  · exact .none
  · exact .some ⟨h row hrow f hf, rfl⟩

theorem Reading.hasEntry_mono {s' : σ} {entry : Option (Factor K S)} {x : Option K}
    (h : Option.Rel (M.HasValue s) entry x) (hext : M.Extends s s') :
    Option.Rel (M.HasValue s') entry x := by
  cases h with
  | none => exact .none
  | some hf => exact .some (hext.hasValue hf)

theorem Reading.HasRow.mono {s' : σ} {row : List (Option (Factor K S))} {xs : List (Option K)}
    (h : M.HasRow s row xs) (hext : M.Extends s s') : M.HasRow s' row xs :=
  h.imp fun _ _ hentry => hasEntry_mono hentry hext

theorem Reading.HasMatrix.mono {s' : σ} {matrix : SparseMatrix K S}
    {values : List (List (Option K))} (h : M.HasMatrix s matrix values) (hext : M.Extends s s') :
    M.HasMatrix s' matrix values :=
  h.imp fun _ _ hrow => Reading.HasRow.mono hrow hext

theorem Reading.HasRow.getElem? {row : List (Option (Factor K S))} {xs : List (Option K)}
    (h : M.HasRow s row xs) (i : Nat) :
    Option.Rel (M.HasValue s) (row[i]?.join) (xs[i]?.join) := by
  induction h generalizing i with
  | nil => exact .none
  | cons hentry _ ih =>
    cases i with
    | zero => exact hentry
    | succ i => exact ih i

namespace SparseMatrix

/-- The terms of the image of a blade whose next vector goes to a given row. -/
def rowPlacements (matrix : SparseMatrix K S) (value : Factor K S) (i : Nat) (rest : List Nat)
    (image : Blade) (flips : Nat) (term : Term K S) (row : List (Option (Factor K S)) × Nat) :
    List (Contribution K S) :=
  if image.getLsbD row.2 then []
  else match entry? row.1 i with
    | none => []
    | some f =>
      matrix.placements value rest (image ||| .vector row.2)
        (flips + Blade.grade (image >>> (row.2 + 1))) (term ++ [f])

theorem placements_cons (matrix : SparseMatrix K S) (value : Factor K S) (i : Nat)
    (rest : List Nat) (image : Blade) (flips : Nat) (term : Term K S) :
    matrix.placements value (i :: rest) image flips term =
      matrix.zipIdx.flatMap (matrix.rowPlacements value i rest image flips term) := rfl

variable [ExactNumber K]

theorem entry_matrixValues (M : Reading σ K S V) (s : σ) (matrix : SparseMatrix K S) (j i : Nat) :
    Values.entry (M.matrixValues s matrix) j i = M.entry s matrix j i := by
  have hrow : (M.matrixValues s matrix).getD j [] =
      (matrix.getD j []).map (Option.map (M.value s)) :=
    List.getD_map matrix [] (List.map (Option.map (M.value s)))
  rw [Values.entry, Values.coordinate, hrow, List.getElem?_map, Reading.entry]
  rcases (matrix.getD j [])[i]? with _ | _ | f <;> rfl

/-- A used entry has the coordinate for a value, and an unused one has the coordinate zero. -/
theorem value_entry? {row : List (Option (Factor K S))} {xs : List (Option K)}
    (h : M.HasRow s row xs) (i : Nat) :
    match entry? row i with
    | some f => M.HasValue s f (Values.coordinate xs i)
    | none => Values.coordinate xs i = 0 := by
  have hget := h.getElem? i
  rw [Values.coordinate]
  unfold entry?
  rcases hrow : row[i]? with _ | _ | f
  all_goals
    rw [hrow] at hget
    generalize xs[i]?.join = x at hget
    cases hget
  · rfl
  · rfl
  · rename_i x hf
    dsimp only
    by_cases hzero : f.isZero = true
    · rw [if_pos hzero]
      exact hf.value_eq.symm.trans (Reading.value_of_isZero hzero)
    · rw [if_neg hzero]
      exact hf

/-- The placements in one row, if those of the remaining vectors are right. -/
theorem contribute_rowPlacements {matrix : SparseMatrix K S} {xss : List (List (Option K))}
    {value : Factor K S} {i j : Nat} {rest : List Nat} {image : Blade} {flips : Nat}
    {term : Term K S} (hterm : M.KnownTerm s term)
    {row : List (Option (Factor K S))} {xs : List (Option K)} (hrow : M.HasRow s row xs)
    (hrest : ∀ (image : Blade) (flips : Nat) {term : Term K S}, M.KnownTerm s term →
      M.Contribute s (matrix.placements value rest image flips term)
        (Values.placed xss rest image flips (M.termValue s term * M.value s value))) :
    M.Contribute s (matrix.rowPlacements value i rest image flips term (row, j))
      (if image.getLsbD j then 0
      else Values.placed xss rest (image ||| .vector j) (flips + Blade.grade (image >>> (j + 1)))
        (Values.coordinate xs i * (M.termValue s term * M.value s value))) := by
  rw [rowPlacements]
  by_cases htaken : image.getLsbD j = true
  · rw [if_pos htaken, if_pos htaken]
    exact .nil
  rw [if_neg htaken, if_neg htaken]
  have hentry := value_entry? hrow i
  cases hused : entry? row i with
  | none =>
    -- No term is made for an unused entry, whose coordinate is zero.
    rw [hused] at hentry
    rw [show Values.coordinate xs i = 0 from hentry, zero_mul, Values.placed_zero]
    exact .nil
  | some f =>
    rw [hused] at hentry
    have hf : M.HasValue s f (Values.coordinate xs i) := hentry
    have hterm' : M.KnownTerm s (term ++ [f]) := hterm.append (.cons hf.known .nil)
    have hplaced := hrest (image ||| .vector j) (flips + Blade.grade (image >>> (j + 1))) hterm'
    rwa [Reading.termValue_append, Reading.termValue_cons, Reading.termValue_nil, mul_one,
      hf.value_eq, mul_right_comm, mul_comm] at hplaced

/-- **The terms of the image of a blade add up to the image**, and they have values. -/
theorem contribute_placements {matrix : SparseMatrix K S} {xss : List (List (Option K))}
    (h : M.HasMatrix s matrix xss) {value : Factor K S} (hvalue : M.Known s value)
    (positions : List Nat) (image : Blade) (flips : Nat) {term : Term K S}
    (hterm : M.KnownTerm s term) :
    M.Contribute s (matrix.placements value positions image flips term)
      (Values.placed xss positions image flips (M.termValue s term * M.value s value)) := by
  induction positions generalizing image flips term with
  | nil =>
    rw [placements, Values.placed]
    refine .singleton (hterm.append (.cons hvalue .nil)) ?_
    rw [Contribution.values, Contribution.value, signed, ite_isOdd_neg, Reading.termValue_append,
      Reading.termValue_cons, Reading.termValue_nil, mul_one]
  | cons i rest ih =>
    rw [placements_cons, Values.placed]
    refine .flatMap ((forall₂_zipIdx h 0).imp ?_)
    rintro ⟨row, j⟩ ⟨xs, _⟩ ⟨hrow, rfl⟩
    exact contribute_rowPlacements hterm hrow ih

end SparseMatrix

namespace Algebra

variable [Target σ K S V] {A : Algebra K S} {m : Multivector K S} {f : Values K}
  {matrix : SparseMatrix K S} {xss : List (List (Option K))}

/-- A matrix may not have more rows than the algebra has basis vectors. -/
theorem outermorphism_fails (hopen : M.Open s []) (hm : M.Denotes A s m f)
    (hrows : A.dimension < matrix.length) :
    (A.outermorphism m matrix : Emission σ K (Multivector K S)).Fails s
      (.dimensionMismatch A.dimension matrix.length) fun s' => M.Advances s s' := by
  refine Emission.Gives.bind_fails (check_gives hm.owner ?_)
  rw [if_pos hrows]
  exact .bind (.throw (.refl hopen))

variable [ExactNumber K]

/-- **The image under an outermorphism**, where the matrix has no more rows than the algebra has
basis vectors. -/
theorem outermorphism_gives (hM : M.Sound) (hopen : M.Open s []) (hm : M.Denotes A s m f)
    (hmatrix : M.HasMatrix s matrix xss) (hrows : matrix.length ≤ A.dimension) :
    (A.outermorphism m matrix : Emission σ K (Multivector K S)).Gives s fun r s' =>
      M.Advances s s' ∧ M.Denotes A s' r (Values.outermorphism xss f) ∧
        r.knownUnit = false := by
  refine .bind (check_gives hm.owner ?_)
  rw [if_neg (Nat.not_lt.2 hrows)]
  refine annotated_build_gives hM hopen "outermorphism" fun s₁ hext => ?_
  have hm₁ := hm.mono hext
  have hsum := Reading.sum_components (M := M) (s := s₁)
    (fun b x => Values.placed xss b.positions 0 0 x) (fun b => Values.placed_zero xss _ _ _)
    hm₁.nodup
  rw [Values.outermorphism, ← hm₁.values_eq, ← hsum]
  refine .flatMap (List.forall₂_same.2 fun c hc => ?_)
  have himage := SparseMatrix.contribute_placements (hmatrix.mono hext) (hm₁.known c hc)
    c.1.positions 0 0 .nil
  rwa [Reading.termValue_nil, one_mul] at himage

end Algebra

end Clifford
