import Clifford.Proofs.Algebra.Functoriality
import Mathlib.LinearAlgebra.Matrix.Determinant.Basic

/-!
# Outermorphisms and minors

The coefficients of the image of a blade are minors of the matrix: taking the first vector of the
blade apart from the others is the expansion of a determinant along its first column.

## Main definitions

- `Reading.minor` — the determinant of the rows of one blade and the columns of another

## Main results

- `Values.wedge_column_apply` — a vector in front, as a sum over the vectors of a blade
- `Values.image_eq_det`, `Values.image_eq_zero` — the coefficients of the image of a blade
- `Algebra.outermorphism_eq_minors` — the values of the image of a multivector
-/

namespace Clifford

open Finset

variable {σ K S V : Type}

namespace Values

variable {R : Type*} [CommRing R] {matrix : List (List (Option R))}

/-- A vector in front of other coefficients reaches a blade from the blades that lack one of its
vectors. -/
theorem wedge_column_apply (hrows : matrix.length ≤ 32) (i : Nat) (f : Values R) (J : Blade) :
    wedge (column matrix i) f J = (J.positions.map fun j =>
      (-1) ^ J.below j * (entry matrix j i * f (.vector j ^^^ J))).sum := by
  have hsingle : ∀ j ∈ range 32, wedge (single (.vector j) (entry matrix j i)) f J =
      if J.getLsbD j then (-1) ^ J.below j * (entry matrix j i * f (.vector j ^^^ J)) else 0 := by
    intro j hj
    have hj' := mem_range.1 hj
    have hxor : Blade.vector j ^^^ (Blade.vector j ^^^ J) = J := by
      rw [← BitVec.xor_assoc, BitVec.xor_self, BitVec.zero_xor]
    rw [wedge, convolve_single_left, Finset.sum_apply, Fintype.sum_eq_single (.vector j ^^^ J),
      hxor, single_self, Blade.twist_null_vector_left hj', Blade.getLsbD_vector_xor hj',
      Blade.below_vector_xor_of_le le_rfl hj']
    · cases J.getLsbD j <;> simp
    · intro b hb
      refine single_of_ne _ fun h => hb ?_
      rw [← h, ← BitVec.xor_assoc, BitVec.xor_self, BitVec.zero_xor]
  rw [column_eq_sum hrows, wedge_sum_left, Finset.sum_apply, sum_congr rfl hsingle]
  exact (Blade.sum_map_positions J _).symm

theorem image_eq_zero (hrows : matrix.length ≤ 32) {positions : List Nat} {J : Blade}
    (h : positions.length ≠ J.grade) : image matrix positions J = 0 := by
  induction positions generalizing J with
  | nil =>
    refine single_of_ne 1 fun hJ => h ?_
    rw [← hJ, Blade.grade_zero, List.length_nil]
  | cons i rest ih =>
    rw [image, wedge_column_apply hrows]
    refine List.sum_eq_zero fun x hx => ?_
    obtain ⟨j, hj, rfl⟩ := List.mem_map.1 hx
    have hgrade := Blade.grade_vector_xor (Blade.mem_positions.1 hj)
    have hrest : rest.length ≠ (Blade.vector j ^^^ J).grade := by
      rw [List.length_cons] at h
      omega
    rw [ih hrest, mul_zero, mul_zero]

theorem sum_map_eq_sum_fin {l : List Nat} {n : Nat} (hn : l.length = n) (F : Nat → R) :
    (l.map F).sum = ∑ r : Fin n, F (l.getD r 0) := by
  subst hn
  rw [← Fin.sum_univ_fun_getElem]
  refine sum_congr rfl fun r _ => ?_
  rw [List.getD_eq_getElem _ _ r.isLt]

/-- Leaving out an element moves the later ones forward. -/
theorem getD_eraseIdx {k : Nat} (l : List Nat) (r : Fin (k + 1)) (r' : Fin k) :
    (l.eraseIdx r).getD r' 0 = l.getD (r.succAbove r') 0 := by
  simp only [List.getD_eq_getElem?_getD, List.getElem?_eraseIdx, Fin.succAbove, Fin.lt_def,
    Fin.val_castSucc]
  split <;> rfl

/-- **The coefficients of the image of a blade are minors.** -/
theorem image_eq_det (hrows : matrix.length ≤ 32) {k : Nat} {positions : List Nat} {J : Blade}
    (hpositions : positions.length = k) (hgrade : J.grade = k) :
    image matrix positions J = Matrix.det (Matrix.of fun r c : Fin k =>
      entry matrix (J.positions.getD r 0) (positions.getD c 0)) := by
  induction positions generalizing J k with
  | nil =>
    subst hpositions
    rw [Blade.grade_eq_zero.1 hgrade]
    simp [image, scalar]
  | cons i rest ih =>
    subst hpositions
    have hlength : J.positions.length = rest.length + 1 := by
      rw [← Blade.grade_eq_length, hgrade, List.length_cons]
    rw [image, wedge_column_apply hrows, sum_map_eq_sum_fin hlength, List.length_cons,
      Matrix.det_succ_column_zero]
    refine sum_congr rfl fun r _ => ?_
    have hr : r.val < J.positions.length := by
      rw [hlength]
      exact r.isLt
    have hset := Blade.mem_positions.1 (List.getElem_mem hr)
    have hrest : (Blade.vector J.positions[r.val] ^^^ J).grade = rest.length := by
      have hgrade' := Blade.grade_vector_xor hset
      rw [hgrade, List.length_cons] at hgrade'
      omega
    rw [List.getD_eq_getElem _ _ hr, Blade.below_positions_getElem, ih rfl hrest,
      Blade.positions_xor_getElem hr]
    simp only [getD_eraseIdx]
    rw [← mul_assoc, Matrix.of_apply, List.getD_eq_getElem _ _ hr]
    rfl

end Values

variable [Number K] [ExactNumber K] {M : Reading σ K S V} {s : σ}

/-- The minor of a matrix with the rows of one blade and the columns of another one of the same
grade. -/
def Reading.minor (M : Reading σ K S V) (s : σ) (matrix : SparseMatrix K S) (J I : Blade) : K :=
  Matrix.det (Matrix.of fun r c : Fin J.grade =>
    M.entry s matrix (J.positions.getD r 0) (I.positions.getD c 0))

/-- A blade contributes to the blades of its own grade, with the minors of the matrix. -/
theorem SparseMatrix.image_eq_minor {matrix : SparseMatrix K S} (hrows : matrix.length ≤ 32)
    (I J : Blade) :
    Values.image (M.matrixValues s matrix) I.positions J =
      if I.grade = J.grade then M.minor s matrix J I else 0 := by
  have hlength : (M.matrixValues s matrix).length ≤ 32 := by
    rwa [Reading.length_matrixValues]
  split
  · rename_i hgrade
    rw [Values.image_eq_det hlength ((Blade.grade_eq_length I).symm.trans hgrade) rfl]
    simp only [entry_matrixValues]
    rfl
  · rename_i hgrade
    exact Values.image_eq_zero hlength fun h => hgrade ((Blade.grade_eq_length I).trans h)

namespace Algebra

variable [Target σ K S V] {A : Algebra K S} {m : Multivector K S} {matrix : SparseMatrix K S}

/-- **The values of an outermorphism are sums of minors.** The coefficient of a blade `J` of the
image is the sum, over the components whose blade `I` has the same grade, of the coefficient times
the determinant of the rows in `J` and the columns in `I`. Rows may be short or missing, and entries
may be absent, zero, numeric or symbolic. -/
theorem outermorphism_eq_minors (hM : M.Sound) (hopen : M.Open s []) (hm : M.Member A s m)
    (hmatrix : M.KnownMatrix s matrix) (hrows : matrix.length ≤ A.dimension) :
    (A.outermorphism m matrix : Emission σ K (Multivector K S)).Gives s fun r s' =>
      ∀ J, M.HasValue s' (r.value J)
        ((m.components.filter fun c => c.1.grade = J.grade).map fun c =>
          M.value s c.2 * M.minor s matrix J c.1).sum := by
  have hrows' : matrix.length ≤ 32 := hrows.trans (A.dimension_le.trans (by decide))
  have hlength : (M.matrixValues s matrix).length ≤ 32 := by
    rwa [Reading.length_matrixValues]
  refine .mono (outermorphism_gives hM hopen hm.denotes hmatrix.hasMatrix hrows) ?_
  rintro r s' ⟨-, hr, -⟩ J
  have hvalue : Values.outermorphism (M.matrixValues s matrix) (M.values s m) J =
      ((m.components.filter fun c => c.1.grade = J.grade).map fun c =>
        M.value s c.2 * M.minor s matrix J c.1).sum := by
    have hsum := Reading.sum_components (M := M) (s := s)
      (fun b x => x * Values.image (M.matrixValues s matrix) b.positions J)
      (fun b => zero_mul _) hm.nodup
    rw [Values.outermorphism_eq_sum hlength, Finset.sum_apply]
    simp only [Pi.smul_apply, smul_eq_mul]
    rw [← hsum, sum_map_filter]
    refine congrArg List.sum (List.map_congr_left fun c _ => ?_)
    rw [SparseMatrix.image_eq_minor hrows', mul_ite, mul_zero]
    simp only [decide_eq_true_eq]
  exact hvalue ▸ hr.hasValue J

theorem outermorphism_eq_minors_inputPlane :
    (inputPlane.outermorphism (.inInputPlane 1) .inputSwap :
      Emission (Program ℚ) ℚ (Multivector ℚ Handle)).Gives Program.singleInput.2 fun r s' =>
        ∀ J, (Program.reading fun _ => some 5).HasValue s' (r.value J)
          (((Multivector.inInputPlane 1).components.filter fun c => c.1.grade = J.grade).map
            fun c => (Program.reading fun _ => some 5).value Program.singleInput.2 c.2 *
              (Program.reading fun _ => some 5).minor Program.singleInput.2 .inputSwap J
                c.1).sum := by
  have hinput := Program.known_singleInput 5
  refine outermorphism_eq_minors Program.sound_reading (Program.orderly_singleInput _)
    (Multivector.member_inInputPlane _ 1) ?_ (by decide)
  simp [Reading.KnownMatrix, SparseMatrix.inputSwap, hinput]

end Algebra

end Clifford
