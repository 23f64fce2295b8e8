import Clifford.Proofs.Algebra.Outermorphism
import Clifford.Proofs.Blade.Vectors
import Mathlib.Algebra.Algebra.Basic
import Mathlib.Algebra.Module.LinearMap.Basic
import Mathlib.LinearAlgebra.BilinearMap

/-!
# Wedge products and images of blades

The wedge product is the geometric product of the metric in which every vector is null, so it is
associative, and vectors anticommute. The image of a blade under an outermorphism is the wedge
product of the images of its vectors: that is what the placements of its vectors add up to.

## Main definitions

- `Values.wedge` — the wedge product of coefficient functions
- `Values.column` — the image of a basis vector
- `Values.image` — the wedge product of the images of basis vectors

## Main results

- `ProductKind.kernel_wedge` — the wedge product of multivectors is that of coefficient functions
- `Values.placed_eq_wedge` — what the placements of vectors add up to
- `Values.outermorphism_eq_sum` — an outermorphism maps every blade to its image
-/

namespace Clifford

open Finset

variable {R : Type*} [CommRing R]

namespace Values

/-- The wedge product of coefficient functions. -/
noncomputable def wedge (f g : Values R) : Values R := convolve (Blade.twist 0) f g

/-- The image of a basis vector. -/
def column (matrix : List (List (Option R))) (i : Nat) : Values R :=
  ∑ j ∈ range matrix.length, single (.vector j) (entry matrix j i)

/-- The wedge product of the images of basis vectors. -/
noncomputable def image (matrix : List (List (Option R))) : List Nat → Values R
  | [] => scalar 1
  | i :: rest => wedge (column matrix i) (image matrix rest)

end Values

/-! ### The kernel -/

namespace Blade

variable {a b : Blade} {i j : Nat}

theorem weight_null (b : Blade) : weight (0 : Nat → R) b = if b = 0 then 1 else 0 := by
  by_cases hb : b = 0
  · rw [if_pos hb, hb]
    exact weight_zero 0
  · rw [if_neg hb, weight_eq_prod_positions, positions, dif_neg hb, List.map_cons, List.prod_cons,
      Pi.zero_apply, zero_mul]

theorem twist_null (a b : Blade) :
    twist (0 : Nat → R) a b = if a &&& b = 0 then swapSign R a b else 0 := by
  rw [twist, weight_null]
  split <;> simp

theorem grade_eq_zero : a.grade = 0 ↔ a = 0 := by
  refine ⟨fun h => ?_, fun h => h ▸ grade_zero⟩
  by_contra hne
  rw [grade, dif_neg hne] at h
  omega

theorem vector_and_eq_zero (hi : i < 32) : vector i &&& b = 0 ↔ b.getLsbD i = false := by
  refine ⟨fun h => ?_, fun h => eq_zero_of_getLsbD fun j _ => ?_⟩
  · have hbit := congrArg (fun c : Blade => c.getLsbD i) h
    simpa [BitVec.getLsbD_and, getLsbD_vector, hi] using hbit
  · rw [BitVec.getLsbD_and, getLsbD_vector]
    by_cases hij : i = j
    · subst hij
      simp [h]
    · simp [hij]

/-- The factor of a vector that comes first. -/
theorem twist_null_vector_left (hi : i < 32) :
    twist (0 : Nat → R) (vector i) b = if b.getLsbD i then 0 else (-1) ^ b.below i := by
  have hdisjoint := vector_and_eq_zero (b := b) hi
  rw [twist_null, swapSign, productFlips_vector_left hi]
  by_cases hset : b.getLsbD i = true
  · rw [if_pos hset, if_neg fun h => by simp [hdisjoint.1 h] at hset]
  · rw [if_neg hset, if_pos (hdisjoint.2 (by simpa using hset))]

/-- The factor of a vector that comes last. -/
theorem twist_null_vector_right (hj : j < 32) :
    twist (0 : Nat → R) b (vector j) =
      if b.getLsbD j then 0 else (-1) ^ grade (b >>> (j + 1)) := by
  have hdisjoint := vector_and_eq_zero (b := b) hj
  rw [twist_null, BitVec.and_comm, swapSign, productFlips_vector_right hj]
  by_cases hset : b.getLsbD j = true
  · rw [if_pos hset, if_neg fun h => by simp [hdisjoint.1 h] at hset]
  · rw [if_neg hset, if_pos (hdisjoint.2 (by simpa using hset))]

end Blade

namespace ProductKind

/-- The wedge product keeps the pairs of blades without a common vector. -/
theorem includes_wedge {a b : Blade} : wedge.includes a b = true ↔ a &&& b = 0 := by
  have hgrade := Blade.grade_xor a b
  rw [← Blade.grade_eq_zero, includes, decide_eq_true_eq]
  omega

/-- **The wedge product is the geometric product of null vectors.** -/
theorem kernel_wedge (q : Nat → R) : wedge.kernel q = Blade.twist 0 := by
  ext a b
  rw [kernel, Blade.twist_null]
  by_cases hdisjoint : a &&& b = 0
  · rw [if_pos (includes_wedge.2 hdisjoint), if_pos hdisjoint, Blade.twist, hdisjoint,
      Blade.weight_zero, mul_one]
  · rw [if_neg (mt includes_wedge.1 hdisjoint), if_neg hdisjoint]

end ProductKind

namespace Values

/-! ### Linearity -/

theorem smul_single (b : Blade) (x y : R) : x • single b y = single b (x * y) := by
  ext c
  simp [single]

theorem single_sum {ι : Type*} (t : Finset ι) (b : Blade) (x : ι → R) :
    single b (∑ i ∈ t, x i) = ∑ i ∈ t, single b (x i) := by
  ext c
  by_cases hc : b = c <;> simp [single, hc]

theorem convolve_add_right (k : Blade → Blade → R) (f g g' : Values R) :
    convolve k f (g + g') = convolve k f g + convolve k f g' := by
  ext c
  simp only [convolve, Pi.add_apply, ← sum_add_distrib]
  refine sum_congr rfl fun a _ => sum_congr rfl fun b _ => ?_
  split
  · ring
  · rw [add_zero]

theorem convolve_smul_left (k : Blade → Blade → R) (x : R) (f g : Values R) :
    convolve k (x • f) g = x • convolve k f g := by
  ext c
  simp only [convolve, Pi.smul_apply, smul_eq_mul, mul_sum]
  refine sum_congr rfl fun a _ => sum_congr rfl fun b _ => ?_
  split
  · ring
  · rw [mul_zero]

theorem convolve_smul_right (k : Blade → Blade → R) (x : R) (f g : Values R) :
    convolve k f (x • g) = x • convolve k f g := by
  ext c
  simp only [convolve, Pi.smul_apply, smul_eq_mul, mul_sum]
  refine sum_congr rfl fun a _ => sum_congr rfl fun b _ => ?_
  split
  · ring
  · rw [mul_zero]

/-- The wedge product is linear in both factors. -/
noncomputable def wedgeMap : Values R →ₗ[R] Values R →ₗ[R] Values R :=
  LinearMap.mk₂ R wedge (convolve_add_left _) (convolve_smul_left _) (convolve_add_right _)
    (convolve_smul_right _)

theorem wedgeMap_apply (f g : Values R) : wedgeMap f g = wedge f g := rfl

theorem wedge_sum_left {ι : Type*} (t : Finset ι) (f : ι → Values R) (g : Values R) :
    wedge (∑ i ∈ t, f i) g = ∑ i ∈ t, wedge (f i) g := by
  simp only [← wedgeMap_apply, map_sum, LinearMap.sum_apply]

theorem wedge_sum_right {ι : Type*} (t : Finset ι) (f : Values R) (g : ι → Values R) :
    wedge f (∑ i ∈ t, g i) = ∑ i ∈ t, wedge f (g i) := by
  simp only [← wedgeMap_apply, map_sum]

theorem wedge_smul_left (x : R) (f g : Values R) : wedge (x • f) g = x • wedge f g :=
  convolve_smul_left _ x f g

theorem wedge_smul_right (x : R) (f g : Values R) : wedge f (x • g) = x • wedge f g :=
  convolve_smul_right _ x f g

theorem wedge_neg_left (f g : Values R) : wedge (-f) g = -wedge f g := by
  simp only [← wedgeMap_apply, map_neg, LinearMap.neg_apply]

theorem wedge_assoc (f g h : Values R) : wedge (wedge f g) h = wedge f (wedge g h) :=
  geometric_assoc 0 f g h

theorem one_wedge (f : Values R) : wedge (scalar 1) f = f := scalar_one_geometric 0 f

theorem wedge_one (f : Values R) : wedge f (scalar 1) = f := geometric_scalar_one 0 f

/-! ### Vectors -/

theorem IsVector.sum {ι : Type*} {t : Finset ι} {f : ι → Values R} (h : ∀ i ∈ t, (f i).IsVector) :
    (∑ i ∈ t, f i).IsVector := by
  intro b hb
  rw [Finset.sum_apply]
  exact sum_eq_zero fun i hi => h i hi b hb

/-- Two equal vectors cancel. -/
theorem IsVector.wedge_self {f : Values R} (hf : f.IsVector) : wedge f f = 0 := by
  have hnorm : normSquared 0 f = 0 := by
    refine sum_eq_zero fun b _ => ?_
    rw [Blade.weight_null]
    by_cases hb : b = 0
    · rw [hf b (by rw [hb, Blade.grade_zero]; decide), mul_zero, mul_zero]
    · rw [if_neg hb, zero_mul]
  rw [wedge, hf.mul_self, hnorm]
  exact single_zero 0

/-- Vectors anticommute. -/
theorem IsVector.wedge_swap {f g : Values R} (hf : f.IsVector) (hg : g.IsVector) :
    wedge f g = -wedge g f := by
  have hsquare := (hf.add hg).wedge_self
  simp only [← wedgeMap_apply, map_add, LinearMap.add_apply] at hsquare
  simp only [wedgeMap_apply, hf.wedge_self, hg.wedge_self, zero_add, add_zero] at hsquare
  exact eq_neg_of_add_eq_zero_right hsquare

theorem entry_of_le {matrix : List (List (Option R))} {j : Nat} (hj : matrix.length ≤ j) (i : Nat) :
    entry matrix j i = 0 := by
  rw [entry, List.getD_eq_default _ _ hj]
  rfl

/-- Rows that are missing add nothing. -/
theorem column_eq_sum {matrix : List (List (Option R))} {n : Nat} (hn : matrix.length ≤ n)
    (i : Nat) : column matrix i = ∑ j ∈ range n, single (.vector j) (entry matrix j i) := by
  refine sum_subset (range_subset_range.2 hn) fun j _ hj => ?_
  rw [entry_of_le (by simpa using hj), single_zero]

theorem isVector_column {matrix : List (List (Option R))} (hrows : matrix.length ≤ 32) (i : Nat) :
    (column matrix i).IsVector := by
  refine .sum fun j hj => .single ?_ _
  have := mem_range.1 hj
  omega

/-! ### Placements -/

/-- A vector behind the vectors of a blade. -/
theorem wedge_single_vector (b : Blade) {j : Nat} (hj : j < 32) (x y : R) :
    wedge (single b x) (single (.vector j) y) =
      if b.getLsbD j then 0
      else single (b ||| .vector j) ((-1) ^ Blade.grade (b >>> (j + 1)) * (x * y)) := by
  rw [wedge, convolve_single_single, Blade.twist_null_vector_right hj]
  by_cases hset : b.getLsbD j = true
  · rw [if_pos hset, if_pos hset, zero_mul, single_zero]
  · rw [if_neg hset, if_neg hset]
    congr 1
    refine BitVec.eq_of_getLsbD_eq fun k _ => ?_
    rw [BitVec.getLsbD_xor, BitVec.getLsbD_or, Blade.getLsbD_vector]
    by_cases hk : j = k
    · subst hk
      simp [hset]
    · simp [hk]

/-- **The placements of vectors add up to the wedge product of their images.** -/
theorem placed_eq_wedge {matrix : List (List (Option R))} (hrows : matrix.length ≤ 32)
    (positions : List Nat) (b : Blade) (flips : Nat) (x : R) :
    placed matrix positions b flips x =
      wedge (single b ((-1) ^ flips * x)) (image matrix positions) := by
  induction positions generalizing b flips x with
  | nil => rw [placed, image, wedge_one]
  | cons i rest ih =>
    rw [placed, sum_map_zipIdx matrix [], image, ← wedge_assoc, column, wedge_sum_right,
      wedge_sum_left]
    refine sum_congr rfl fun j hj => ?_
    have hj' : j < 32 := by
      have := mem_range.1 hj
      omega
    rw [wedge_single_vector b hj', entry]
    dsimp only
    split
    · exact (LinearMap.map_zero₂ wedgeMap _).symm
    · rw [ih]
      congr 2
      ring

/-- **An outermorphism maps every blade to its image.** -/
theorem outermorphism_eq_sum {matrix : List (List (Option R))} (hrows : matrix.length ≤ 32)
    (f : Values R) : outermorphism matrix f = ∑ b : Blade, f b • image matrix b.positions := by
  refine sum_congr rfl fun b _ => ?_
  rw [placed_eq_wedge hrows, pow_zero, one_mul, wedge]
  exact scalar_convolve 0 (f b) _

end Values

end Clifford
