import Clifford.Proofs.Algebra.Associativity
import Clifford.Proofs.Values.Exterior
import Mathlib.Algebra.Module.BigOperators

/-!
# Outermorphisms and wedge products

The images of blades multiply like the blades themselves: moving a vector to its place in a sorted
product takes the same transpositions as moving its image. So an outermorphism is a homomorphism of
the wedge product. It is determined by the images of vectors, and therefore the composition of two
outermorphisms is that of the product of their matrices.

## Main definitions

- `Reading.IsProduct` — products of matrices

## Main results

- `Values.wedge_image` — the wedge product of the images of two blades
- `Values.outermorphism_wedge`, `Values.outermorphism_outermorphism` — both laws for coefficients
- `Algebra.outermorphism_functorial` — both laws for multivectors
-/

namespace Clifford

open Finset

variable {σ K S V : Type}

namespace Values

variable {R : Type*} [CommRing R] {P Q N : List (List (Option R))} {b : Blade} {i : Nat}

theorem image_vector_xor (hi : i < 32) (hlow : ∀ j ≤ i, b.getLsbD j = false) :
    image N (Blade.vector i ^^^ b).positions = wedge (column N i) (image N b.positions) := by
  rw [Blade.positions_vector_xor hi hlow, image]

theorem twist_null_of_lower (hi : i < 32) (hlow : ∀ j ≤ i, b.getLsbD j = false) :
    Blade.twist (0 : Nat → R) (.vector i) b = 1 := by
  rw [Blade.twist_null_vector_left hi, Blade.below_eq_zero fun j hj => hlow j hj.le]
  simp [hlow i le_rfl]

/-- The image of a vector, in front of the images of the vectors of a blade. -/
theorem wedge_column_image (hrows : N.length ≤ 32) (hi : i < 32) (b : Blade) :
    wedge (column N i) (image N b.positions) =
      Blade.twist (0 : Nat → R) (.vector i) b • image N (Blade.vector i ^^^ b).positions := by
  have hlower : ∀ b : Blade, (∀ j ≤ i, b.getLsbD j = false) →
      wedge (column N i) (image N b.positions) =
        Blade.twist (0 : Nat → R) (.vector i) b • image N (Blade.vector i ^^^ b).positions := by
    intro b hlow
    rw [twist_null_of_lower hi hlow, one_smul, image_vector_xor hi hlow]
  induction b using Blade.induction_lowest with
  | zero => exact hlower 0 fun _ _ => BitVec.getLsbD_zero
  | add l b hl hlow ih =>
    rcases Nat.lt_trichotomy i l with hlt | rfl | hgt
    · refine hlower _ fun j hj => ?_
      have hne : l ≠ j := by omega
      simp [Blade.getLsbD_vector_xor hl, hne, hlow j (by omega)]
    · -- The vector occurs twice.
      have htwist : Blade.twist (0 : Nat → R) (.vector i) (Blade.vector i ^^^ b) = 0 := by
        simp [Blade.twist_null_vector_left hi, Blade.getLsbD_vector_xor hi, hlow i le_rfl]
      rw [image_vector_xor hl hlow, ← wedge_assoc, (isVector_column hrows i).wedge_self, htwist,
        zero_smul]
      exact LinearMap.map_zero₂ wedgeMap _
    · -- The lowest vector of the blade stays the lowest one, and the other one passes it.
      have hlow' : ∀ j ≤ l, (Blade.vector i ^^^ b).getLsbD j = false := by
        intro j hj
        have hne : i ≠ j := by omega
        simp [Blade.getLsbD_vector_xor hi, hne, hlow j hj]
      have htwist : Blade.twist (0 : Nat → R) (.vector i) (Blade.vector l ^^^ b) =
          -Blade.twist (0 : Nat → R) (.vector i) b := by
        rw [Blade.twist_null_vector_left hi, Blade.twist_null_vector_left hi,
          Blade.below_vector_xor_of_lt hgt hl (hlow l le_rfl), Blade.getLsbD_vector_xor hl,
          decide_eq_false hgt.ne, Bool.false_xor, pow_succ]
        split <;> simp
      have hswap := (isVector_column hrows i).wedge_swap (isVector_column hrows l)
      have hxor : Blade.vector i ^^^ (Blade.vector l ^^^ b) =
          Blade.vector l ^^^ (Blade.vector i ^^^ b) := by
        rw [← BitVec.xor_assoc, BitVec.xor_comm (Blade.vector i), BitVec.xor_assoc]
      rw [image_vector_xor hl hlow, ← wedge_assoc, hswap, hxor, image_vector_xor hl hlow', htwist,
        neg_smul, ← wedge_smul_right, ← ih, ← wedge_assoc, wedge_neg_left]

/-- **The images of two blades multiply like the blades.** -/
theorem wedge_image (hrows : N.length ≤ 32) (a b : Blade) :
    wedge (image N a.positions) (image N b.positions) =
      Blade.twist (0 : Nat → R) a b • image N (a ^^^ b).positions := by
  induction a using Blade.induction_lowest with
  | zero =>
    have hxor : (0 : Blade) ^^^ b = b := BitVec.zero_xor
    rw [Blade.positions_zero, image, one_wedge, Blade.twist_zero_left, one_smul, hxor]
  | add i a hi hlow ih =>
    have hcocycle := Blade.twist_cocycle (0 : Nat → R) (.vector i) a b
    rw [twist_null_of_lower hi hlow, one_mul] at hcocycle
    rw [image_vector_xor hi hlow, wedge_assoc, ih, wedge_smul_right, wedge_column_image hrows hi,
      smul_smul, hcocycle, BitVec.xor_assoc]

/-! ### Laws of outermorphisms -/

theorem outermorphism_single (hrows : N.length ≤ 32) (b : Blade) (x : R) :
    outermorphism N (single b x) = x • image N b.positions := by
  rw [outermorphism_eq_sum hrows, Fintype.sum_eq_single b, single_self]
  intro c hc
  rw [single_of_ne x hc.symm, zero_smul]

theorem outermorphism_sum (hrows : N.length ≤ 32) {ι : Type*} (t : Finset ι) (f : ι → Values R) :
    outermorphism N (∑ i ∈ t, f i) = ∑ i ∈ t, outermorphism N (f i) := by
  simp only [outermorphism_eq_sum hrows, Finset.sum_apply, Finset.sum_smul]
  exact sum_comm

theorem outermorphism_smul (hrows : N.length ≤ 32) (x : R) (f : Values R) :
    outermorphism N (x • f) = x • outermorphism N f := by
  simp only [outermorphism_eq_sum hrows, smul_sum, Pi.smul_apply, smul_eq_mul, mul_smul]

/-- **An outermorphism is a homomorphism of the wedge product.** -/
theorem outermorphism_wedge (hrows : N.length ≤ 32) (f g : Values R) :
    outermorphism N (wedge f g) = wedge (outermorphism N f) (outermorphism N g) := by
  rw [wedge, convolve_eq_sum_single, outermorphism_sum hrows, outermorphism_eq_sum hrows f,
    wedge_sum_left]
  refine sum_congr rfl fun a _ => ?_
  rw [outermorphism_sum hrows, outermorphism_eq_sum hrows g, wedge_sum_right]
  refine sum_congr rfl fun b _ => ?_
  rw [outermorphism_single hrows, wedge_smul_left, wedge_smul_right, wedge_image hrows, smul_smul,
    smul_smul, mul_comm, mul_assoc]

theorem outermorphism_scalar (hrows : N.length ≤ 32) (x : R) :
    outermorphism N (scalar x) = scalar x := by
  rw [scalar, outermorphism_single hrows, Blade.positions_zero, image, scalar, smul_single,
    mul_one]

/-- The image of a vector under a composition. -/
theorem outermorphism_column (hP : P.length ≤ 32) (hN : N.length ≤ 32) {n : Nat}
    (hQ : Q.length ≤ n) (hn : n ≤ 32)
    (hproduct : ∀ j i, entry N j i = ∑ k ∈ range n, entry P j k * entry Q k i) (i : Nat) :
    outermorphism P (column Q i) = column N i := by
  have hvector : ∀ k ∈ range n, outermorphism P (single (.vector k) (entry Q k i)) =
      ∑ j ∈ range 32, single (.vector j) (entry P j k * entry Q k i) := by
    intro k hk
    have hk' : k < 32 := (mem_range.1 hk).trans_le hn
    rw [outermorphism_single hP, Blade.positions_vector hk', image, image, wedge_one,
      column_eq_sum hP, smul_sum]
    refine sum_congr rfl fun j _ => ?_
    rw [smul_single, mul_comm]
  rw [column_eq_sum hQ, outermorphism_sum hP, sum_congr rfl hvector, sum_comm, column_eq_sum hN]
  refine sum_congr rfl fun j _ => ?_
  rw [hproduct, single_sum]

/-- **The composition of two outermorphisms is that of the product of their matrices.** -/
theorem outermorphism_outermorphism (hP : P.length ≤ 32) (hN : N.length ≤ 32) {n : Nat}
    (hQ : Q.length ≤ n) (hn : n ≤ 32)
    (hproduct : ∀ j i, entry N j i = ∑ k ∈ range n, entry P j k * entry Q k i) (f : Values R) :
    outermorphism P (outermorphism Q f) = outermorphism N f := by
  have himage : ∀ positions, outermorphism P (image Q positions) = image N positions := by
    intro positions
    induction positions with
    | nil => exact outermorphism_scalar hP 1
    | cons i rest ih =>
      rw [image, image, outermorphism_wedge hP, ih, outermorphism_column hP hN hQ hn hproduct]
  simp only [outermorphism_eq_sum (hQ.trans hn), outermorphism_eq_sum hN, outermorphism_sum hP,
    outermorphism_smul hP, himage]

end Values

variable [Number K] [ExactNumber K] {M : Reading σ K S V} {s : σ}

/-- The entries of a matrix are those of the product of two others, the rows of the second of which
are among the first `n`. -/
def Reading.IsProduct (M : Reading σ K S V) (s : σ) (n : Nat) (P Q N : SparseMatrix K S) : Prop :=
  ∀ j i, M.entry s N j i = ∑ k ∈ range n, M.entry s P j k * M.entry s Q k i

theorem Reading.isProduct_two {P Q N : SparseMatrix K S}
    (h : ∀ j i, M.entry s N j i =
      M.entry s P j 0 * M.entry s Q 0 i + M.entry s P j 1 * M.entry s Q 1 i) :
    M.IsProduct s 2 P Q N := by
  intro j i
  rw [h, sum_range_succ, sum_range_one]

namespace Algebra

variable [Target σ K S V] {A : Algebra K S} {a b : Multivector K S}
  {P Q N : SparseMatrix K S} {q : Nat → K} {f g : Values K}

theorem wedge_gives (hM : M.Sound) (hA : M.Ready A s q) (ha : M.Denotes A s a f)
    (hb : M.Denotes A s b g) :
    (A.mul .wedge a b : Emission σ K (Multivector K S)).Gives s fun r s' =>
      M.Advances s s' ∧ M.Denotes A s' r (Values.wedge f g) := by
  refine .mono (mul_gives hM hA ha hb .wedge) ?_
  rintro r s' ⟨hadv, hr, -⟩
  rw [ProductKind.kernel_wedge] at hr
  exact ⟨hadv, hr⟩

/-- **Outermorphisms are functorial homomorphisms of the wedge product.** The image of a wedge
product is the wedge product of the images, and the image of an image is the image under the
product of the matrices. The matrices may have short and missing rows, and their entries may be
absent, zero, numeric or symbolic. -/
theorem outermorphism_functorial (hM : M.Sound) (hopen : M.Open s [])
    (hmetric : ∀ square ∈ A.metric, M.Known s square) (ha : M.Member A s a)
    (hb : M.Member A s b) (hP : M.KnownMatrix s P) (hQ : M.KnownMatrix s Q)
    (hN : M.KnownMatrix s N) (hProws : P.length ≤ A.dimension) (hQrows : Q.length ≤ A.dimension)
    (hNrows : N.length ≤ A.dimension) (hproduct : M.IsProduct s A.dimension P Q N) :
    Emission.Gives (do
      let ab ← A.mul .wedge a b
      let left ← A.outermorphism ab P
      let aImage ← A.outermorphism a P
      let bImage ← A.outermorphism b P
      let right ← A.mul .wedge aImage bImage
      let inner ← A.outermorphism a Q
      let nested ← A.outermorphism inner P
      let direct ← A.outermorphism a N
      pure (left, right, nested, direct)) s fun (left, right, nested, direct) s' =>
        M.Agree s' left right ∧ M.Agree s' nested direct := by
  have hA : M.Ready A s (M.squares s A.metric) := ⟨hopen, Reading.squares_spec hmetric⟩
  have hlimit : A.dimension ≤ 32 := A.dimension_le.trans (by decide)
  have hlength : ∀ {matrix : SparseMatrix K S}, matrix.length ≤ A.dimension →
      (M.matrixValues s matrix).length ≤ 32 := by
    intro matrix hrows
    rw [Reading.length_matrixValues]
    exact hrows.trans hlimit
  have hvalues : ∀ j i, Values.entry (M.matrixValues s N) j i =
      ∑ k ∈ range A.dimension, Values.entry (M.matrixValues s P) j k *
        Values.entry (M.matrixValues s Q) k i := by
    intro j i
    simp only [SparseMatrix.entry_matrixValues]
    exact hproduct j i
  have ha₀ := ha.denotes
  have hb₀ := hb.denotes
  have image : ∀ {s' m f} {matrix : SparseMatrix K S}, M.Advances s s' → M.KnownMatrix s matrix →
      matrix.length ≤ A.dimension → M.Denotes A s' m f →
      (A.outermorphism m matrix : Emission σ K (Multivector K S)).Gives s' fun r s'' =>
        M.Advances s' s'' ∧
          M.Denotes A s'' r (Values.outermorphism (M.matrixValues s matrix) f) := by
    intro s' m f matrix hadv hknown hrows hm
    have hmatrix := hknown.hasMatrix.mono hadv.symbols
    refine .mono (outermorphism_gives hM hadv.ready hm hmatrix hrows) ?_
    rintro r s'' ⟨hadv', hr, -⟩
    exact ⟨hadv', hr⟩
  refine .bind (.mono (wedge_gives hM hA ha₀ hb₀) ?_)
  rintro ab s₁ ⟨hadv₁, hab⟩
  have hadv := hadv₁
  refine .bind (.mono (image hadv hP hProws hab) ?_)
  rintro left s₂ ⟨hadv₂, hleft⟩
  have hadv := hadv.trans hadv₂
  refine .bind (.mono (image hadv hP hProws (ha₀.mono hadv.symbols)) ?_)
  rintro aImage s₃ ⟨hadv₃, haImage⟩
  have hadv := hadv.trans hadv₃
  refine .bind (.mono (image hadv hP hProws (hb₀.mono hadv.symbols)) ?_)
  rintro bImage s₄ ⟨hadv₄, hbImage⟩
  have hadv := hadv.trans hadv₄
  refine .bind (.mono (wedge_gives hM (hA.advance hadv) (haImage.mono hadv₄.symbols) hbImage) ?_)
  rintro right s₅ ⟨hadv₅, hright⟩
  have hadv := hadv.trans hadv₅
  refine .bind (.mono (image hadv hQ hQrows (ha₀.mono hadv.symbols)) ?_)
  rintro inner s₆ ⟨hadv₆, hinner⟩
  have hadv := hadv.trans hadv₆
  refine .bind (.mono (image hadv hP hProws hinner) ?_)
  rintro nested s₇ ⟨hadv₇, hnested⟩
  have hadv := hadv.trans hadv₇
  refine .bind (.mono (image hadv hN hNrows (ha₀.mono hadv.symbols)) ?_)
  rintro direct s₈ ⟨hadv₈, hdirect⟩
  have hQlength : (M.matrixValues s Q).length ≤ A.dimension := by
    rw [Reading.length_matrixValues]
    exact hQrows
  rw [Values.outermorphism_wedge (hlength hProws)] at hleft
  rw [Values.outermorphism_outermorphism (hlength hProws) (hlength hNrows) hQlength hlimit hvalues]
    at hnested
  have hleft' := hleft.mono
    ((((((hadv₃.trans hadv₄).trans hadv₅).trans hadv₆).trans hadv₇).trans hadv₈).symbols)
  have hright' := hright.mono (((hadv₆.trans hadv₇).trans hadv₈).symbols)
  exact .pure ⟨hleft'.agree hright', (hnested.mono hadv₈.symbols).agree hdirect⟩

end Algebra

/-! ### Matrices with a symbol -/

/-- The first vector stays, and the second one goes to the input times the first one and twice
itself. -/
def SparseMatrix.inputShear : SparseMatrix ℚ Handle :=
  [[some (.number 1), some Program.singleInput.1], [none, some (.number 2)]]

/-- The vectors are swapped and scaled, one of them by the input. -/
def SparseMatrix.inputSwap : SparseMatrix ℚ Handle :=
  [[none, some (.number 3)], [some Program.singleInput.1]]

/-- What the swap and then the shear make of the vectors, if the input is five. -/
def SparseMatrix.swapThenShear : SparseMatrix ℚ Handle :=
  [[some (.number 25), some (.number 3)], [some (.number 10)]]

theorem SparseMatrix.isProduct_swapThenShear :
    (Program.reading fun _ => some 5).IsProduct Program.singleInput.2 2 inputShear inputSwap
      swapThenShear := by
  have hinput := Program.value_singleInput 5
  refine Reading.isProduct_two fun j i => ?_
  rcases j with _ | _ | j <;> rcases i with _ | _ | i <;>
    simp [Reading.entry, inputShear, inputSwap, swapThenShear, hinput]
  · exact (by norm_num : (25 : ℚ) = 5 * 5)
  · exact (by norm_num : (10 : ℚ) = 2 * 5)

theorem Algebra.outermorphism_functorial_inputPlane :
    Emission.Gives (do
      let ab ← inputPlane.mul .wedge (.inInputPlane 1) (.inInputPlane 2)
      let left ← inputPlane.outermorphism ab .inputShear
      let aImage ← inputPlane.outermorphism (.inInputPlane 1) .inputShear
      let bImage ← inputPlane.outermorphism (.inInputPlane 2) .inputShear
      let right ← inputPlane.mul .wedge aImage bImage
      let inner ← inputPlane.outermorphism (.inInputPlane 1) .inputSwap
      let nested ← inputPlane.outermorphism inner .inputShear
      let direct ← inputPlane.outermorphism (.inInputPlane 1) .swapThenShear
      pure (left, right, nested, direct)) Program.singleInput.2
        fun (left, right, nested, direct) s' =>
          (Program.reading fun _ => some 5).Agree s' left right ∧
            (Program.reading fun _ => some 5).Agree s' nested direct := by
  have hinput := Program.known_singleInput 5
  refine outermorphism_functorial Program.sound_reading (Program.orderly_singleInput _)
    (known_inputPlane _) (Multivector.member_inInputPlane _ 1)
    (Multivector.member_inInputPlane _ 2) ?_ ?_ ?_ (by decide) (by decide) (by decide)
    SparseMatrix.isProduct_swapThenShear <;>
  simp [Reading.KnownMatrix, SparseMatrix.inputShear, SparseMatrix.inputSwap,
    SparseMatrix.swapThenShear, hinput]

end Clifford
