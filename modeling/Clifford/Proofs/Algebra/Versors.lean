import Clifford.Proofs.Algebra.GradePreservation
import Clifford.Proofs.Algebra.Norm

/-!
# The norm of versors

A versor times its reverse is a scalar, on either side, and this scalar is the squared norm. The
squared norm of a product is therefore the product of the squared norms if one factor is a versor,
in any diagonal metric. Changes of sign by grade, reversion and conjugation lead from versors to
versors.

## Main results

- `Values.Versor.single` — a single component is a versor
- `Values.Versor.reversed`, `Values.Versor.involuted`, `Values.Versor.conjugate` — operations on
  versors
- `Values.Versor.mul_reversed` — a versor times its reverse is its squared norm
- `Values.Versor.normSquared_mul`, `Values.Versor.normSquared_mul_left` — multiplying by a versor
  multiplies the squared norm by its own
-/

namespace Clifford

open Finset

namespace Blade

theorem getLsbD_vector (i j : Nat) :
    (vector i).getLsbD j = (decide (i < 32) && decide (i = j)) :=
  BitVec.getLsbD_twoPow i j

theorem grade_zero : grade (0 : Blade) = 0 := by rw [grade, dif_pos rfl]

theorem grade_vector {i : Nat} (hi : i < 32) : (vector i).grade = 1 := by
  rw [grade_eq_below, below, sum_eq_single i]
  · rw [getLsbD_vector, decide_eq_true hi, decide_eq_true rfl]
    rfl
  · intro j _ hj
    rw [getLsbD_vector, decide_eq_false (Ne.symm hj), Bool.and_false]
    rfl
  · exact fun h => absurd (mem_range.2 hi) h

theorem weight_vector {R : Type*} [CommRing R] (m : Nat → R) {i : Nat} (hi : i < 32) :
    (vector i).weight m = m i := by
  rw [weight, prod_eq_single i]
  · rw [getLsbD_vector, decide_eq_true hi, decide_eq_true rfl]
    rfl
  · intro j _ hj
    rw [getLsbD_vector, decide_eq_false (Ne.symm hj), Bool.and_false]
    rfl
  · exact fun h => absurd (mem_range.2 hi) h

/-- A blade is its lowest vector and the rest. -/
theorem vector_xor_dropLowest {b : Blade} (hb : b ≠ 0) :
    vector b.lowest ^^^ b.dropLowest = b := by
  refine BitVec.eq_of_getLsbD_eq fun i _ => ?_
  rw [BitVec.getLsbD_xor, getLsbD_vector, getLsbD_dropLowest hb, decide_eq_true (lowest_lt hb)]
  by_cases hi : b.lowest = i
  · subst hi
    simp [getLsbD_lowest hb]
  · simp [hi, Ne.symm hi]

theorem vector_and_dropLowest {b : Blade} (hb : b ≠ 0) :
    vector b.lowest &&& b.dropLowest = 0 := by
  refine BitVec.eq_of_getLsbD_eq fun i _ => ?_
  rw [BitVec.getLsbD_and, getLsbD_vector, getLsbD_dropLowest hb]
  by_cases hi : b.lowest = i
  · subst hi
    simp
  · simp [hi]

end Blade

namespace Values

variable {R : Type*} [CommRing R] {q : Nat → R} {f g : Values R}

theorem convolve_single_single (k : Blade → Blade → R) (a b : Blade) (x y : R) :
    convolve k (single a x) (single b y) = single (a ^^^ b) (k a b * (x * y)) := by
  rw [convolve_single_left, Fintype.sum_eq_single b, single_self]
  intro c hc
  rw [single_of_ne y (Ne.symm hc), mul_zero, mul_zero, single_zero]

/-! ### Closure -/

/-- The coefficients of the grade involution. -/
def involuted (f : Values R) : Values R := flipped (fun b => isOdd b.grade) f

theorem involuted_apply (f : Values R) (b : Blade) : involuted f b = (-1) ^ b.grade * f b :=
  ite_isOdd_neg b.grade (f b)

/-- The grade involution of a product is the product of the grade involutions. -/
theorem involuted_convolve (k : Blade → Blade → R) (f g : Values R) :
    involuted (convolve k f g) = convolve k (involuted f) (involuted g) := by
  have hsign : ∀ a b : Blade, (-1 : R) ^ (a ^^^ b).grade = (-1) ^ a.grade * (-1) ^ b.grade := by
    intro a b
    rw [← pow_add, ← Blade.grade_xor, pow_add, pow_mul, neg_one_sq, one_pow, mul_one]
  funext c
  rw [involuted_apply, convolve, convolve, mul_sum]
  refine sum_congr rfl fun a _ => ?_
  rw [mul_sum]
  refine sum_congr rfl fun b _ => ?_
  rw [mul_ite, mul_zero]
  split
  · rename_i hc
    rw [← hc, hsign, involuted_apply, involuted_apply]
    ring
  · rfl

/-- The Clifford conjugate is the grade involution of the reverse. -/
theorem flipped_conjugate (f : Values R) :
    flipped (fun b => isOdd (b.grade + b.reverseFlips)) f = involuted (reversed f) := by
  funext b
  rw [involuted_apply, reversed_apply, ← mul_assoc, ← pow_add]
  exact ite_isOdd_neg (b.grade + b.reverseFlips) (f b)

namespace IsVector

theorem reversed_eq (hf : f.IsVector) : reversed f = f := by
  funext b
  by_cases hb : b.grade = 1
  · rw [Values.reversed_eq, Blade.reverseSign_of_grade_one hb, one_mul]
  · rw [Values.reversed_eq, hf b hb, mul_zero]

theorem involuted_eq (hf : f.IsVector) : involuted f = -f := by
  funext b
  by_cases hb : b.grade = 1
  · rw [involuted_apply, hb, pow_one, neg_one_mul]
    rfl
  · rw [involuted_apply, Pi.neg_apply, hf b hb, mul_zero, neg_zero]

theorem add (hf : f.IsVector) (hg : g.IsVector) : (f + g).IsVector := by
  intro b hb
  rw [Pi.add_apply, hf b hb, hg b hb, add_zero]

theorem single {i : Nat} (hi : i < 32) (x : R) : (Values.single (.vector i) x).IsVector := by
  intro b hb
  refine single_of_ne x fun h => hb ?_
  rw [← h, Blade.grade_vector hi]

end IsVector

namespace Versor

theorem zero : Versor q (0 : Values R) := by
  have hzero : Values.scalar (0 : R) = 0 := single_zero 0
  rw [← hzero]
  exact .scalar 0

theorem scale (hf : Versor q f) (x : R) : Versor q fun b => x * f b := by
  rw [← scalar_convolve q]
  exact .mul (.scalar x) hf

theorem neg (hf : Versor q f) : Versor q (-f) := by
  have hscaled : -f = fun b => -1 * f b := funext fun b => (neg_one_mul (f b)).symm
  rw [hscaled]
  exact hf.scale (-1)

theorem reversed (hf : Versor q f) : Versor q (Values.reversed f) := by
  induction hf with
  | scalar x =>
    rw [reversed_scalar]
    exact .scalar x
  | vector hv =>
    rw [hv.reversed_eq]
    exact .vector hv
  | mul _ _ ihf ihg =>
    rw [reversed_convolve]
    exact ihg.mul ihf

theorem involuted (hf : Versor q f) : Versor q (Values.involuted f) := by
  induction hf with
  | scalar x =>
    have hsame : Values.involuted (Values.scalar x) = Values.scalar x := by
      funext b
      rw [involuted_apply]
      by_cases hb : b = 0
      · subst hb
        rw [Blade.grade_zero, pow_zero, one_mul]
      · rw [scalar_of_ne hb, mul_zero]
    rw [hsame]
    exact .scalar x
  | vector hv =>
    rw [hv.involuted_eq]
    exact (vector hv).neg
  | mul _ _ ihf ihg =>
    rw [involuted_convolve]
    exact ihf.mul ihg

theorem conjugate (hf : Versor q f) (hg : Versor q g) : Versor q (Values.conjugate q f g) :=
  (hf.mul hg).mul hf.reversed

theorem foldr_conjugate {fs : List (Values R)} (hfs : ∀ f ∈ fs, Versor q f) (hg : Versor q g) :
    Versor q (fs.foldr (Values.conjugate q) g) := by
  induction fs with
  | nil => exact hg
  | cons f fs ih =>
    obtain ⟨hf, hrest⟩ := List.forall_mem_cons.1 hfs
    exact hf.conjugate (ih hrest)

/-- **A single component is a versor**: its blade is a product of basis vectors. -/
theorem single (b : Blade) (x : R) : Versor q (Values.single b x) := by
  induction b using Blade.positions.induct generalizing x with
  | case1 => exact .scalar x
  | case2 b hb ih =>
    -- The lowest vector times the rest is the blade, up to a sign that the coefficient takes up.
    let ε : R := Blade.swapSign R (.vector b.lowest) b.dropLowest
    have hfront : Versor q (Values.single (.vector b.lowest) (1 : R)) :=
      .vector (IsVector.single (Blade.lowest_lt hb) 1)
    have hproduct := hfront.mul (ih (ε * x))
    have hsquare : ε * ε = 1 := Blade.swapSign_mul_self _ _
    rw [convolve_single_single, Blade.vector_xor_dropLowest hb, Blade.twist,
      Blade.vector_and_dropLowest hb, Blade.weight_zero, mul_one, one_mul, ← mul_assoc, hsquare,
      one_mul] at hproduct
    exact hproduct

/-! ### Norms -/

end Versor

/-- The scalar part of the product with the reverse. -/
theorem convolve_reversed_zero (q : Nat → R) (f : Values R) :
    convolve (Blade.twist q) f (reversed f) 0 = normSquared q f := by
  rw [convolve_apply_zero, normSquared]
  refine sum_congr rfl fun a _ => ?_
  have hand : a &&& a = a := BitVec.and_self
  rw [Blade.twist, hand, reversed_eq, Blade.reverseSign_eq_swapSign]
  linear_combination (a.weight q * (f a * f a)) * Blade.swapSign_mul_self (R := R) a a

/-- The square of a vector is a scalar. -/
theorem IsVector.mul_self (hf : f.IsVector) :
    convolve (Blade.twist q) f f = Values.scalar (normSquared q f) := by
  -- It is the conjugation of one, so it has the grade of one.
  have hconjugate : conjugate q f (scalar 1) = convolve (Blade.twist q) f f := by
    rw [Values.conjugate, geometric_scalar_one, hf.reversed_eq]
  funext b
  by_cases hb : b = 0
  · rw [hb, scalar_zero, ← convolve_reversed_zero, hf.reversed_eq]
  · rw [scalar_of_ne hb, ← hconjugate]
    refine hf.conjugate_eq_zero fun i hi => scalar_of_ne (fun hzero => hb ?_) 1
    rw [hzero, Blade.grade_zero, Blade.grade] at hi
    by_contra hne
    rw [dif_neg hne] at hi
    cases hi

namespace Versor

/-- A versor times its reverse is a scalar, on either side. -/
theorem exists_norm (hf : Versor q f) :
    ∃ n, convolve (Blade.twist q) f (Values.reversed f) = Values.scalar n ∧
      convolve (Blade.twist q) (Values.reversed f) f = Values.scalar n := by
  induction hf with
  | scalar x =>
    refine ⟨x * x, ?_⟩
    rw [reversed_scalar, convolve_scalar_scalar (Blade.twist_zero_left q 0)]
    exact ⟨rfl, rfl⟩
  | vector hv =>
    rw [hv.reversed_eq, hv.mul_self]
    exact ⟨_, rfl, rfl⟩
  | mul _ _ ihf ihg =>
    -- The inner factors make a scalar, which can be moved out.
    rename_i f g _ _
    obtain ⟨n, hfn, hfn'⟩ := ihf
    obtain ⟨m, hgm, hgm'⟩ := ihg
    refine ⟨m * n, ?_, ?_⟩
    · rw [reversed_convolve, geometric_assoc, ← geometric_assoc q g, hgm, ← geometric_assoc,
        convolve_scalar, ← scalar_convolve q, geometric_assoc, hfn,
        convolve_scalar_scalar (Blade.twist_zero_left q 0)]
    · rw [reversed_convolve, geometric_assoc, ← geometric_assoc q (Values.reversed f), hfn',
        ← geometric_assoc, convolve_scalar, ← scalar_convolve q, geometric_assoc, hgm',
        convolve_scalar_scalar (Blade.twist_zero_left q 0), mul_comm]

/-- **A versor times its reverse is its squared norm.** -/
theorem mul_reversed (hf : Versor q f) :
    convolve (Blade.twist q) f (Values.reversed f) = Values.scalar (normSquared q f) := by
  obtain ⟨n, hn, -⟩ := hf.exists_norm
  rw [← convolve_reversed_zero, hn, scalar_zero]

/-- **Multiplying by a versor multiplies the squared norm by its own.** Only the right factor has to
be a versor: its product with its reverse is a scalar, which can be moved out. -/
theorem normSquared_mul (hg : Versor q g) (f : Values R) :
    normSquared q (convolve (Blade.twist q) f g) = normSquared q f * normSquared q g := by
  have hproduct : convolve (Blade.twist q) (convolve (Blade.twist q) f g)
      (Values.reversed (convolve (Blade.twist q) f g)) =
        convolve (Blade.twist q) (Values.scalar (normSquared q g))
          (convolve (Blade.twist q) f (Values.reversed f)) := by
    rw [reversed_convolve, geometric_assoc, ← geometric_assoc q g, hg.mul_reversed,
      ← geometric_assoc, convolve_scalar, ← scalar_convolve q, geometric_assoc]
  rw [← convolve_reversed_zero, hproduct, scalar_convolve, ← convolve_reversed_zero q f, mul_comm]

end Versor

theorem normSquared_flipped (flip : Blade → Bool) (f : Values R) :
    normSquared q (flipped flip f) = normSquared q f := by
  refine sum_congr rfl fun b _ => ?_
  rw [flipped]
  cases flip b
  · rfl
  · exact congrArg (b.weight q * ·) (neg_mul_neg (f b) (f b))

theorem normSquared_scale (x : R) (f : Values R) :
    normSquared q (fun b => x * f b) = x * x * normSquared q f := by
  rw [normSquared, normSquared, mul_sum]
  refine sum_congr rfl fun b _ => ?_
  ring

theorem normSquared_smul (x : R) (f : Values R) :
    normSquared q (x • f) = x * x * normSquared q f :=
  normSquared_scale x f

theorem normSquared_single (b : Blade) (x : R) :
    normSquared q (single b x) = b.weight q * (x * x) := by
  rw [normSquared, Fintype.sum_eq_single b, single_self]
  intro c hc
  rw [single_of_ne x (Ne.symm hc), mul_zero, mul_zero]

theorem normSquared_reversed (f : Values R) : normSquared q (reversed f) = normSquared q f :=
  normSquared_flipped _ f

namespace Versor

/-- A versor on the left multiplies the squared norm by its own as well: reversion turns the product
around, and keeps the squared norms. -/
theorem normSquared_mul_left (hf : Versor q f) (g : Values R) :
    normSquared q (convolve (Blade.twist q) f g) = normSquared q f * normSquared q g := by
  rw [← normSquared_reversed, reversed_convolve, hf.reversed.normSquared_mul,
    normSquared_reversed, normSquared_reversed, mul_comm]

theorem normSquared_conjugate (hf : Versor q f) (g : Values R) :
    normSquared q (Values.conjugate q f g) =
      normSquared q f * normSquared q f * normSquared q g := by
  rw [Values.conjugate, hf.reversed.normSquared_mul, hf.normSquared_mul_left, normSquared_reversed,
    mul_right_comm]

/-- Multiplying by a versor of norm one keeps a norm of one. -/
theorem normSquared_mul_eq_one (hg : Versor q g) (hf₁ : normSquared q f = 1)
    (hg₁ : normSquared q g = 1) : normSquared q (convolve (Blade.twist q) f g) = 1 := by
  rw [hg.normSquared_mul, hf₁, hg₁, one_mul]

theorem normSquared_conjugate_eq_one (hf : Versor q f) (hf₁ : normSquared q f = 1)
    (hg₁ : normSquared q g = 1) : normSquared q (Values.conjugate q f g) = 1 := by
  rw [hf.normSquared_conjugate, hf₁, hg₁, one_mul, one_mul]

theorem normSquared_foldr_conjugate_eq_one {fs : List (Values R)} (hfs : ∀ f ∈ fs, Versor q f)
    (hfs₁ : ∀ f ∈ fs, normSquared q f = 1) (hg₁ : normSquared q g = 1) :
    normSquared q (fs.foldr (Values.conjugate q) g) = 1 := by
  induction fs with
  | nil => exact hg₁
  | cons f fs ih =>
    obtain ⟨hf, hrest⟩ := List.forall_mem_cons.1 hfs
    obtain ⟨hf₁, hrest₁⟩ := List.forall_mem_cons.1 hfs₁
    exact hf.normSquared_conjugate_eq_one hf₁ (ih hrest hrest₁)

end Versor

end Values

end Clifford
