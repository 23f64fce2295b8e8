import Clifford.Proofs.Algebra.Closure
import Clifford.Proofs.Algebra.Contractions
import Clifford.Proofs.Algebra.Inversion

/-!
# Dual and undual

Both operations contract onto a multiple of the blade of all vectors: the undual onto the
pseudoscalar, the dual onto its inverse. Contracting onto multiples of one blade twice leaves the
part of the operand within this blade, times a number that is the same for both orders: each vector
of the blade is counted once, either with the operand or with its complement, and the signs of the
two contractions make that of reversing the blade. With the pseudoscalar and its inverse this number
is one, by whichever formula the inverse is computed.

Components of blades with vectors that the algebra does not have are lost on the way.

## Main results

- `Blade.twist_mul_twist_complement` — the factors of a blade and of its complement
- `Values.contract_contract` — two contractions onto multiples of one blade
- `Algebra.dual_undual_cancel` — dual and undual undo each other on the blades of the algebra
-/

namespace Clifford

open Finset

/-! ### Complements within a blade -/

namespace Blade

variable {a b : Blade} {i n : Nat}

theorem xor_xor_cancel (a b : Blade) : a ^^^ b ^^^ b = a := by
  rw [BitVec.xor_assoc, BitVec.xor_self, BitVec.xor_zero]

theorem complement_within (h : a &&& b = a) : (a ^^^ b) &&& b = a ^^^ b := by
  simp only [BitVec.eq_of_getLsbD_eq_iff, BitVec.getLsbD_and, BitVec.getLsbD_xor] at h ⊢
  intro i hi
  have hbit := h i hi
  cases ha : a.getLsbD i <;> cases hb : b.getLsbD i <;> simp_all

theorem getLsbD_full (hn : n ≤ 32) : (full n).getLsbD i = decide (i < n) := by
  rw [full, count, Nat.shiftLeft_eq, one_mul, BitVec.getLsbD_ofNat, Nat.testBit_two_pow_sub_one]
  by_cases hi : i < n
  · have hword : i < 32 := by omega
    simp [hi, hword]
  · simp [hi]

variable {R : Type*} [CommRing R]

theorem weight_mul_weight_complement (q : Nat → R) (a b : Blade) :
    weight q ((a ^^^ b) &&& b) * weight q (a &&& b) = weight q b := by
  simp only [weight, ← prod_mul_distrib]
  refine prod_congr rfl fun i _ => ?_
  simp only [BitVec.getLsbD_and, BitVec.getLsbD_xor]
  cases a.getLsbD i <;> cases b.getLsbD i <;> simp

/-- **The factors of a blade and of its complement** multiply to those of the whole blade and its
reversion. -/
theorem twist_mul_twist_complement (q : Nat → R) (a b : Blade) :
    twist q (a ^^^ b) b * twist q a b = reverseSign R b * weight q b := by
  have hsign := swapSign_mul_self (R := R) a b
  rw [twist, twist, swapSign_xor_left, ← reverseSign_eq_swapSign,
    ← weight_mul_weight_complement q a b]
  linear_combination
    (reverseSign R b * weight q ((a ^^^ b) &&& b) * weight q (a &&& b)) * hsign

end Blade

/-! ### Contractions onto one blade -/

namespace Values

variable {R : Type*} [CommRing R]

theorem convolve_single_right (k : Blade → Blade → R) (f : Values R) (b : Blade) (y : R)
    (c : Blade) : convolve k f (single b y) c = k (c ^^^ b) b * (f (c ^^^ b) * y) := by
  rw [convolve, Fintype.sum_eq_single (c ^^^ b), Fintype.sum_eq_single b, Blade.xor_xor_cancel,
    if_pos rfl, single_self]
  · intro b' hb'
    rw [single_of_ne y (Ne.symm hb'), mul_zero, mul_zero, ite_self]
  · intro a ha
    refine sum_eq_zero fun b' _ => ?_
    by_cases hb' : b = b'
    · subst hb'
      rw [if_neg]
      intro hc
      apply ha
      rw [← hc, Blade.xor_xor_cancel]
    · rw [single_of_ne y hb', mul_zero, mul_zero, ite_self]

theorem reversed_single (b : Blade) (y : R) :
    reversed (single b y) = single b (Blade.reverseSign R b * y) := by
  funext c
  rw [reversed_eq]
  by_cases hc : b = c
  · rw [← hc, single_self, single_self]
  · rw [single_of_ne _ hc, single_of_ne _ hc, mul_zero]

/-- The left contraction onto a multiple of a blade. -/
noncomputable def contract (q : Nat → R) (b : Blade) (y : R) (f : Values R) : Values R :=
  convolve (ProductKind.leftContraction.kernel q) f (single b y)

/-- **Two contractions onto multiples of one blade** leave what lies within the blade, times a
number that does not depend on their order. -/
theorem contract_contract (q : Nat → R) (b : Blade) (y z : R) (f : Values R) :
    contract q b z (contract q b y f) = fun c =>
      if c &&& b = c then y * z * (Blade.reverseSign R b * b.weight q) * f c else 0 := by
  funext c
  rw [contract, contract, convolve_single_right, convolve_single_right, Blade.xor_xor_cancel,
    ProductKind.kernel, ProductKind.kernel]
  by_cases hc : c &&& b = c
  · have hcomplement := Blade.complement_within hc
    rw [if_pos (ProductKind.includes_leftContraction.2 hcomplement),
      if_pos (ProductKind.includes_leftContraction.2 hc), if_pos hc,
      ← Blade.twist_mul_twist_complement q c b]
    ring
  · rw [if_neg (mt ProductKind.includes_leftContraction.1 hc), if_neg hc]
    ring

end Values

/-! ### The pseudoscalar -/

namespace Algebra

variable {σ K S V : Type} {A : Algebra K S}

theorem getLsbD_fullBlade {i : Nat} : A.fullBlade.getLsbD i = decide (i < A.dimension) :=
  Blade.getLsbD_full (A.dimension_le.trans (by decide))

/-- The blades of an algebra are those within the blade of all vectors. -/
theorem contains_iff_within {b : Blade} : A.Contains b ↔ b &&& A.fullBlade = b := by
  rw [contains_iff, BitVec.eq_of_getLsbD_eq_iff]
  simp only [BitVec.getLsbD_and, getLsbD_fullBlade]
  constructor
  · intro h i _
    cases hi : b.getLsbD i with
    | false => rfl
    | true => simp [h i hi]
  · intro h i hi
    have hbit := h i (BitVec.lt_of_getLsbD hi)
    simpa [hi] using hbit

variable [Number K] [FieldNumber K] {M : Reading σ K S V} {s : σ} {q : Nat → K}
  {x p : Multivector K S} {f : Values K}

/-- Where all squares are numbers, that of the blade of all vectors is zero only if one of them is
the literal zero. -/
theorem weight_fullBlade_eq_zero (hA : M.Squares s A.metric q)
    (hmetric : ∀ square ∈ A.metric, square.isNumber = true) :
    A.fullBlade.weight q = 0 ↔ ∃ square ∈ A.metric, square.isZero = true := by
  rw [Blade.weight, prod_eq_zero_iff]
  simp only [getLsbD_fullBlade, decide_eq_true_eq]
  constructor
  · rintro ⟨i, -, hi⟩
    by_cases hlt : i < A.dimension
    · have hsquare := hA i
      rw [List.getElem?_eq_getElem hlt] at hsquare
      rw [if_pos hlt, ← hsquare.2] at hi
      have hmem := List.getElem_mem hlt
      exact ⟨_, hmem, Reading.isZero_of_value (hmetric _ hmem) hi⟩
    · rw [if_neg hlt] at hi
      exact absurd hi one_ne_zero
  · rintro ⟨square, hmem, hzero⟩
    obtain ⟨i, hi, rfl⟩ := List.getElem_of_mem hmem
    have hlt : i < A.dimension := hi
    have hdimension : A.dimension ≤ 31 := A.dimension_le
    have hsquare := hA i
    rw [List.getElem?_eq_getElem hi] at hsquare
    refine ⟨i, mem_range.2 (by omega), ?_⟩
    rw [if_pos hlt, ← hsquare.2, Reading.value_of_isZero hzero]

variable [Target σ K S V]

theorem pseudoscalar_gives (hM : M.Sound) (hopen : M.Open s []) :
    (A.pseudoscalar : Emission σ K (Multivector K S)).Gives s fun p s' => M.Advances s s' ∧
      M.Denotes A s' p (Values.single A.fullBlade 1) ∧ p.knownUnit = A.metric.all Factor.isOne := by
  refine .bind (.mono (build_single_gives hM hopen A.fullBlade (Reading.known_number 1)) ?_)
  intro p s₁ ⟨hadv, hp⟩
  exact .pure ⟨hadv, hp.withKnownUnit _, rfl⟩

/-- The inverse of the pseudoscalar as a multiple of it, by whichever formula it is computed. -/
theorem inverse_pseudoscalar_gives (hM : M.Sound) (hA : M.Ready A s q)
    (hp : M.Denotes A s p (Values.single A.fullBlade 1))
    (hunit : p.knownUnit = A.metric.all Factor.isOne) (hne : A.fullBlade.weight q ≠ 0) :
    (A.inverse p : Emission σ K (Multivector K S)).Gives s fun r s' => M.Advances s s' ∧
      ∃ y, y * (Blade.reverseSign K A.fullBlade * A.fullBlade.weight q) = 1 ∧
        M.Denotes A s' r (Values.single A.fullBlade y) := by
  have hsign := Blade.reverseSign_mul_self (R := K) A.fullBlade
  by_cases hknown : p.knownUnit = true
  · -- All squares are one, and reversion is enough.
    have hweight := weight_of_all_isOne hA.squares (hunit ▸ hknown) A.fullBlade
    refine .mono (inverse_of_unit hM hA.ready hp hknown) ?_
    intro r s₁ ⟨hadv, hr, _⟩
    rw [Values.reversed_single, mul_one] at hr
    exact ⟨hadv, _, by rw [hweight, mul_one, hsign], hr⟩
  · have hnorm : Values.normSquared q (Values.single A.fullBlade 1) = A.fullBlade.weight q := by
      rw [Values.normSquared_single, mul_one, mul_one]
    refine .mono (inverse_gives hM hA hp (Bool.eq_false_iff.2 hknown) (hnorm ▸ hne)) ?_
    intro r s₁ ⟨hadv, z, hz, hr⟩
    change M.Denotes A s₁ r (z • Values.reversed _) at hr
    rw [Values.reversed_single, Values.smul_single, mul_one] at hr
    rw [hnorm] at hz
    refine ⟨hadv, _, ?_, hr⟩
    linear_combination (z * A.fullBlade.weight q) * hsign + hz

/-! ### Dual and undual -/

theorem contract_gives (hM : M.Sound) (hA : M.Ready A s q) (hx : M.Denotes A s x f) {b : Blade}
    {y : K} (hp : M.Denotes A s p (Values.single b y)) :
    (A.mul .leftContraction x p : Emission σ K (Multivector K S)).Gives s fun r s' =>
      M.Advances s s' ∧ M.Denotes A s' r (Values.contract q b y f) :=
  joins_mul hM .leftContraction hA hx hp

theorem undual_gives (hM : M.Sound) (hA : M.Ready A s q) (hx : M.Denotes A s x f) :
    (A.undual x : Emission σ K (Multivector K S)).Gives s fun r s' => M.Advances s s' ∧
      M.Denotes A s' r (Values.contract q A.fullBlade 1 f) := by
  refine .bind (check_gives hx.owner (.bind (.mono (pseudoscalar_gives hM hA.ready) ?_)))
  intro p s₁ ⟨hadv₁, hp, _⟩
  refine .mono (contract_gives hM (hA.advance hadv₁) (hx.mono hadv₁.symbols) hp) ?_
  intro r s₂ ⟨hadv₂, hr⟩
  exact ⟨hadv₁.trans hadv₂, hr⟩

theorem dual_gives (hM : M.Sound) (hA : M.Ready A s q) (hx : M.Denotes A s x f)
    (hne : A.fullBlade.weight q ≠ 0) :
    (A.dual x : Emission σ K (Multivector K S)).Gives s fun r s' => M.Advances s s' ∧
      ∃ y, y * (Blade.reverseSign K A.fullBlade * A.fullBlade.weight q) = 1 ∧
        M.Denotes A s' r (Values.contract q A.fullBlade y f) := by
  refine .bind (check_gives hx.owner (.bind (.mono (pseudoscalar_gives hM hA.ready) ?_)))
  intro p s₁ ⟨hadv₁, hp, hunit⟩
  have hA₁ := hA.advance hadv₁
  refine .bind ((Emission.Gives.mono
    (inverse_pseudoscalar_gives hM hA₁ hp hunit hne) ?_).adapt duality)
  intro r s₂ ⟨hadv₂, y, hy, hr⟩
  have hadv := hadv₁.trans hadv₂
  refine .mono (contract_gives hM (hA.advance hadv) (hx.mono hadv.symbols) hr) ?_
  intro dual s₃ ⟨hadv₃, hdual⟩
  exact ⟨hadv.trans hadv₃, y, hy, hdual⟩

omit [FieldNumber K] in
/-- The pseudoscalar has a number for its coefficient, whatever the target is. -/
theorem pseudoscalar_number (hmetric : ∀ square ∈ A.metric, square.isNumber = true) :
    (A.pseudoscalar : Emission σ K (Multivector K S)).Returns fun p =>
      ∀ c ∈ p.components, c.2.isNumber = true := by
  refine .of_ends fun s => Reading.Ends.mono (pseudoscalar_member Reading.steady_numbers
    (Reading.ready_numeric hmetric)) (fun h => h) ?_
  intro p s' _ hp c hc
  exact Reading.known_numeric_iff.1 (hp.known c hc)

theorem dual_fails (hM : M.Sound) (hA : M.Ready A s q) (hx : M.Denotes A s x f)
    (hmetric : ∀ square ∈ A.metric, square.isNumber = true) (hzero : A.fullBlade.weight q = 0) :
    (A.dual x : Emission σ K (Multivector K S)).Fails s .nullPseudoscalar
      fun s' => M.Advances s s' := by
  refine Emission.Gives.bind_fails (check_gives hx.owner (Emission.Gives.bind_fails (.mono
    ((pseudoscalar_gives hM hA.ready).and_returns (pseudoscalar_number hmetric)) ?_)))
  intro p s₁ ⟨⟨hadv, hp, hunit⟩, hnumbers⟩
  have hA₁ := hA.advance hadv
  -- The mark would mean that all squares are one.
  have hunmarked : p.knownUnit = false := by
    rw [Bool.eq_false_iff, hunit]
    intro hall
    rw [weight_of_all_isOne hA.squares hall] at hzero
    exact one_ne_zero hzero
  have hnorm : Values.normSquared q (Values.single A.fullBlade 1) = 0 := by
    rw [Values.normSquared_single, hzero, zero_mul]
  refine .bind ((Emission.Fails.mono
    (inverse_fails hM hA₁ hp hmetric hnumbers hunmarked hnorm) ?_).adapt duality)
  intro s₂ hadv₂
  exact hadv.trans hadv₂

/-- Contractions onto the pseudoscalar and its inverse, in either order, leave what lies within the
algebra. -/
theorem contract_contract_of_inverse {y z : K}
    (hone : y * z * (Blade.reverseSign K A.fullBlade * A.fullBlade.weight q) = 1) :
    Values.contract q A.fullBlade z (Values.contract q A.fullBlade y f) =
      fun b => if A.Contains b then f b else 0 := by
  rw [Values.contract_contract]
  funext b
  rw [hone, one_mul]
  exact if_congr contains_iff_within.symm rfl rfl

theorem undual_dual_gives (hM : M.Sound) (hA : M.Ready A s q) (hx : M.Denotes A s x f)
    (hne : A.fullBlade.weight q ≠ 0) :
    Emission.Gives (do
      let dual ← A.dual x
      A.undual dual) s fun r s' => M.Denotes A s' r fun b => if A.Contains b then f b else 0 := by
  refine .bind (.mono (dual_gives hM hA hx hne) ?_)
  intro dual s₁ ⟨hadv, y, hy, hdual⟩
  refine .mono (undual_gives hM (hA.advance hadv) hdual) ?_
  intro r s₂ ⟨_, hr⟩
  rwa [contract_contract_of_inverse (by rw [mul_one, hy])] at hr

theorem dual_undual_gives (hM : M.Sound) (hA : M.Ready A s q) (hx : M.Denotes A s x f)
    (hne : A.fullBlade.weight q ≠ 0) :
    Emission.Gives (do
      let undual ← A.undual x
      A.dual undual) s fun r s' => M.Denotes A s' r fun b => if A.Contains b then f b else 0 := by
  refine .bind (.mono (undual_gives hM hA hx) ?_)
  intro undual s₁ ⟨hadv, hundual⟩
  refine .mono (dual_gives hM (hA.advance hadv) hundual hne) ?_
  intro r s₂ ⟨_, y, hy, hr⟩
  rwa [contract_contract_of_inverse (by rw [one_mul, hy])] at hr

/-- **Dual and undual undo each other on the blades of the algebra.** In a metric of numbers there
is no dual if some vector is null. Otherwise the undual of the dual and the dual of the undual have
the coefficients of the operand at all blades of the algebra, and zero at all other blades. Nothing
is assumed of the operand, which may have symbols for coefficients and blades outside of the
algebra. -/
theorem dual_undual_cancel (hM : M.Sound) (hopen : M.Open s [])
    (hmetric : ∀ square ∈ A.metric, square.isNumber = true) (hx : M.Member A s x) :
    ((∃ square ∈ A.metric, square.isZero = true) →
      (A.dual x : Emission σ K (Multivector K S)).Fails s .nullPseudoscalar
        fun s' => M.Advances s s') ∧
    ((¬ ∃ square ∈ A.metric, square.isZero = true) →
      (Emission.Gives (do
        let dual ← A.dual x
        A.undual dual) s fun r s' => M.Member A s' r ∧
          ∀ b, M.values s' r b = if A.Contains b then M.values s x b else 0) ∧
      Emission.Gives (do
        let undual ← A.undual x
        A.dual undual) s fun r s' => M.Member A s' r ∧
          ∀ b, M.values s' r b = if A.Contains b then M.values s x b else 0) := by
  have hA : M.Ready A s (M.squares s A.metric) := Reading.ready_of_numbers hopen hmetric
  rw [← weight_fullBlade_eq_zero hA.squares hmetric]
  constructor
  · intro hzero
    exact dual_fails hM hA hx.denotes hmetric hzero
  · intro hne
    constructor
    · refine .mono (undual_dual_gives hM hA hx.denotes hne) ?_
      intro r s' hr
      exact ⟨hr.toMember, congrFun hr.values_eq⟩
    · refine .mono (dual_undual_gives hM hA hx.denotes hne) ?_
      intro r s' hr
      exact ⟨hr.toMember, congrFun hr.values_eq⟩

end Algebra

/-! ### Lines -/

/-- On a null line, and on one whose pseudoscalar is inverted by division. -/
theorem Algebra.dual_undual_cancel_lines :
    let M := NumericTarget.reading ℚ
    let A : Algebra ℚ Empty := line (-2) {}
    let x : Multivector ℚ Empty := .onLine 3
    (((line 0 {}).dual x).Fails NumericTarget.idle .nullPseudoscalar
      fun t => M.Advances .idle t) ∧
    (Emission.Gives (do
      let dual ← A.dual x
      A.undual dual) NumericTarget.idle fun r t => M.Member A t r ∧
        ∀ b, M.values t r b = if A.Contains b then M.values .idle x b else 0) ∧
    Emission.Gives (do
      let undual ← A.undual x
      A.dual undual) NumericTarget.idle fun r t => M.Member A t r ∧
        ∀ b, M.values t r b = if A.Contains b then M.values .idle x b else 0 := by
  constructor
  · exact (dual_undual_cancel NumericTarget.sound_reading trivial (by decide)
      (Multivector.member_onLine .idle {} 0 3)).1 (by decide)
  · exact (dual_undual_cancel NumericTarget.sound_reading trivial (by decide)
      (Multivector.member_onLine .idle {} (-2) 3)).2 (by decide)

/-- A vector that a line does not have. -/
def Multivector.besideLine : Multivector ℚ Empty where
  owner := 0
  components := [(.vector 1, .number 1)]

/-- The component of a vector that a line does not have is lost, although the line is not null. -/
theorem Algebra.undual_dual_besideLine :
    let M := NumericTarget.reading ℚ
    let A : Algebra ℚ Empty := line 1 {}
    (¬ ∃ square ∈ A.metric, square.isZero = true) ∧ M.Member A .idle .besideLine ∧
      M.values NumericTarget.idle .besideLine (.vector 1) = 1 ∧
      Emission.Gives (do
        let dual ← A.dual .besideLine
        A.undual dual) NumericTarget.idle fun r t => M.values t r (.vector 1) = 0 := by
  intro M A
  have hA := NumericTarget.ready A .idle
  have hnull : ¬ ∃ square ∈ A.metric, square.isZero = true := by decide
  have hmember : M.Member A .idle .besideLine :=
    ⟨rfl, List.nodup_singleton _, fun c _ => NumericTarget.known .idle c.2⟩
  refine ⟨hnull, hmember, rfl, ?_⟩
  refine .mono (undual_dual_gives NumericTarget.sound_reading hA hmember.denotes
    (mt (weight_fullBlade_eq_zero hA.squares (by decide)).1 hnull)) ?_
  intro r t hr
  have houtside : ¬ A.Contains (.vector 1) := by decide
  exact (congrFun hr.values_eq _).trans (if_neg houtside)

end Clifford
