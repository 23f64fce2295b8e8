import Clifford.Proofs.Algebra.Reversion
import Clifford.Proofs.Algebra.Sandwich

/-!
# Sandwiches with versors keep grades

A versor is a geometric product of scalars and vectors. Its sandwich maps every grade to itself,
whatever the metric: swapping the two blades of an operator vector around a blade of the operand
changes the sign of all contributions to another grade. This makes it safe to drop the blades of a sandwich
whose grade the operand does not have.

## Main definitions

- `Values.IsVector` — all components have grade one
- `Values.Versor` — scalars, vectors, and their products

## Main results

- `Values.IsVector.conjugate_eq_zero` — the conjugation by a vector keeps grades
- `Values.Versor.conjugate_eq_zero` — so does the conjugation by a versor
- `Sandwich.sum_surviving_keepOperandGrades` — what is emitted if grades are dropped
- `Sandwich.applyWith_keepOperandGrades_agrees` — dropping grades does not change the sandwich of
  a versor
-/

namespace Clifford

open Finset

variable {σ K S V : Type}

namespace Blade

variable {R : Type*} [CommRing R]

/-- Two more vectors make reversing cost an odd number of transpositions more. -/
theorem reverseSign_of_grade_add_two {a b : Blade} (h : a.grade = b.grade + 2) :
    reverseSign R a = -reverseSign R b := by
  have hflips : a.reverseFlips = b.reverseFlips + (2 * b.grade + 1) := by
    have hpairs : (b.grade + 2) * (b.grade + 1) =
        b.grade * (b.grade - 1) + 2 * (2 * b.grade + 1) := by
      cases b.grade with
      | zero => rfl
      | succ k =>
        rw [Nat.add_sub_cancel]
        ring
    rw [reverseFlips, reverseFlips, h, Nat.add_sub_cancel_right (b.grade + 1) 1, hpairs,
      Nat.add_mul_div_left _ _ (by decide)]
  rw [reverseSign, reverseSign, hflips, pow_add, pow_succ, pow_mul]
  simp

theorem reverseSign_of_grade_one {b : Blade} (h : b.grade = 1) : reverseSign R b = 1 := by
  rw [reverseSign, reverseFlips, h]
  exact pow_zero _

end Blade

namespace Values

variable {R : Type*} [CommRing R]

/-- The coefficients of a vector: those of other grades are zero. -/
def IsVector (f : Values R) : Prop := ∀ b : Blade, b.grade ≠ 1 → f b = 0

/-- Multiplying with a scalar multiplies every coefficient. -/
theorem scalar_convolve (q : Nat → R) (x : R) (f : Values R) :
    convolve (Blade.twist q) (scalar x) f = fun b => x * f b := by
  have hxor : ∀ b : Blade, 0 ^^^ b = b := fun b => BitVec.zero_xor
  rw [scalar, convolve_single_left]
  simp only [Blade.twist_zero_left, one_mul, hxor]
  exact sum_single fun b => x * f b

theorem convolve_scalar (q : Nat → R) (f : Values R) (x : R) :
    convolve (Blade.twist q) f (scalar x) = fun b => x * f b := by
  have hscaled : scalar x = fun b => x * scalar (1 : R) b := by
    rw [← scalar_convolve q, geometric_scalar_one]
  rw [hscaled]
  funext c
  have hone := congrFun (geometric_scalar_one q f) c
  rw [← hone, convolve, convolve, mul_sum]
  refine sum_congr rfl fun a _ => ?_
  rw [mul_sum]
  refine sum_congr rfl fun b _ => ?_
  rw [mul_ite, mul_zero]
  congr 1
  ring

/-- The conjugation by a product is the conjugation by its factors, one after the other. -/
theorem conjugate_convolve (q : Nat → R) (f f' g : Values R) :
    conjugate q (convolve (Blade.twist q) f f') g = conjugate q f (conjugate q f' g) := by
  simp only [conjugate, reversed_convolve, geometric_assoc]

theorem kept_single (keep : Blade → Bool) (b : Blade) (x : R) :
    kept keep (single b x) = if keep b then single b x else 0 := by
  funext c
  by_cases hb : b = c
  · subst hb
    rw [kept]
    split <;> rfl
  · have hzero : single b x c = 0 := single_of_ne x hb
    rw [kept, hzero, ite_self]
    split
    · exact hzero.symm
    · rfl

theorem kept_sum (keep : Blade → Bool) (fs : List (Values R)) :
    kept keep fs.sum = (fs.map (kept keep)).sum := by
  induction fs with
  | nil => exact funext fun b => ite_self 0
  | cons f fs ih =>
    rw [List.sum_cons, List.map_cons, List.sum_cons, ← ih]
    funext b
    rw [Pi.add_apply, kept, kept, kept]
    split
    · rfl
    · exact (add_zero 0).symm

/-- A double sum over terms that change the sign when their arguments are swapped is zero. -/
theorem sum_sum_eq_zero_of_swap {ι : Type*} [Fintype ι] {F : ι → ι → R}
    (hdiag : ∀ a, F a a = 0) (hswap : ∀ a b, F b a = -F a b) : ∑ a, ∑ b, F a b = 0 := by
  classical
  rw [← Fintype.sum_prod_type']
  refine sum_involution (fun p _ => p.swap) (fun p _ => ?_) (fun p _ hp hfix => ?_)
    (fun p _ => mem_univ _) (fun p _ => p.swap_swap)
  · rw [Prod.fst_swap, Prod.snd_swap, hswap p.1 p.2, add_neg_cancel]
  · have heq : p.2 = p.1 := congrArg Prod.fst hfix
    exact hp (heq ▸ hdiag p.1)

/-- The signs of the two orders of a pair of blades differ by reversing the blade that goes in and
the blade that comes out. -/
theorem cast_sign_mul_cast_sign (l r i : Blade) :
    (Sandwich.sign l i r : R) * (Sandwich.sign r i l : R) =
      Blade.reverseSign R (l ^^^ r ^^^ i) * Blade.reverseSign R i := by
  have hreverse : ∀ b : Blade, (-1 : R) ^ b.reverseFlips = Blade.reverseSign R b := fun _ => rfl
  rw [cast_sign, cast_sign, hreverse, hreverse, Blade.reverseSign_xor, Blade.reverseSign_xor]
  simp only [Blade.swapSign_xor_left, Blade.swapSign_xor_right]
  linear_combination (-(Blade.reverseSign R l * Blade.reverseSign R r * Blade.swapSign R l r *
    Blade.swapSign R r l * Blade.swapSign R l i * Blade.swapSign R r i * Blade.swapSign R i l *
    Blade.swapSign R i r)) * Blade.reverseSign_mul_self (R := R) i

/-- Of the contributions of two vectors to a grade that differs from that of the operand, those of
the two orders cancel. -/
theorem cast_sign_swap {l r i : Blade} (hl : l.grade = 1) (hr : r.grade = 1)
    (hi : (l ^^^ r ^^^ i).grade ≠ i.grade) :
    (Sandwich.sign r i l : R) = -(Sandwich.sign l i r : R) := by
  -- The two vectors are added to the blade, or removed from it.
  have hpair := Blade.grade_xor l r
  have hout := Blade.grade_xor (l ^^^ r) i
  have hshared := Blade.grade_and_le (l ^^^ r) i
  have hopposite : Blade.reverseSign R (l ^^^ r ^^^ i) = -Blade.reverseSign R i := by
    rcases (by omega : (l ^^^ r ^^^ i).grade = i.grade + 2 ∨ i.grade = (l ^^^ r ^^^ i).grade + 2)
      with h | h
    · exact Blade.reverseSign_of_grade_add_two h
    · rw [Blade.reverseSign_of_grade_add_two h, neg_neg]
  have hboth := cast_sign_mul_cast_sign (R := R) l r i
  have hself : (Sandwich.sign l i r : R) * (Sandwich.sign l i r : R) = 1 := by
    rw [Sandwich.sign]
    split <;> simp
  rw [hopposite, neg_mul, Blade.reverseSign_mul_self] at hboth
  linear_combination (Sandwich.sign l i r : R) * hboth - (Sandwich.sign r i l : R) * hself

/-- What a pair of blades contributes to a given blade. -/
theorem pairSummand_apply (q : Nat → R) (f g : Values R) (l r d : Blade) :
    pairSummand q f g l r d =
      (Sandwich.sign l (l ^^^ r ^^^ d) r : R) * summand q f g l r (l ^^^ r ^^^ d) := by
  have hback : l ^^^ r ^^^ (l ^^^ r ^^^ d) = d := by
    rw [← BitVec.xor_assoc, BitVec.xor_self, BitVec.zero_xor]
  rw [pairSummand, Finset.sum_apply, Fintype.sum_eq_single (l ^^^ r ^^^ d)]
  · rw [hback, single_self]
  · intro i hi
    refine single_of_ne _ fun h => hi ?_
    rw [← h, ← BitVec.xor_assoc, BitVec.xor_self, BitVec.zero_xor]

/-- **The conjugation by a vector keeps grades.** -/
theorem IsVector.conjugate_eq_zero {q : Nat → R} {f g : Values R} (hf : f.IsVector) {d : Blade}
    (hg : ∀ i : Blade, i.grade = d.grade → g i = 0) : conjugate q f g d = 0 := by
  have hterm : ∀ l r : Blade, (l.grade = 1 → r.grade = 1 → g (l ^^^ r ^^^ d) = 0) →
      pairSummand q f g l r d = 0 := by
    intro l r h
    rw [pairSummand_apply, summand]
    by_cases hl : l.grade = 1
    · by_cases hr : r.grade = 1
      · rw [h hl hr, mul_zero, mul_zero, mul_zero]
      · rw [hf r hr, mul_zero, zero_mul, mul_zero, mul_zero]
    · rw [hf l hl, zero_mul, zero_mul, mul_zero, mul_zero]
  have hexpand : conjugate q f g d = ∑ l, ∑ r, pairSummand q f g l r d := by
    rw [conjugate_eq_sum, Finset.sum_apply]
    exact sum_congr rfl fun l _ => Finset.sum_apply _ _ _
  rw [hexpand]
  refine sum_sum_eq_zero_of_swap (fun l => hterm l l fun _ _ => hg _ ?_) fun l r => ?_
  · rw [BitVec.xor_self, BitVec.zero_xor]
  have hsame : r ^^^ l ^^^ d = l ^^^ r ^^^ d := by rw [BitVec.xor_comm r l]
  by_cases hlive : l.grade = 1 ∧ r.grade = 1 ∧ (l ^^^ r ^^^ d).grade ≠ d.grade
  · obtain ⟨hl, hr, hgrade⟩ := hlive
    have hback : l ^^^ r ^^^ (l ^^^ r ^^^ d) = d := by
      rw [← BitVec.xor_assoc, BitVec.xor_self, BitVec.zero_xor]
    rw [pairSummand_apply, pairSummand_apply, hsame, summand_comm q f g r l,
      cast_sign_swap hl hr (by rw [hback]; exact hgrade.symm), neg_mul]
  · have hzero : l.grade = 1 → r.grade = 1 → g (l ^^^ r ^^^ d) = 0 := fun hl hr =>
      hg _ (by_contra fun hne => hlive ⟨hl, hr, hne⟩)
    rw [hterm l r hzero, hterm r l fun hr hl => hsame ▸ hzero hl hr, neg_zero]

/-- Versors: what scalars and vectors multiply to. -/
inductive Versor (q : Nat → R) : Values R → Prop
  /-- A scalar, of which zero is one. -/
  | scalar (x : R) : Versor q (scalar x)
  /-- A vector, null or not. -/
  | vector {v : Values R} : v.IsVector → Versor q v
  /-- A geometric product of versors. -/
  | mul {f g : Values R} : Versor q f → Versor q g → Versor q (convolve (Blade.twist q) f g)

/-- A geometric product of vectors is a versor. -/
theorem Versor.product {q : Nat → R} {fs : List (Values R)} (hfs : ∀ f ∈ fs, Versor q f) :
    Versor q (ProductKind.geometric.product q fs) := by
  cases fs with
  | nil => exact .scalar 1
  | cons f rest =>
    obtain ⟨hf, hrest⟩ := List.forall_mem_cons.1 hfs
    clear hfs
    rw [ProductKind.product, ProductKind.kernel_geometric]
    induction rest generalizing f with
    | nil => exact hf
    | cons g rest ih =>
      obtain ⟨hg, hrest⟩ := List.forall_mem_cons.1 hrest
      exact ih _ (hf.mul hg) hrest

/-- **The conjugation by a versor keeps grades.** -/
theorem Versor.conjugate_eq_zero {q : Nat → R} {f g : Values R} (hf : Versor q f) {d : Blade}
    (hg : ∀ i : Blade, i.grade = d.grade → g i = 0) : conjugate q f g d = 0 := by
  -- The innermost factor acts first, so the grade is kept by one factor after another.
  induction hf generalizing g d with
  | scalar x =>
    rw [conjugate, scalar_convolve, reversed_scalar, convolve_scalar]
    beta_reduce
    rw [hg d rfl, mul_zero, mul_zero]
  | vector hv => exact hv.conjugate_eq_zero hg
  | mul _ _ ihf ihf' =>
    rw [conjugate_convolve]
    exact ihf fun i hi => ihf' fun j hj => hg j (hj.trans hi)

/-- What the conjugation by a versor has at grades that its operand does not have is zero, so it
can be left out. -/
theorem Versor.kept_conjugate {q : Nat → R} {f g : Values R} (hf : Versor q f)
    {keep : Nat → Bool} (hg : ∀ b : Blade, keep b.grade = false → g b = 0) :
    kept (fun b => keep b.grade) (conjugate q f g) = conjugate q f g := by
  funext b
  rw [kept]
  split
  · rfl
  · rename_i hb
    refine (hf.conjugate_eq_zero fun i hi => hg i ?_).symm
    rw [hi]
    exact Bool.eq_false_iff.2 hb

end Values

/-! ### Grades of an operand -/

theorem mem_eraseReps_loop {α : Type*} [BEq α] [LawfulBEq α] {x a : α} {l seen : List α} :
    x ∈ List.eraseRepsBy.loop (· == ·) a l seen ↔ x ∈ seen ∨ x = a ∨ x ∈ l := by
  induction l generalizing a seen with
  | nil => simp [List.eraseRepsBy.loop]
  | cons b rest ih =>
    rw [List.eraseRepsBy.loop]
    split
    · rename_i hab
      rw [ih, List.mem_cons, eq_of_beq hab, or_self_left]
    · rw [ih, List.mem_cons, List.mem_cons, or_assoc, or_left_comm]

/-- The grades are those of the touched blades. -/
theorem Multivector.mem_grades {m : Multivector K S} {k : Nat} :
    k ∈ m.grades ↔ ∃ b ∈ m.blades, b.grade = k := by
  have hmem : k ∈ (m.blades.map Blade.grade).mergeSort ↔ ∃ b ∈ m.blades, b.grade = k := by
    rw [List.mem_mergeSort, List.mem_map]
  rw [← hmem, grades]
  cases (m.blades.map Blade.grade).mergeSort with
  | nil => exact Iff.rfl
  | cons a rest =>
    rw [List.eraseReps, List.eraseRepsBy, mem_eraseReps_loop, List.mem_cons]
    exact or_iff_right List.not_mem_nil

theorem Sandwich.outcome_prepare {A : Algebra K S} {R : Multivector K S} (h : R.owner = A.id)
    (s : σ) :
    (A.sandwich R : Emission σ K (Sandwich K S)).outcome s =
      (.ok { algebra := A, operator := R }, s) := by
  have hgives : (A.sandwich R : Emission σ K (Sandwich K S)).Gives s fun P s' =>
      P = { algebra := A, operator := R } ∧ s' = s :=
    .bind (Algebra.check_gives h (.pure ⟨rfl, rfl⟩))
  obtain ⟨_, _, hrun, rfl, rfl⟩ := hgives
  exact hrun

variable [Number K] {M : Reading σ K S V} {A : Algebra K S} {s : σ} {x : Multivector K S}
  {g : Values K}

/-- At a blade that was not touched, the coefficient is zero. -/
theorem Reading.Denotes.eq_zero (hx : M.Denotes A s x g) {b : Blade} (hb : b ∉ x.blades) :
    g b = 0 := by
  rw [← hx.values_eq, values_apply, Multivector.value, Multivector.get?,
    lookup_eq_none_of_notMem hb, Option.getD_none, value_number]

theorem Reading.Denotes.eq_zero_of_grade (hx : M.Denotes A s x g) {b : Blade}
    (hb : b.grade ∉ x.grades) : g b = 0 :=
  hx.eq_zero fun hmem => hb (Multivector.mem_grades.2 ⟨b, hmem, rfl⟩)

/-- Only the values of a metric fit it. -/
theorem Reading.eq_squares {metric : Metric K S} {q : Nat → K} (h : M.Squares s metric q) :
    q = M.squares s metric := by
  funext i
  have hi := h i
  rw [squares]
  cases hget : metric[i]? with
  | none =>
    rw [hget] at hi
    exact hi
  | some square =>
    rw [hget] at hi
    exact hi.2.symm

variable [ExactNumber K]

/-- A multivector whose touched blades are basis vectors has the coefficients of a vector. -/
theorem Reading.Denotes.isVector (hx : M.Denotes A s x g) (h : ∀ b ∈ x.blades, b.grade = 1) :
    g.IsVector := by
  intro b hb
  rw [← hx.values_eq, values_apply, Multivector.value, Multivector.get?,
    lookup_eq_none_of_notMem fun hmem => hb (h b hmem), Option.getD_none, value_number]

namespace Sandwich

variable {P : Sandwich K S} {R : Multivector K S} {q : Nat → K} {f : Values K}

/-- **If grades are dropped, the buckets that are emitted contribute the conjugation at the blades
whose grade the operand has.** -/
theorem sum_surviving_keepOperandGrades (hA : M.Squares s P.algebra.metric q)
    (hP : M.Denotes P.algebra s P.operator f) (hx : M.Denotes A s x g)
    {options : SandwichOptions} (hoptions : options.keepOperandGrades = true) :
    ((P.surviving x options).map (Bucket.values q f g)).sum =
      Values.kept (fun b => x.grades.contains b.grade) (Values.conjugate q f g) := by
  rw [← sum_buckets hA hP hx, surviving, sum_map_filter, Values.kept_sum, List.map_map]
  refine congrArg List.sum (List.map_congr_left fun bucket _ => ?_)
  rw [Function.comp_apply, Bucket.values, Values.kept_single, hoptions, Bool.not_true,
    Bool.false_or]
  by_cases hcount : bucket.count = 0
  · rw [hcount, Int.cast_zero, zero_mul, Values.single_zero, ite_self, ite_self]
  · rw [decide_eq_true hcount, Bool.true_and]

variable [Target σ K S V]

/-- The result of a sandwich that drops the grades that the operand does not have. -/
theorem applyWith_keepOperandGrades_gives (hM : M.Sound) (hA : A.settings.unitTolerance? = none)
    (h : Valid M A R q f s P) (hopen : M.Open s []) (hx : M.Denotes A s x g) :
    Yields (P.applyWith x { keepOperandGrades := true }) s fun (result, P') s' =>
      M.Advances s s' ∧ Valid M A R q f s' P' ∧ ∃ r, result = .ok (some r) ∧
        M.Denotes A s' r
          (Values.kept (fun b => x.grades.contains b.grade) (Values.conjugate q f g)) := by
  refine Yields.mono (applyWith_yields hM hA h hopen (fun _ => hx) _) ?_
  rintro ⟨result, P'⟩ s' ⟨hadv, h', -, hresult⟩
  obtain ⟨r, rfl, hr, -⟩ := hresult hx.owner rfl
  have hsquares : M.Squares s P.algebra.metric q := h.algebra ▸ h.squares
  have hoperator : M.Denotes P.algebra s P.operator f := h.algebra ▸ h.denotes_operator
  rw [sum_surviving_keepOperandGrades hsquares hoperator hx rfl] at hr
  exact ⟨hadv, h', r, rfl, hr⟩

/-- **Dropping grades does not change the sandwich of a versor.** The operator has the values of a
product of any number of vectors, null vectors among them, in any metric, and may have been used
before. Without verification of unit norms the sandwich that drops the grades that its operand
does not have succeeds, as does the full one; they agree at every blade, and what was dropped is
zero. -/
theorem applyWith_keepOperandGrades_agrees (hM : M.Sound)
    (hA : A.settings.unitTolerance? = none) (h : Reached M A R P s) {vs : List (Values K)}
    (hvs : ∀ v ∈ vs, Values.IsVector v)
    (hR : M.values s R = ProductKind.geometric.product (M.squares s A.metric) vs)
    (hx : M.Member A s x) :
    Emission.Gives (do
      let (result, P') ← ExceptT.lift (P.applyWith x { keepOperandGrades := true })
      let kept? ← ExceptT.mk (pure result)
      let (result, _) ← ExceptT.lift (P'.apply x)
      let full ← ExceptT.mk (pure result)
      pure (kept?, full)) s fun (kept?, full) s' =>
        (∃ kept, kept? = some kept ∧ M.Agree s' kept full) ∧
          ∀ b : Blade, b.grade ∉ x.grades → M.value s' (full.value b) = 0 := by
  obtain ⟨hopen, q, f, hvalid⟩ := h.valid hM hA
  obtain rfl : f = _ := hvalid.denotes.values_eq.symm.trans hR
  obtain rfl : q = _ := Reading.eq_squares hvalid.squares
  have hx₀ := hx.denotes
  refine .bind (.mono (.lift (applyWith_keepOperandGrades_gives hM hA hvalid hopen hx₀)) ?_)
  rintro ⟨_, P'⟩ s₁ ⟨hadv, hvalid', kept, rfl, hkept⟩
  refine .bind (.pure ?_)
  refine .bind (.mono (.lift (apply_gives hM hA hvalid' hadv.ready (hx₀.mono hadv.symbols))) ?_)
  rintro ⟨_, P''⟩ s₂ ⟨hadv', -, full, rfl, hfull⟩
  refine .bind (.pure (.pure ?_))
  have huntouched : ∀ b : Blade, x.grades.contains b.grade = false → M.values s x b = 0 := by
    intro b hb
    refine hx₀.eq_zero_of_grade fun hmem => ?_
    rw [List.contains_iff_mem.2 hmem] at hb
    cases hb
  have hversor : Values.Versor (M.squares s A.metric) _ := .product fun v hv => .vector (hvs v hv)
  have hsame := hversor.kept_conjugate huntouched
  refine ⟨⟨kept, rfl, ?_⟩, fun b hb => ?_⟩
  · rw [hsame] at hkept
    exact (hkept.mono hadv'.symbols).agree hfull
  · rw [← Reading.values_apply, hfull.values_eq, ← hsame]
    exact if_neg fun h => hb (List.contains_iff_mem.1 h)

/-- A null vector of the plane with a symbol. -/
def nullVector : Multivector ℚ Handle where
  owner := 0
  components := [(2, .number 2)]

theorem member_nullVector (x : ℚ) (s : Program ℚ) :
    (Program.reading fun _ => some x).Member Algebra.inputPlane s nullVector where
  owner := rfl
  nodup := by decide
  known := by
    rintro c (_ | ⟨_, ⟨⟩⟩)
    exact Reading.known_number 2

theorem grade_of_mem_literalVector : ∀ b ∈ literalVector.blades, b.grade = 1 := by
  rintro b (_ | ⟨_, _ | ⟨_, ⟨⟩⟩⟩)
  · rw [Blade.grade_eq_below]
    decide
  · rw [Blade.grade_eq_below]
    decide

theorem grade_of_mem_nullVector : ∀ b ∈ nullVector.blades, b.grade = 1 := by
  rintro b (_ | ⟨_, ⟨⟩⟩)
  rw [Blade.grade_eq_below]
  decide

theorem applyWith_keepOperandGrades_agrees_inputPlane :
    ∃ versor s, (Algebra.inputPlane.mulAll .geometric [literalVector, nullVector, literalVector] :
        Emission (Program ℚ) ℚ _).outcome Program.singleInput.2 = (.ok versor, s) ∧
      let prepared : Sandwich ℚ Handle := { algebra := Algebra.inputPlane, operator := versor }
      Emission.Gives (do
        let (result, P') ←
          ExceptT.lift (prepared.applyWith literalVector { keepOperandGrades := true })
        let kept? ← ExceptT.mk (pure result)
        let (result, _) ← ExceptT.lift (P'.apply literalVector)
        let full ← ExceptT.mk (pure result)
        pure (kept?, full)) s fun (kept?, full) s' =>
          (∃ kept, kept? = some kept ∧
            (Program.reading fun _ => some 5).Agree s' kept full) ∧
            ∀ b : Blade, b.grade ∉ literalVector.grades →
              (Program.reading fun _ => some (5 : ℚ)).value s' (full.value b) = 0 := by
  have hA : (Program.reading fun _ => some (5 : ℚ)).Ready Algebra.inputPlane
      Program.singleInput.2 _ :=
    ⟨Program.orderly_singleInput _, Reading.squares_spec (Algebra.known_inputPlane _)⟩
  have hliteral := (member_literalVector 5 Program.singleInput.2).denotes
  have hnull := (member_nullVector 5 Program.singleInput.2).denotes
  obtain ⟨versor, s, hrun, hadv, hversor, -⟩ := Algebra.mulAll_gives Program.sound_reading hA
    .geometric (.cons hliteral (.cons hnull (.cons hliteral .nil)))
  have hready := hA.advance hadv
  rw [Reading.eq_squares hready.squares] at hversor
  have hmetric : ∀ square ∈ Algebra.inputPlane.metric,
      (Program.reading fun _ => some (5 : ℚ)).Known s square :=
    fun square hsquare => hadv.symbols.known (Algebra.known_inputPlane _ square hsquare)
  have hprepared : Reached _ Algebra.inputPlane versor _ s :=
    .prepared hready.ready hmetric hversor.toMember (outcome_prepare hversor.owner s)
  have hvector := hliteral.isVector grade_of_mem_literalVector
  have hvectors := List.forall_mem_cons.2 ⟨hvector, List.forall_mem_cons.2
    ⟨hnull.isVector grade_of_mem_nullVector, List.forall_mem_singleton.2 hvector⟩⟩
  exact ⟨versor, s, hrun, applyWith_keepOperandGrades_agrees Program.sound_reading rfl hprepared
    hvectors hversor.values_eq (member_literalVector _ _)⟩

end Sandwich

end Clifford
