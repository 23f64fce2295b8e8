import Clifford.Algebra.Sandwich
import Clifford.Proofs.Algebra.Associativity

/-!
# Conjugation of coefficient functions

Expanding `R x R~` gives one summand for each triple of a blade `l` of `R` on the left, a blade
`r` of `R` on the right and a blade `i` of `x`. Apart from the sign it is symmetric in `l` and `r`,
so the two orders of a pair can be counted together; the squares of the vectors that `l` and `r`
share can be split off, because they do not depend on which of the two meets `i` first.

## Main definitions

- `Values.conjugate` — the coefficients of `R x R~`
- `Values.summand`, `Values.pairSummand` — what a triple and what an ordered pair contribute
- `Bucket.values` — what a bucket contributes

## Main results

- `Values.conjugate_eq_sum` — the expansion over ordered pairs of blades
- `Sandwich.sum_pairs` — unordered pairs count for both orders
- `Sandwich.sum_surviving` — the buckets that are emitted add up to the conjugation
- `Algebra.sandwichProduct_gives` — plain products compute the conjugation
-/

namespace Clifford

open Finset

variable {σ K S V : Type}

namespace Values

variable {R : Type*} [CommRing R]

/-- The coefficients of the product of `R`, an operand and the reverse of `R`. -/
noncomputable def conjugate (q : Nat → R) (f g : Values R) : Values R :=
  convolve (Blade.twist q) (convolve (Blade.twist q) f g) (reversed f)

/-- The product of coefficients and squares of a triple of blades, without its sign. -/
def summand (q : Nat → R) (f g : Values R) (l r i : Blade) : R :=
  (l &&& r).weight q * ((l ^^^ r) &&& i).weight q * (f l * f r * g i)

/-- What an ordered pair of blades contributes to the conjugation. -/
noncomputable def pairSummand (q : Nat → R) (f g : Values R) (l r : Blade) : Values R :=
  ∑ i, single (l ^^^ r ^^^ i) ((Sandwich.sign l i r : R) * summand q f g l r i)

/-- Without the sign, a triple does not depend on which blade stands on the left. -/
theorem summand_comm (q : Nat → R) (f g : Values R) (l r i : Blade) :
    summand q f g l r i = summand q f g r l i := by
  rw [summand, summand, BitVec.and_comm l r, BitVec.xor_comm l r]
  ring

/-- The sign of a triple is the product of the signs of its two products and of the reversion. -/
theorem cast_sign (l i r : Blade) :
    (Sandwich.sign l i r : R) =
      Blade.swapSign R l i * Blade.swapSign R (l ^^^ i) r * (-1) ^ r.reverseFlips := by
  have hpow := ite_isOdd_neg (l.productFlips i + (l ^^^ i).productFlips r + r.reverseFlips) (1 : R)
  rw [mul_one, pow_add, pow_add] at hpow
  rw [Blade.swapSign, Blade.swapSign, ← hpow, Sandwich.sign]
  split <;> simp

/-- **The conjugation is a sum over ordered pairs of blades of the operator.** -/
theorem conjugate_eq_sum (q : Nat → R) (f g : Values R) :
    conjugate q f g = ∑ l, ∑ r, pairSummand q f g l r := by
  funext d
  rw [conjugate, convolve_convolve_left, Finset.sum_apply]
  refine sum_congr rfl fun l _ => ?_
  rw [sum_comm, Finset.sum_apply]
  refine sum_congr rfl fun r _ => ?_
  rw [pairSummand, Finset.sum_apply]
  refine sum_congr rfl fun i _ => ?_
  -- One triple of blades: the same blade comes out, with the same sign and weight.
  have hblade : l ^^^ i ^^^ r = l ^^^ r ^^^ i := by
    rw [BitVec.xor_assoc, BitVec.xor_comm i r, ← BitVec.xor_assoc]
  rw [single, hblade]
  refine if_congr Iff.rfl ?_ rfl
  -- The metric factors of the two products, and those that split off the shared vectors.
  have hweight := Blade.weight_mul_weight_outer q l i r
  rw [reversed_apply, cast_sign, summand, Blade.twist, Blade.twist]
  linear_combination (Blade.swapSign R l i * Blade.swapSign R (l ^^^ i) r *
    (-1) ^ r.reverseFlips * (f l * f r * g i)) * hweight

end Values

namespace Sandwich

/-- **Unordered pairs of different blades count for both orders.** -/
theorem sum_pairs {X : Type*} [AddCommMonoid X] (F : Blade → Blade → X) {l : List Blade}
    (h : l.Nodup) :
    ((pairs l).map fun p => if p.1 = p.2 then F p.1 p.2 else F p.1 p.2 + F p.2 p.1).sum =
      (l.map fun a => (l.map fun b => F a b).sum).sum := by
  -- The first blade is paired with itself, and in both orders with each of the others.
  induction l with
  | nil => rfl
  | cons a rest ih =>
    obtain ⟨ha, hrest⟩ := List.nodup_cons.1 h
    have hnew : ((rest.map (a, ·)).map fun p : Blade × Blade =>
        if p.1 = p.2 then F p.1 p.2 else F p.1 p.2 + F p.2 p.1).sum =
        (rest.map fun b => F a b).sum + (rest.map fun b => F b a).sum := by
      rw [← List.sum_map_add, List.map_map]
      refine congrArg List.sum (List.map_congr_left fun b hb => ?_)
      have hne : a ≠ b := fun heq => ha (heq ▸ hb)
      exact if_neg hne
    have hrows : (rest.map fun b => ((a :: rest).map fun c => F b c).sum).sum =
        (rest.map fun b => F b a).sum + (rest.map fun b => (rest.map fun c => F b c).sum).sum := by
      rw [← List.sum_map_add]
      rfl
    rw [pairs, List.map_cons, List.sum_cons, List.map_append, List.sum_append, hnew, ih hrest,
      if_pos rfl, List.map_cons, List.sum_cons, hrows, List.map_cons, List.sum_cons]
    simp only [add_assoc]

end Sandwich

/-- What a bucket contributes. -/
def Bucket.values {R : Type*} [CommRing R] (q : Nat → R) (f g : Values R) (bucket : Bucket) :
    Values R :=
  Values.single bucket.blade
    ((bucket.count : R) * Values.summand q f g bucket.low bucket.high bucket.operand)

/-- A sum over the blades of a multivector is a sum over all blades. -/
theorem Reading.Denotes.sum_blades [Number K] {X : Type*} [AddCommMonoid X] {M : Reading σ K S V}
    {A : Algebra K S} {s : σ} {m : Multivector K S} {f : Values K} (hm : M.Denotes A s m f)
    {G : Blade → X} (hG : ∀ b, f b = 0 → G b = 0) : (m.blades.map G).sum = ∑ b, G b := by
  rw [← List.sum_toFinset G hm.nodup]
  refine sum_subset (subset_univ _) fun b _ hb => hG b ?_
  have hnone : m.components.lookup b = none :=
    lookup_eq_none_of_notMem fun h => hb (List.mem_toFinset.2 h)
  rw [← hm.values_eq, values_apply, Multivector.value, Multivector.get?, hnone]
  rfl

namespace Sandwich

variable [Number K] [ExactNumber K] {M : Reading σ K S V} {A : Algebra K S} {s : σ}
  {P : Sandwich K S} {x : Multivector K S} {q : Nat → K} {f g : Values K}

theorem sum_count (l r : Blade) :
    ∑ i, Values.single (l ^^^ r ^^^ i) ((count l r i : K) * Values.summand q f g l r i) =
      if l = r then Values.pairSummand q f g l r
      else Values.pairSummand q f g l r + Values.pairSummand q f g r l := by
  split
  · rename_i hlr
    simp only [count, if_pos hlr]
    rfl
  · rename_i hlr
    rw [Values.pairSummand, Values.pairSummand, ← sum_add_distrib]
    refine sum_congr rfl fun i _ => ?_
    rw [count, if_neg hlr, Int.cast_add, add_mul, Values.single_add, BitVec.xor_comm r l,
      Values.summand_comm q f g r l]

/-- A bucket contributes the same, whichever blade of its pair comes first. -/
theorem values_ordered (l r i : Blade) (n : Int) :
    Bucket.values q f g
        { low := (ordered (l, r)).1, high := (ordered (l, r)).2, operand := i, count := n } =
      Values.single (l ^^^ r ^^^ i) ((n : K) * Values.summand q f g l r i) := by
  rw [ordered]
  split
  · rfl
  · rw [Bucket.values, Bucket.blade, Values.summand_comm q f g r l, BitVec.xor_comm r l]

/-- The buckets of a pair contribute what both orders of the pair contribute. -/
theorem sum_buckets_pair (hA : M.Squares s P.algebra.metric q) (hx : M.Denotes A s x g)
    (l r : Blade) :
    (((x.blades.filter fun i => (P.algebra.metric.factors? ((l ^^^ r) &&& i)).isSome).map fun i =>
      ({ low := (ordered (l, r)).1, high := (ordered (l, r)).2, operand := i,
         count := count l r i } : Bucket)).map (Bucket.values q f g)).sum =
      if l = r then Values.pairSummand q f g l r
      else Values.pairSummand q f g l r + Values.pairSummand q f g r l := by
  rw [List.map_map, sum_map_filter, ← sum_count]
  refine Eq.trans (congrArg List.sum (List.map_congr_left fun i _ => ?_))
    (hx.sum_blades fun i hi => ?_)
  · -- What the filter drops has the weight zero.
    cases hfactors : P.algebra.metric.factors? ((l ^^^ r) &&& i) with
    | some squares => exact values_ordered l r i (count l r i)
    | none =>
      rw [Values.summand, hA.factors?_eq_none hfactors, mul_zero, zero_mul, mul_zero,
        Values.single_zero]
      rfl
  · rw [Values.summand, hi, mul_zero, mul_zero, mul_zero, Values.single_zero]

/-- **All buckets together contribute the conjugation.** -/
theorem sum_buckets (hA : M.Squares s P.algebra.metric q)
    (hP : M.Denotes P.algebra s P.operator f) (hx : M.Denotes A s x g) :
    ((P.buckets x).map (Bucket.values q f g)).sum = Values.conjugate q f g := by
  rw [buckets, livePairs, sum_map_flatMap]
  simp only [sum_buckets_pair hA hx]
  rw [sum_map_filter]
  -- A pair that shares a null vector contributes nothing, so it may be counted as well.
  have hall : ((pairs P.operator.blades).map fun p =>
      if (P.algebra.metric.factors? (p.1 &&& p.2)).isSome then
        if p.1 = p.2 then Values.pairSummand q f g p.1 p.2
        else Values.pairSummand q f g p.1 p.2 + Values.pairSummand q f g p.2 p.1
      else 0) =
      (pairs P.operator.blades).map fun p =>
        if p.1 = p.2 then Values.pairSummand q f g p.1 p.2
        else Values.pairSummand q f g p.1 p.2 + Values.pairSummand q f g p.2 p.1 := by
    refine List.map_congr_left fun p _ => ?_
    cases hfactors : P.algebra.metric.factors? (p.1 &&& p.2) with
    | some squares => rfl
    | none =>
      have hnull : ∀ i, Values.summand q f g p.1 p.2 i = 0 := by
        intro i
        rw [Values.summand, hA.factors?_eq_none hfactors, zero_mul, zero_mul]
      rw [← sum_count]
      simp only [hnull, mul_zero, Values.single_zero, sum_const_zero]
      rfl
  rw [hall, sum_pairs _ hP.nodup, Values.conjugate_eq_sum]
  have hrow : ∀ l, ((P.operator.blades).map fun r => Values.pairSummand q f g l r).sum =
      ∑ r, Values.pairSummand q f g l r := by
    intro l
    refine hP.sum_blades fun r hr => ?_
    rw [Values.pairSummand]
    refine sum_eq_zero fun i _ => ?_
    rw [Values.summand, hr, mul_zero, zero_mul, mul_zero, mul_zero, Values.single_zero]
  simp only [hrow]
  refine hP.sum_blades fun l hl => sum_eq_zero fun r _ => ?_
  rw [Values.pairSummand]
  refine sum_eq_zero fun i _ => ?_
  rw [Values.summand, hl, zero_mul, zero_mul, mul_zero, mul_zero, Values.single_zero]

/-- **The buckets that are emitted contribute the conjugation**, since those that cancel are
worth nothing. -/
theorem sum_surviving (hA : M.Squares s P.algebra.metric q)
    (hP : M.Denotes P.algebra s P.operator f) (hx : M.Denotes A s x g)
    {options : SandwichOptions} (hoptions : options.keepOperandGrades = false) :
    ((P.surviving x options).map (Bucket.values q f g)).sum = Values.conjugate q f g := by
  rw [← sum_buckets hA hP hx, surviving, sum_map_filter]
  refine congrArg List.sum (List.map_congr_left fun bucket _ => ?_)
  rw [hoptions, Bool.not_false, Bool.true_or, Bool.and_true]
  by_cases hcount : bucket.count = 0
  · rw [if_neg (by simp [hcount]), Bucket.values, hcount, Int.cast_zero, zero_mul,
      Values.single_zero]
  · rw [if_pos (by simp [hcount])]

end Sandwich

namespace Algebra

variable [Number K] [ExactNumber K] [Target σ K S V] {M : Reading σ K S V} {A : Algebra K S}
  {s : σ} {x R : Multivector K S} {q : Nat → K} {f g : Values K}

/-- **Plain products compute the conjugation.** -/
theorem sandwichProduct_gives (hM : M.Sound) (hA : M.Ready A s q) (hR : M.Denotes A s R f)
    (hx : M.Denotes A s x g) :
    (A.sandwichProduct R x : Emission σ K (Multivector K S)).Gives s fun r s' =>
      M.Advances s s' ∧ M.Denotes A s' r (Values.conjugate q f g) ∧
        (r.knownUnit = true → R.knownUnit = true ∧ x.knownUnit = true) := by
  refine .bind (.mono (reverse_gives hM hA.ready hR) ?_)
  rintro reversed s₁ ⟨hadv, hreversed, -⟩
  have hoperands : List.Forall₂ (M.Denotes A s₁) [R, x, reversed] [f, g, Values.reversed f] :=
    .cons (hR.mono hadv.symbols) (.cons (hx.mono hadv.symbols) (.cons hreversed .nil))
  refine .mono (mulAll_gives hM (hA.advance hadv) .geometric hoperands) ?_
  rintro r s₂ ⟨hadv', hr, hunit⟩
  rw [ProductKind.product, List.foldl_cons, List.foldl_cons, List.foldl_nil,
    ProductKind.kernel_geometric] at hr
  exact ⟨hadv.trans hadv', hr, fun h => ⟨hunit h R (by simp), hunit h x (by simp)⟩⟩

end Algebra

end Clifford
