import Clifford.Proofs.Algebra.Buckets
import Clifford.Proofs.Algebra.GradePreservation
import Clifford.Proofs.Target.Calls

/-!
# Cancellation in sandwiches

The two orders of a pair of different operator blades contribute to a blade of the result with the
same sign just if reversing that blade and reversing the blade of the operand take counts of
transpositions of the same parity. Otherwise they cancel. So nothing is emitted for blades of the
other parity, and a sandwich touches no such blade.

## Main definitions

- `Blade.ReverseAlike` — reversing two blades changes the sign of both or of neither
- `Sandwich.PairTerm`, `Sandwich.BucketTerm` — the terms that a sandwich emits

## Main results

- `Sandwich.count_ne_zero_iff` — when the two orders of a pair do not cancel
- `Sandwich.apply_cancels` — cancellation is the rule of the parities, for what is emitted as well
-/

namespace Clifford

variable {σ K S V : Type}

/-- Reversing the two blades takes counts of transpositions of the same parity. -/
def Blade.ReverseAlike (a b : Blade) : Prop := a.reverseFlips % 2 = b.reverseFlips % 2

instance (a b : Blade) : Decidable (a.ReverseAlike b) := inferInstanceAs (Decidable (_ = _))

theorem Blade.reverseSign_mul_reverseSign (a b : Blade) :
    reverseSign ℤ a * reverseSign ℤ b = if a.ReverseAlike b then 1 else -1 := by
  rw [reverseSign, reverseSign, ← pow_add]
  split
  · rename_i h
    unfold ReverseAlike at h
    exact Even.neg_one_pow (Nat.even_iff.2 (by omega))
  · rename_i h
    unfold ReverseAlike at h
    exact Odd.neg_one_pow (Nat.odd_iff.2 (by omega))

namespace Sandwich

/-! ### Counts -/

theorem sign_eq_or (l i r : Blade) : sign l i r = 1 ∨ sign l i r = -1 := by
  rw [sign]
  split
  · exact .inr rfl
  · exact .inl rfl

theorem sign_mul_sign (l r i : Blade) :
    sign l i r * sign r i l = if i.ReverseAlike (l ^^^ r ^^^ i) then 1 else -1 := by
  have h := Values.cast_sign_mul_cast_sign (R := ℤ) l r i
  rwa [Int.cast_id, Int.cast_id, mul_comm (Blade.reverseSign ℤ _),
    Blade.reverseSign_mul_reverseSign] at h

theorem count_self (l i : Blade) : count l l i = 1 ∨ count l l i = -1 := by
  rw [count, if_pos rfl]
  exact sign_eq_or l i l

/-- **The two orders of a pair count double where the parities agree.** -/
theorem count_of_alike {l r i : Blade} (hlr : l ≠ r) (h : i.ReverseAlike (l ^^^ r ^^^ i)) :
    count l r i = 2 ∨ count l r i = -2 := by
  have hmul := sign_mul_sign l r i
  rw [if_pos h] at hmul
  rw [count, if_neg hlr]
  obtain hl | hl := sign_eq_or l i r <;> obtain hr | hr := sign_eq_or r i l <;>
    rw [hl, hr] at hmul ⊢ <;> omega

/-- **The two orders of a pair cancel where the parities differ.** -/
theorem count_of_not_alike {l r i : Blade} (hlr : l ≠ r) (h : ¬i.ReverseAlike (l ^^^ r ^^^ i)) :
    count l r i = 0 := by
  have hmul := sign_mul_sign l r i
  rw [if_neg h] at hmul
  rw [count, if_neg hlr]
  obtain hl | hl := sign_eq_or l i r <;> obtain hr | hr := sign_eq_or r i l <;>
    rw [hl, hr] at hmul ⊢ <;> omega

theorem count_ne_zero_iff (l r i : Blade) : count l r i ≠ 0 ↔ i.ReverseAlike (l ^^^ r ^^^ i) := by
  by_cases hlr : l = r
  · subst hlr
    rw [BitVec.xor_self, BitVec.zero_xor]
    refine ⟨fun _ => rfl, fun _ => ?_⟩
    obtain h | h := count_self l i <;> rw [h] <;> decide
  · by_cases h : i.ReverseAlike (l ^^^ r ^^^ i)
    · refine ⟨fun _ => h, fun _ => ?_⟩
      obtain hcount | hcount := count_of_alike hlr h <;> rw [hcount] <;> decide
    · exact ⟨fun hne => absurd (count_of_not_alike hlr h) hne, fun halike => absurd halike h⟩

/-! ### Emission -/

section

variable [Number K] {P : Sandwich K S} {x : Multivector K S} {bucket : Bucket}

/-- The term of the product of a pair of operator components: the squares of the vectors that they
share, and the two coefficients. -/
def PairTerm (P : Sandwich K S) (term : Term K S) : Prop :=
  ∃ l ∈ P.operator.blades, ∃ r ∈ P.operator.blades, ∃ squares,
    P.algebra.metric.factors? (l &&& r) = some squares ∧
      term = squares ++ [P.operator.value l, P.operator.value r]

/-- The term of a bucket: the product of its pair, the coefficient of the operand, the squares of
the vectors shared with it, and the count without its sign. -/
def BucketTerm (P : Sandwich K S) (x : Multivector K S) (bucket : Bucket) (term : Term K S) :
    Prop :=
  ∃ product squares,
    P.algebra.metric.factors? ((bucket.low ^^^ bucket.high) &&& bucket.operand) = some squares ∧
      term = [product, x.value bucket.operand] ++ squares ++ [.number bucket.count.natAbs]

/-- What the sandwich of an operand adds to components: products of pairs, terms of buckets of like
parity, and the bare numbers that are left when a component is closed. -/
def Emitted (P : Sandwich K S) (x : Multivector K S) (term : Term K S) : Prop :=
  P.PairTerm term ∨
    (∃ bucket ∈ P.buckets x, bucket.operand.ReverseAlike bucket.blade ∧
      P.BucketTerm x bucket term) ∨
    ∃ y, term = [.number y]

/-- The buckets that survive are those of like parity. -/
theorem mem_surviving {options : SandwichOptions} (h : bucket ∈ P.surviving x options) :
    bucket ∈ P.buckets x ∧ bucket.operand.ReverseAlike bucket.blade := by
  obtain ⟨hbucket, hkept⟩ := List.mem_filter.1 h
  refine ⟨hbucket, ?_⟩
  obtain ⟨l, r, i, -, rfl⟩ := mem_buckets_iff.1 hbucket
  rw [Bool.and_eq_true, decide_eq_true_eq] at hkept
  rw [blade_bucketOf]
  exact (count_ne_zero_iff l r i).1 hkept.1

theorem surviving_eq_filter (P : Sandwich K S) (x : Multivector K S) :
    P.surviving x {} = (P.buckets x).filter fun bucket =>
      bucket.operand.ReverseAlike bucket.blade := by
  refine List.filter_congr fun bucket hbucket => ?_
  obtain ⟨l, r, i, -, rfl⟩ := mem_buckets_iff.1 hbucket
  have hiff := count_ne_zero_iff l r i
  rw [← blade_bucketOf l r i] at hiff
  have hcount : decide ((bucketOf l r i).count ≠ 0) =
      decide ((bucketOf l r i).operand.ReverseAlike (bucketOf l r i).blade) :=
    decide_eq_decide.2 hiff
  rw [hcount]
  exact Bool.and_true _

variable [Target σ K S V] {s : σ} {pair : Blade × Blade}

/-- Two states of a prepared operator, which may remember different products. -/
def SameOperator (P P' : Sandwich K S) : Prop :=
  P'.algebra = P.algebra ∧ P'.operator = P.operator

theorem pairValue_sends (hl : pair.1 ∈ P.operator.blades) (hr : pair.2 ∈ P.operator.blades) :
    Sends (TargetCall.Adds (P.Emitted x)) (P.pairValue pair) s fun r => P.SameOperator r.2 := by
  rw [pairValue]
  split
  · exact .pure ⟨rfl, rfl⟩
  · split
    · exact .pure ⟨rfl, rfl⟩
    · rename_i squares hsquares
      have hterm : P.Emitted x (squares ++ [P.operator.value pair.1, P.operator.value pair.2]) :=
        .inl ⟨_, hl, _, hr, squares, hsquares, rfl⟩
      refine Sends.bind_pure (P := fun _ => True) ?_ fun _ _ => ⟨rfl, rfl⟩
      rw [Cell.sum]
      refine Sends.bind (P := fun _ => True) ?_ fun cell s' _ =>
        cell.close_sends fun y => .inr (.inr ⟨y, rfl⟩)
      rw [List.foldlM_cons]
      exact (Cell.add_sends _ hterm false).bind fun _ _ _ => .pure trivial

theorem SameOperator.emitted_eq {P' : Sandwich K S} (h : P.SameOperator P') :
    P'.Emitted x = P.Emitted x := by
  obtain ⟨algebra, operator, products⟩ := P
  obtain ⟨algebra', operator', products'⟩ := P'
  obtain ⟨rfl, rfl⟩ := h
  rfl

theorem SameOperator.buckets_eq {P' : Sandwich K S} (h : P.SameOperator P') :
    P'.buckets x = P.buckets x := by
  rw [buckets, livePairs, h.1, h.2, buckets, livePairs]

/-- Emitting buckets of like parity touches only their blades. -/
theorem emitBuckets_sends (draft : Draft K V) {buckets : List Bucket}
    (h : ∀ bucket ∈ buckets, bucket ∈ P.buckets x ∧ bucket.operand.ReverseAlike bucket.blade) :
    Sends (TargetCall.Adds (P.Emitted x)) (P.emitBuckets x draft buckets) s fun r =>
      P.SameOperator r.2 ∧
        ∀ b ∈ r.1.blades, b ∈ draft.blades ∨ ∃ bucket ∈ buckets, bucket.blade = b := by
  induction buckets generalizing P draft s with
  | nil => exact .pure ⟨⟨rfl, rfl⟩, fun b hb => .inl hb⟩
  | cons bucket rest ih =>
    have hrest := fun other hother => h other (List.mem_cons_of_mem bucket hother)
    obtain ⟨hbucket, halike⟩ := h bucket List.mem_cons_self
    unfold emitBuckets
    split
    · refine (ih draft hrest).mono fun r hr => ⟨hr.1, fun b hb => (hr.2 b hb).imp_right ?_⟩
      rintro ⟨other, hother, rfl⟩
      exact ⟨other, List.mem_cons_of_mem _ hother, rfl⟩
    · rename_i squares hsquares
      obtain ⟨hlow, hhigh⟩ : bucket.low ∈ P.operator.blades ∧ bucket.high ∈ P.operator.blades := by
        obtain ⟨l, r, i, hlive, rfl⟩ := mem_buckets_iff.1 hbucket
        obtain h | h := ordered_cases l r <;> rw [bucketOf, h]
        · exact ⟨hlive.left, hlive.right⟩
        · exact ⟨hlive.right, hlive.left⟩
      refine (pairValue_sends hlow hhigh).bind fun r s' hsame => ?_
      obtain ⟨product, P'⟩ := r
      have hterm : P.Emitted x ([product, x.value bucket.operand] ++ squares ++
          [.number bucket.count.natAbs]) :=
        .inr (.inl ⟨bucket, hbucket, halike, product, squares, hsquares, rfl⟩)
      refine (Draft.add_sends P'.algebra.cellName (c := ⟨bucket.blade, _, _⟩) hterm draft).bind
        fun draft' s'' hblades => ?_
      rw [← hsame.emitted_eq]
      refine (ih draft' fun other hother => ?_).mono fun r hr => ?_
      · rw [hsame.buckets_eq]
        exact hrest other hother
      · refine ⟨⟨hr.1.1.trans hsame.1, hr.1.2.trans hsame.2⟩, fun b hb => ?_⟩
        obtain hb | ⟨other, hother, rfl⟩ := hr.2 b hb
        · rw [hblades, Draft.mem_touch] at hb
          obtain rfl | hb := hb
          · exact .inr ⟨bucket, List.mem_cons_self, rfl⟩
          · exact .inl hb
        · exact .inr ⟨other, List.mem_cons_of_mem _ hother, rfl⟩

omit [Number K] in
theorem announce_sends (A : Algebra K S) (operation : String) {terms : Term K S → Prop} :
    Sends (TargetCall.Adds terms) (A.announce operation) s fun _ => True := by
  rw [Algebra.announce]
  split
  · exact (Sends.single .space trivial rfl).bind fun _ s' _ =>
      .single (.comment operation) trivial rfl
  · exact .pure trivial

/-- The result of a draft has the blades of the draft. -/
theorem conclude_sends (P : Sandwich K S) (x : Multivector K S) (draft : Draft K V) :
    Emission.Sends (TargetCall.Adds (P.Emitted x)) (P.conclude x draft) s fun m =>
      m.blades = draft.blades := by
  rw [conclude]
  refine Emission.Sends.bind (P := fun m => m.blades = draft.blades) ?_ fun m s' hm => ?_
  · exact .lift ((draft.close_sends fun y => .inr (.inr ⟨y, rfl⟩)).bind_pure fun _ h => h)
  · split
    · rw [Algebra.markUnit]
      split
      · split
        · exact .throw
        · exact .pure hm
      · exact .pure hm
    · exact .pure hm

/-- **What a sandwich emits and touches.** -/
theorem applyWith_sends (P : Sandwich K S) (x : Multivector K S)
    {options : SandwichOptions} (hoptions : options.dummy = false) :
    Sends (TargetCall.Adds (P.Emitted x)) (P.applyWith x options) s fun r =>
      ∀ m, r.1 = .ok (some m) → ∀ b ∈ m.blades, ∃ i ∈ x.blades, i.ReverseAlike b := by
  rw [applyWith]
  split
  · exact .pure nofun
  · rw [hoptions, if_neg Bool.false_ne_true]
    refine (announce_sends P.algebra "sandwich").bind fun _ s' _ => ?_
    refine (emitBuckets_sends [] fun bucket hbucket => mem_surviving hbucket).bind
      fun r s'' hr => ?_
    obtain ⟨draft, P'⟩ := r
    obtain ⟨hsame, hblades⟩ := hr
    rw [← hsame.emitted_eq]
    refine Sends.bind_pure (conclude_sends P' x draft) fun result hresult m hm => ?_
    cases result with
    | error e => cases hm
    | ok m' =>
      obtain rfl : m' = m := Option.some.inj (Except.ok.inj hm)
      intro b hb
      rw [hresult m' rfl] at hb
      obtain hb | ⟨bucket, hbucket, rfl⟩ := hblades b hb
      · cases hb
      · obtain ⟨hmem, halike⟩ := mem_surviving hbucket
        obtain ⟨l, r, i, hlive, rfl⟩ := mem_buckets_iff.1 hmem
        exact ⟨i, hlive.operand, halike⟩

/-- The sandwich with default options is what it is with options. -/
theorem apply_sends (P : Sandwich K S) (x : Multivector K S) :
    Sends (TargetCall.Adds (P.Emitted x)) (P.apply x) s fun r =>
      ∀ m, r.1 = .ok m → ∀ b ∈ m.blades, ∃ i ∈ x.blades, i.ReverseAlike b := by
  refine (applyWith_sends P x rfl).bind_pure fun r hr m hm => ?_
  obtain ⟨result, P'⟩ := r
  cases result with
  | error e => cases hm
  | ok found =>
    cases found with
    | none =>
      intro b hb
      rw [← Except.ok.inj hm] at hb
      cases hb
    | some m' =>
      obtain rfl : m' = m := Except.ok.inj hm
      exact hr m' rfl

/-- **Cancellation is the rule of the parities.** Every triple of blades that the metric leaves
alive has one bucket, and the buckets come in the order in which they are first touched when all
contributions are counted one by one. A bucket counts the contributions of the orders of its pair
with their signs: one or minus one for a blade with itself, and for two blades two or minus two if
reversing the blade that goes in and the blade that comes out takes counts of transpositions of the
same parity, and zero otherwise. So the buckets that survive are those of like parity, the result
touches only blades that are reversed like some blade of the operand, and no term of the other
parity is among the calls that the target gets. -/
theorem apply_cancels (P : Sandwich K S) (x : Multivector K S)
    (hP : P.operator.blades.Nodup) (hx : x.blades.Nodup) (s : σ) :
    (P.buckets x).Nodup ∧
    (P.tally x).buckets = P.buckets x ∧
    (∀ l r i, P.Live x l r i → ∃! bucket, bucket ∈ P.buckets x ∧
      (bucket.low, bucket.high) = ordered (l, r) ∧ bucket.operand = i) ∧
    (∀ bucket ∈ P.buckets x,
      bucket.count =
        (((P.operator.blades ×ˢ P.operator.blades).filter fun p =>
          ordered p = (bucket.low, bucket.high)).map fun p => sign p.1 bucket.operand p.2).sum ∧
      if bucket.low = bucket.high then bucket.count = 1 ∨ bucket.count = -1
      else if bucket.operand.ReverseAlike (bucket.low ^^^ bucket.high ^^^ bucket.operand) then
        bucket.count = 2 ∨ bucket.count = -2
      else bucket.count = 0) ∧
    (P.surviving x {} = (P.buckets x).filter fun bucket =>
      bucket.operand.ReverseAlike (bucket.low ^^^ bucket.high ^^^ bucket.operand)) ∧
    (∀ m, ((P.apply x).run s).1.1 = .ok m → ∀ o ∈ m.blades, ∃ i ∈ x.blades, i.ReverseAlike o) ∧
    ∃ calls : List (TargetCall K S V), (∀ call ∈ calls, call.Adds (P.Emitted x)) ∧
      ((P.apply x).run s).2 = TargetCall.performAll calls s := by
  obtain ⟨calls, hcalls, hstate, htouched⟩ := apply_sends (s := s) P x
  refine ⟨nodup_buckets hP hx, tally_buckets hP hx, fun l r i hlive => ?_, fun bucket hbucket => ?_,
    surviving_eq_filter P x, htouched, calls, hcalls, hstate⟩
  · refine ⟨bucketOf l r i, ⟨mem_buckets_iff.2 ⟨l, r, i, hlive, rfl⟩, rfl, rfl⟩, ?_⟩
    rintro other ⟨hother, hpair, rfl⟩
    obtain ⟨a, b, i, -, rfl⟩ := mem_buckets_iff.1 hother
    obtain ⟨rfl, rfl⟩ | ⟨rfl, rfl⟩ := ordered_eq_iff.1 hpair
    · rfl
    · exact bucketOf_comm _ _ _
  · obtain ⟨l, r, i, hlive, rfl⟩ := mem_buckets_iff.1 hbucket
    refine ⟨count_bucketOf_eq_sum hP hlive.left hlive.right i, ?_⟩
    have hblade := blade_bucketOf l r i
    rw [Bucket.blade] at hblade
    have hequal : (bucketOf l r i).low = (bucketOf l r i).high ↔ l = r := by
      obtain h | h := ordered_cases l r <;> rw [bucketOf, h]
      exact eq_comm
    rw [hblade]
    split
    · rename_i hlow
      obtain rfl := hequal.1 hlow
      exact count_self l i
    · rename_i hlow
      have hlr : l ≠ r := fun h => hlow (hequal.2 h)
      split
      · rename_i halike
        exact count_of_alike hlr halike
      · rename_i halike
        exact count_of_not_alike hlr halike

end

/-- The scalar and a vector of the operator cancel around another vector: together they would
contribute to the area, which changes its sign when it is reversed. -/
theorem apply_cancels_inputPlane :
    ∃ bucket ∈ (Sandwich.mk Algebra.inputPlane (.inInputPlane 1) []).buckets literalVector,
      bucket.blade = 3 ∧ bucket.count = 0 := by
  have hscalar : (Algebra.inputPlane.metric.factors? 0).isSome := by
    rw [Metric.factors?, Blade.positions_eq_filter]
    decide
  have hlive : Live (Sandwich.mk Algebra.inputPlane (.inInputPlane 1) []) literalVector 0 1 2 :=
    ⟨by decide, by decide, by decide, hscalar, hscalar⟩
  have hunlike : ¬Blade.ReverseAlike 2 (0 ^^^ 1 ^^^ 2) := by
    rw [Blade.ReverseAlike, Blade.reverseFlips, Blade.reverseFlips, Blade.grade_eq_below,
      Blade.grade_eq_below]
    decide
  obtain ⟨-, -, hunique, hcounts, -⟩ :=
    apply_cancels (Sandwich.mk Algebra.inputPlane (.inInputPlane 1) []) literalVector (by decide)
      (by decide) Program.singleInput.2
  obtain ⟨bucket, ⟨hbucket, hpair, hoperand⟩, -⟩ := hunique 0 1 2 hlive
  obtain ⟨hlow, hhigh⟩ : bucket.low = 0 ∧ bucket.high = 1 := Prod.mk.inj hpair
  have hcount := (hcounts bucket hbucket).2
  rw [hlow, hhigh, hoperand, if_neg (by decide), if_neg hunlike] at hcount
  refine ⟨bucket, hbucket, ?_, hcount⟩
  rw [Bucket.blade, hlow, hhigh, hoperand]
  decide

end Sandwich

end Clifford
