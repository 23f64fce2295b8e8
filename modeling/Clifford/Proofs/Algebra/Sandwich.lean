import Clifford.Proofs.Algebra.Conjugation
import Clifford.Proofs.Algebra.Ends

/-!
# Prepared sandwiches

A prepared sandwich remembers the products of pairs of coefficients, each together with the squares
of the vectors that its blades share. Whatever it was used for before, these products are right,
and so is the sandwich of the next operand.

## Main definitions

- `Sandwich.Valid` — the operator and the remembered products have their values
- `Sandwich.Reached` — what becomes of a prepared operator as it is used

## Main results

- `Sandwich.applyWith_yields` — applying computes the conjugation and keeps the products right
- `Sandwich.force_yields` — forcing keeps the products right
- `Sandwich.apply_agrees_sandwichProduct` — applying agrees with the plain products
-/

namespace Clifford

open Finset

variable {σ K S V : Type} [Number K] [ExactNumber K]

/-- The value of a remembered product. -/
def Values.pairProduct (q : Nat → K) (f : Values K) (pair : Blade × Blade) : K :=
  (pair.1 &&& pair.2).weight q * (f pair.1 * f pair.2)

theorem signed_natAbs (n : Int) (x : K) : signed (decide (n < 0)) (x * (n.natAbs : K)) = n * x := by
  by_cases hn : n < 0
  · have habs : (n.natAbs : K) = -(n : K) := by
      rw [← Int.cast_natCast, Int.natCast_natAbs, abs_of_neg hn, Int.cast_neg]
    rw [decide_eq_true hn, habs, signed, if_pos rfl]
    ring
  · have habs : (n.natAbs : K) = (n : K) := by
      rw [← Int.cast_natCast, Int.natCast_natAbs, abs_of_nonneg (Int.not_lt.1 hn)]
    rw [decide_eq_false hn, habs, signed, if_neg Bool.false_ne_true]
    ring

namespace Sandwich

/-- The operator has the coefficients `f`, and every remembered product has its value. -/
structure Valid (M : Reading σ K S V) (A : Algebra K S) (R : Multivector K S) (q : Nat → K)
    (f : Values K) (s : σ) (P : Sandwich K S) : Prop where
  algebra : P.algebra = A
  operator : P.operator = R
  squares : M.Squares s A.metric q
  denotes : M.Denotes A s R f
  products : ∀ e ∈ P.products, M.Known s e.2 ∧ M.value s e.2 = Values.pairProduct q f e.1

variable {M : Reading σ K S V} {A : Algebra K S} {R x : Multivector K S} {q : Nat → K}
  {f g : Values K} {s s' : σ} {P : Sandwich K S} {others : List V}

theorem Valid.mono (h : Valid M A R q f s P) (hext : M.Extends s s') : Valid M A R q f s' P where
  algebra := h.algebra
  operator := h.operator
  squares := h.squares.mono hext
  denotes := h.denotes.mono hext
  products e he := by
    obtain ⟨hknown, hvalue⟩ := h.products e he
    exact ⟨hext.known hknown, (hext.value_eq hknown).trans hvalue⟩

theorem Valid.denotes_operator (h : Valid M A R q f s P) : M.Denotes A s P.operator f :=
  h.operator ▸ h.denotes

theorem values_bucketTerm (hx : M.Denotes A s x g) {bucket : Bucket} {product : Factor K S}
    {squares : Term K S}
    (hproduct : M.value s product = Values.pairProduct q f (bucket.low, bucket.high))
    (hsquares : M.termValue s squares =
      ((bucket.low ^^^ bucket.high) &&& bucket.operand).weight q) :
    Contribution.values M s
        { blade := bucket.blade
          term := [product, x.value bucket.operand] ++ squares ++ [.number bucket.count.natAbs]
          negate := bucket.count < 0 } =
      bucket.values q f g := by
  rw [Contribution.values, Contribution.value, Bucket.values]
  congr 1
  rw [Reading.termValue_append, Reading.termValue_append, hsquares, Reading.termValue_cons,
    Reading.termValue_cons, Reading.termValue_cons, Reading.termValue_nil, mul_one, mul_one,
    hproduct, ← Reading.values_apply, hx.values_eq, Reading.value_number, signed_natAbs,
    Values.summand, Values.pairProduct]
  ring

variable [Target σ K S V]

/-- The product of a pair has its value, whether it was remembered or is found now. -/
theorem pairValue_yields (hM : M.Sound) (h : Valid M A R q f s P) (hopen : M.Open s others)
    (pair : Blade × Blade) :
    Yields (P.pairValue pair) s fun (value, P') s' =>
      M.Keeps s s' others ∧ M.Open s' others ∧ Valid M A R q f s' P' ∧
        M.Known s' value ∧ M.value s' value = Values.pairProduct q f pair := by
  unfold pairValue
  split
  · -- The product is remembered.
    rename_i value hfound
    obtain ⟨front, rest, hsplit, -⟩ := List.lookup_eq_some_iff.1 hfound
    have hmem : (pair, value) ∈ P.products := by
      rw [hsplit]
      simp
    exact .pure ⟨.refl M s others, hopen, h, h.products _ hmem⟩
  split
  · -- The blades share a null vector, and nothing has to be computed.
    rename_i hfactors
    rw [h.algebra] at hfactors
    refine .pure ⟨.refl M s others, hopen, h, Reading.known_number _, ?_⟩
    rw [Values.pairProduct, h.squares.factors?_eq_none hfactors, zero_mul, Reading.value_number]
  · -- The product is computed, and remembered with its value.
    rename_i squares hfactors
    rw [h.algebra] at hfactors
    obtain ⟨hknown, hvalue⟩ := h.squares.factors?_eq_some hfactors
    have hoperator := h.denotes_operator
    have hterms : ∀ t ∈ [(squares ++ [P.operator.value pair.1, P.operator.value pair.2], false)],
        M.KnownTerm s t.1 :=
      List.forall_mem_singleton.2 (Reading.KnownTerm.append hknown
        (.cons (hoperator.known_value pair.1) (.cons (hoperator.known_value pair.2) .nil)))
    refine Yields.bind (Yields.mono (Cell.sum_yields hM "pair" hopen hterms) ?_)
    rintro value s' ⟨hkeeps, hopen', hvalue_known, hsum⟩
    have hproduct : M.value s' value = Values.pairProduct q f pair := by
      rw [hsum, List.map_singleton, List.sum_singleton, Reading.termValue_append, hvalue,
        Reading.termValue_cons, Reading.termValue_cons, Reading.termValue_nil, mul_one,
        Values.pairProduct, ← Reading.values_apply, ← Reading.values_apply, hoperator.values_eq]
      rfl
    have h' := h.mono hkeeps.symbols
    refine .pure ⟨hkeeps, hopen', ⟨h'.algebra, h'.operator, h'.squares, h'.denotes, ?_⟩,
      hvalue_known, hproduct⟩
    rintro e (_ | ⟨_, he⟩)
    · exact ⟨hvalue_known, hproduct⟩
    · exact h'.products e he

theorem forceAll_yields (hM : M.Sound) (h : Valid M A R q f s P) (hopen : M.Open s [])
    (pairs : List (Blade × Blade)) :
    Yields (P.forceAll pairs) s fun P' s' => M.Advances s s' ∧ Valid M A R q f s' P' := by
  induction pairs generalizing P s with
  | nil => exact .pure ⟨.refl hopen, h⟩
  | cons pair rest ih =>
    refine Yields.bind (Yields.mono (pairValue_yields hM h hopen pair) ?_)
    rintro ⟨value, P'⟩ s' ⟨hkeeps, hopen', h', -⟩
    refine Yields.mono (ih h' hopen') ?_
    rintro P'' s'' ⟨hadv, h''⟩
    exact ⟨(hkeeps.advances hopen').trans hadv, h''⟩

theorem force_yields (hM : M.Sound) (h : Valid M A R q f s P) (hopen : M.Open s []) :
    Yields P.force s fun P' s' => M.Advances s s' ∧ Valid M A R q f s' P' :=
  forceAll_yields hM h hopen _

/-- **Emitting buckets adds what they contribute to a draft**, and keeps the products right. -/
theorem emitBuckets_yields (hM : M.Sound) (h : Valid M A R q f s P) (hx : M.Denotes A s x g)
    {draft : Draft K V} (hopen : M.Open s draft.storages) (hnodup : draft.blades.Nodup)
    (buckets : List Bucket) :
    Yields (P.emitBuckets x draft buckets) s fun (draft', P') s' =>
      M.Extends s s' ∧ M.Open s' (Draft.storages draft') ∧ (Draft.blades draft').Nodup ∧
        Valid M A R q f s' P' ∧
        Draft.values M s' draft' =
          draft.values M s + (buckets.map (Bucket.values q f g)).sum := by
  induction buckets generalizing P draft s with
  | nil =>
    refine .pure ⟨.refl M s, hopen, hnodup, h, ?_⟩
    rw [List.map_nil, List.sum_nil, add_zero]
  | cons bucket rest ih =>
    unfold emitBuckets
    rw [h.algebra]
    split
    · -- A bucket with a null square is passed over, and is worth nothing.
      rename_i hfactors
      refine Yields.mono (ih h hx hopen hnodup) ?_
      rintro ⟨draft', P'⟩ s' ⟨hext, hopen', hnodup', h', hvalues⟩
      refine ⟨hext, hopen', hnodup', h', ?_⟩
      rw [hvalues, List.map_cons, List.sum_cons, Bucket.values, Values.summand,
        h.squares.factors?_eq_none hfactors, mul_zero, zero_mul, mul_zero, Values.single_zero,
        zero_add]
    · rename_i squares hfactors
      refine Yields.bind (Yields.mono (pairValue_yields hM h hopen (bucket.low, bucket.high)) ?_)
      rintro ⟨product, P₁⟩ s₁ ⟨hkeeps, hopen₁, h₁, hknown, hproduct⟩
      obtain ⟨hsquares_known, hsquares⟩ := h₁.squares.factors?_eq_some hfactors
      have hx₁ := hx.mono hkeeps.symbols
      have hterm : M.KnownTerm s₁
          ([product, x.value bucket.operand] ++ squares ++ [.number bucket.count.natAbs]) := by
        refine .append (.append ?_ hsquares_known) (.cons (Reading.known_number _) .nil)
        exact .cons hknown (.cons (hx₁.known_value bucket.operand) .nil)
      have hopen₁' : M.Open s₁ (draft.storages ++ []) := by rwa [List.append_nil]
      dsimp only
      rw [h₁.algebra]
      refine Yields.bind (Yields.mono (Draft.add_yields hM A.cellName hopen₁' hterm) ?_)
      rintro draft₂ s₂ ⟨hkeeps₂, hopen₂, hblades, hvalues₂⟩
      rw [List.append_nil] at hopen₂
      have hnodup₂ : (Draft.blades draft₂).Nodup := hblades ▸ Draft.nodup_touch hnodup
      refine Yields.mono (ih (h₁.mono hkeeps₂.symbols) (hx₁.mono hkeeps₂.symbols) hopen₂ hnodup₂) ?_
      rintro ⟨draft', P'⟩ s' ⟨hext, hopen', hnodup', h', hvalues⟩
      refine ⟨(hkeeps.symbols.trans hkeeps₂.symbols).trans hext, hopen', hnodup', h', ?_⟩
      have hsame : draft.values M s₁ = draft.values M s := Draft.values_congr hkeeps.storages
      rw [hvalues, hvalues₂, values_bucketTerm hx₁ hproduct hsquares, hsame, List.map_cons,
        List.sum_cons, add_assoc]

/-- The result of a draft has its values, and is marked as unit only if both operands are. There is
none only if verification of its norm fails. -/
theorem conclude_ends (hM : M.Sound) (h : Valid M A R q f s P) {draft : Draft K V}
    (hopen : M.Open s draft.storages) (hnodup : draft.blades.Nodup) :
    M.Ends (A.settings.unitTolerance?.isSome = true ∧ R.knownUnit = true ∧ x.knownUnit = true)
      (P.conclude x draft) s fun r s' => M.Denotes A s' r (draft.values M s) ∧
        (r.knownUnit = true → R.knownUnit = true ∧ x.knownUnit = true) := by
  unfold conclude
  rw [h.algebra, h.operator]
  refine .gives_bind (Algebra.finish_gives hM hopen hnodup) ?_
  rintro r s' hadv ⟨hr, hunit⟩
  split
  · rename_i hknown
    rw [Bool.and_eq_true] at hknown
    refine .mono (Algebra.markUnit_ends hadv.ready ?_) (fun h => ⟨h, hknown⟩) fun _ _ _ h => h
    exact ⟨hr.withKnownUnit true, fun _ => hknown⟩
  · refine .pure hadv.ready ⟨hr, fun h => ?_⟩
    rw [hunit] at h
    cases h

/-- **Applying a prepared operator computes the sum of the buckets that the options keep**, unless
verification of its norm fails, and keeps the products right. The norm is verified only where
operator and operand are both marked. An operand of another algebra is refused. -/
theorem applyWith_ends (hM : M.Sound) (h : Valid M A R q f s P) (hopen : M.Open s [])
    (hx : x.owner = A.id → M.Denotes A s x g) (options : SandwichOptions) :
    Yields (P.applyWith x options) s fun (result, P') s' =>
      M.Advances s s' ∧ Valid M A R q f s' P' ∧
        (x.owner = A.id → options.dummy = true → result = .ok none) ∧
        (x.owner = A.id → options.dummy = false → match result with
          | .ok r? => ∃ r, r? = some r ∧
            M.Denotes A s' r ((P.surviving x options).map (Bucket.values q f g)).sum ∧
            (r.knownUnit = true → R.knownUnit = true ∧ x.knownUnit = true)
          | .error _ => A.settings.unitTolerance?.isSome = true ∧ R.knownUnit = true ∧
            x.knownUnit = true) := by
  unfold applyWith
  rw [h.algebra]
  split
  · -- An operand of another algebra is refused before anything is emitted.
    rename_i hforeign
    have hnot : x.owner ≠ A.id := by
      intro howner
      simp [Algebra.owns, howner] at hforeign
    exact .pure ⟨.refl hopen, h, fun howner => absurd howner hnot, fun howner => absurd howner hnot⟩
  rename_i howns
  have howner : x.owner = A.id := by
    simpa [Algebra.owns] using howns
  split
  · -- A dummy operand only makes the operator find its products.
    rename_i hdummy
    refine Yields.bind (Yields.mono (force_yields hM h hopen) ?_)
    rintro P' s' ⟨hadv, h'⟩
    refine .pure ⟨hadv, h', fun _ _ => rfl, fun _ hnot => ?_⟩
    rw [hdummy] at hnot
    cases hnot
  · rename_i hdummy
    refine Yields.bind (Yields.mono (Algebra.announce_steady hM.steady hopen "sandwich") ?_)
    rintro - s₁ hadv
    have h₁ := h.mono hadv.symbols
    have hx₁ := (hx howner).mono hadv.symbols
    have hempty : M.Open s₁ (Draft.storages ([] : Draft K V)) := hadv.ready
    refine Yields.bind (Yields.mono
      (emitBuckets_yields hM h₁ hx₁ hempty List.nodup_nil (P.surviving x options)) ?_)
    rintro ⟨draft, P'⟩ s₂ ⟨hext, hopen₂, hnodup, h₂, hvalues⟩
    refine Yields.bind (Yields.mono (conclude_ends (x := x) hM h₂ hopen₂ hnodup) ?_)
    have hzero : Draft.values M s₁ ([] : Draft K V) = 0 := rfl
    rw [hvalues, hzero, zero_add]
    rintro result s₃ ⟨hadv₃, hresult⟩
    refine .pure ⟨⟨(hadv.symbols.trans hext).trans hadv₃.symbols, hadv₃.ready⟩,
      h₂.mono hadv₃.symbols, fun _ h => absurd h hdummy, fun _ _ => ?_⟩
    cases result with
    | ok r => exact ⟨r, rfl, hresult⟩
    | error e => exact hresult

/-- Without verification of unit norms, applying to an operand of the algebra succeeds. -/
theorem applyWith_yields (hM : M.Sound) (hA : A.settings.unitTolerance? = none)
    (h : Valid M A R q f s P) (hopen : M.Open s [])
    (hx : x.owner = A.id → M.Denotes A s x g) (options : SandwichOptions) :
    Yields (P.applyWith x options) s fun (result, P') s' =>
      M.Advances s s' ∧ Valid M A R q f s' P' ∧
        (x.owner = A.id → options.dummy = true → result = .ok none) ∧
        (x.owner = A.id → options.dummy = false → ∃ r, result = .ok (some r) ∧
          M.Denotes A s' r ((P.surviving x options).map (Bucket.values q f g)).sum ∧
          (r.knownUnit = true → R.knownUnit = true ∧ x.knownUnit = true)) := by
  refine Yields.mono (applyWith_ends hM h hopen hx options) ?_
  rintro ⟨_ | r?, P'⟩ s' ⟨hadv, h', hdummy, hresult⟩
  · refine ⟨hadv, h', hdummy, fun howner hnot => ?_⟩
    obtain ⟨hsome, -⟩ := hresult howner hnot
    rw [hA] at hsome
    cases hsome
  · refine ⟨hadv, h', hdummy, fun howner hnot => ?_⟩
    obtain ⟨r, rfl, hr⟩ := hresult howner hnot
    exact ⟨r, rfl, hr⟩

/-- What becomes of the operator `R` of the algebra `A` after it was prepared. It may be applied
to any operands with any options, forced, and left alone while the target serves others. -/
inductive Reached (M : Reading σ K S V) (A : Algebra K S) (R : Multivector K S) :
    Sandwich K S → σ → Prop where
  /-- The operator was prepared. -/
  | prepared {P : Sandwich K S} {s s' : σ} : M.Open s [] →
      (∀ square ∈ A.metric, M.Known s square) → M.Member A s R →
      (A.sandwich R : Emission σ K (Sandwich K S)).outcome s = (.ok P, s') → Reached M A R P s'
  /-- The target was used for something else. -/
  | elsewhere {P : Sandwich K S} {s s' : σ} : Reached M A R P s → M.Advances s s' →
      Reached M A R P s'
  /-- The operator was applied, successfully or not. -/
  | applied {P : Sandwich K S} {s : σ} (x : Multivector K S) (options : SandwichOptions) :
      Reached M A R P s → (x.owner = A.id → M.Member A s x) →
      Reached M A R ((P.applyWith x options).run s).1.2 ((P.applyWith x options).run s).2
  /-- All products of pairs were found. -/
  | forced {P : Sandwich K S} {s : σ} : Reached M A R P s →
      Reached M A R (P.force.run s).1 (P.force.run s).2

/-- The products that a prepared operator remembers are right, whatever it was used for. -/
theorem Reached.valid (hM : M.Sound) (hA : A.settings.unitTolerance? = none)
    (h : Reached M A R P s) : M.Open s [] ∧ ∃ q f, Valid M A R q f s P := by
  -- Remembered products are added, never changed, and the target keeps the values of symbols.
  induction h with
  | prepared hopen hmetric hR hrun =>
    rename_i P s s'
    have hgives : (A.sandwich R : Emission σ K (Sandwich K S)).Gives s fun P' s' =>
        P' = { algebra := A, operator := R } ∧ s' = s :=
      .bind (Algebra.check_gives hR.owner (.pure ⟨rfl, rfl⟩))
    obtain ⟨P', s'', hrun', rfl, rfl⟩ := hgives
    obtain ⟨rfl, rfl⟩ : P = _ ∧ s' = _ := by simpa [hrun] using hrun'
    exact ⟨hopen, _, _, rfl, rfl, Reading.squares_spec hmetric, hR.denotes, nofun⟩
  | elsewhere _ hadv ih =>
    obtain ⟨-, q, f, h⟩ := ih
    exact ⟨hadv.ready, q, f, h.mono hadv.symbols⟩
  | applied x options _ hx ih =>
    obtain ⟨hopen, q, f, h⟩ := ih
    obtain ⟨hadv, h', -⟩ :=
      applyWith_yields hM hA h hopen (fun howner => (hx howner).denotes) options
    exact ⟨hadv.ready, q, f, h'⟩
  | forced _ ih =>
    obtain ⟨hopen, q, f, h⟩ := ih
    obtain ⟨hadv, h'⟩ := force_yields hM h hopen
    exact ⟨hadv.ready, q, f, h'⟩

/-- Applying a prepared operator conjugates the operand, unless verification of the norm fails. -/
theorem apply_ends (hM : M.Sound) (h : Valid M A R q f s P) (hopen : M.Open s [])
    (hx : M.Denotes A s x g) :
    Yields (P.apply x) s fun (result, P') s' =>
      M.Advances s s' ∧ Valid M A R q f s' P' ∧
        match result with
        | .ok r => M.Denotes A s' r (Values.conjugate q f g) ∧
          (r.knownUnit = true → R.knownUnit = true ∧ x.knownUnit = true)
        | .error _ => A.settings.unitTolerance?.isSome = true ∧ R.knownUnit = true ∧
          x.knownUnit = true := by
  refine Yields.bind (Yields.mono (applyWith_ends hM h hopen (fun _ => hx) {}) ?_)
  rintro ⟨result, P'⟩ s' ⟨hadv, h', -, hresult⟩
  refine .pure ⟨hadv, h', ?_⟩
  cases result with
  | error e => exact hresult hx.owner rfl
  | ok r? =>
    obtain ⟨r, rfl, hr, hunit⟩ := hresult hx.owner rfl
    have hsquares : M.Squares s P.algebra.metric q := h.algebra ▸ h.squares
    have hoperator : M.Denotes P.algebra s P.operator f := h.algebra ▸ h.denotes_operator
    rw [sum_surviving hsquares hoperator hx rfl] at hr
    exact ⟨hr, hunit⟩

theorem apply_gives (hM : M.Sound) (hA : A.settings.unitTolerance? = none)
    (h : Valid M A R q f s P) (hopen : M.Open s []) (hx : M.Denotes A s x g) :
    Yields (P.apply x) s fun (result, P') s' =>
      M.Advances s s' ∧ Valid M A R q f s' P' ∧
        ∃ r, result = .ok r ∧ M.Denotes A s' r (Values.conjugate q f g) := by
  refine Yields.mono (apply_ends hM h hopen hx) ?_
  rintro ⟨_ | r, P'⟩ s' ⟨hadv, h', hresult⟩
  · obtain ⟨hsome, -⟩ := hresult
    rw [hA] at hsome
    cases hsome
  · exact ⟨hadv, h', r, rfl, hresult.1⟩

/-- **Applying a prepared operator agrees with the plain products**, whatever the operator was
used for before. Without verification of unit norms, both succeed, and their results have the
same value at every blade. -/
theorem apply_agrees_sandwichProduct (hM : M.Sound) (hA : A.settings.unitTolerance? = none)
    (h : Reached M A R P s) (hx : M.Member A s x) :
    Emission.Gives (do
      let (result, _) ← ExceptT.lift (P.apply x)
      let optimised ← ExceptT.mk (pure result)
      let reference ← A.sandwichProduct R x
      pure (optimised, reference)) s fun (optimised, reference) s' =>
        M.Agree s' optimised reference := by
  obtain ⟨hopen, q, f, hvalid⟩ := h.valid hM hA
  refine .bind (.mono (.lift (apply_gives hM hA hvalid hopen hx.denotes)) ?_)
  rintro ⟨_, P'⟩ s₁ ⟨hadv, hvalid', optimised, rfl, hoptimised⟩
  refine .bind (.pure ?_)
  have hready : M.Ready A s₁ q := ⟨hadv.ready, hvalid'.squares⟩
  have hreference := Algebra.sandwichProduct_gives hM hready hvalid'.denotes
    (hx.denotes.mono hadv.symbols)
  refine .bind (.mono hreference ?_)
  rintro reference s₂ ⟨hadv', hr, -⟩
  exact .pure ((hoptimised.mono hadv'.symbols).agree hr)

/-- A vector with literal coefficients in the plane with a symbol. -/
def literalVector : Multivector ℚ Handle where
  owner := 0
  components := [(1, .number 3), (2, .number (-1))]

theorem member_literalVector (x : ℚ) (s : Program ℚ) :
    (Program.reading fun _ => some x).Member Algebra.inputPlane s literalVector where
  owner := rfl
  nodup := by decide
  known := by
    rintro c (_ | ⟨_, _ | ⟨_, ⟨⟩⟩⟩)
    · exact Reading.known_number 3
    · exact Reading.known_number (-1)

theorem apply_agrees_sandwichProduct_inputPlane :
    let prepared : Sandwich ℚ Handle :=
      { algebra := Algebra.inputPlane, operator := .inInputPlane 1 }
    let forced := (prepared.force : StateM (Program ℚ) _).run Program.singleInput.2
    let used := (forced.1.applyWith literalVector { keepOperandGrades := true }).run forced.2
    Emission.Gives (do
      let (result, _) ← ExceptT.lift (used.1.2.apply literalVector)
      let optimised ← ExceptT.mk (pure result)
      let reference ← Algebra.inputPlane.sandwichProduct (.inInputPlane 1) literalVector
      pure (optimised, reference)) used.2 fun (optimised, reference) s' =>
        (Program.reading fun _ => some 5).Agree s' optimised reference := by
  intro prepared forced used
  have hprepared : Reached (Program.reading fun _ => some (5 : ℚ)) Algebra.inputPlane
      (.inInputPlane 1) prepared Program.singleInput.2 :=
    .prepared (Program.orderly_singleInput _) (Algebra.known_inputPlane _)
      (Multivector.member_inInputPlane _ 1) rfl
  have hused := (hprepared.forced).applied literalVector { keepOperandGrades := true }
    fun _ => member_literalVector _ _
  exact apply_agrees_sandwichProduct Program.sound_reading rfl hused (member_literalVector _ _)

end Sandwich

end Clifford
