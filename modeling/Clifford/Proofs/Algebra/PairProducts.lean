import Clifford.Proofs.Algebra.SandwichBlades
import Clifford.Proofs.Blade.Vectors
import Clifford.Proofs.Number.Rational
import Clifford.Target.Journal

/-!
# Products of pairs

A prepared operator opens an accumulator for the product of a pair of its components when the
product is first wanted, and remembers the product. What is wanted depends on the requests before:
an operand wants the pairs of the buckets that are left of it, in their order, and forcing wants all
pairs, by ascending blades. Whatever the order, what is remembered in the end is what was found, and
nothing is found that is remembered. A request whose operand belongs to another algebra is refused
before anything else, so it finds nothing even where only products of pairs are wanted.

## Main definitions

- `Sandwich.Request`, `Sandwich.serve` — what may be asked of a prepared operator, and its answer
- `Sandwich.Step`, `Sandwich.stepsFor` — the steps that meet demands for products
- `Sandwich.Run` — what steps make of a draft and of the state of a target
- `Sandwich.Visit`, `Sandwich.visits` — requests one after another

## Main results

- `Sandwich.nodup_found_stepsFor` — no product is found twice
- `Sandwich.serve_performs` — what one request adds and emits
- `Sandwich.visits_grown`, `Sandwich.visits_performs` — what a sequence of requests adds and emits
- `Sandwich.pairs_found_once` — each pair has its product found once, whatever is asked
-/

namespace Clifford

variable {σ K S V : Type}

namespace Sandwich

/-! ### Requests -/

/-- What may be asked of a prepared operator. -/
inductive Request (K S : Type) where
  /-- The sandwich of an operand. -/
  | apply (x : Multivector K S)
  /-- The sandwich of an operand, with options. -/
  | applyWith (x : Multivector K S) (options : SandwichOptions)
  /-- The products of all pairs. -/
  | force

/-- What is done for a request. -/
inductive Task (K S : Type) where
  /-- It is refused: the operand belongs to another algebra. -/
  | refuse
  /-- The products of all pairs are found. -/
  | force
  /-- The sandwich of an operand is emitted. -/
  | conjugate (x : Multivector K S) (options : SandwichOptions)

namespace Request

/-- Whether only products of pairs are wanted, and no result. -/
def wantsPairs : Request K S → Bool
  | apply _ => false
  | applyWith _ options => options.dummy
  | force => true

/-- Whether there is an operand that belongs to another algebra. -/
def isForeign (A : Algebra K S) : Request K S → Bool
  | apply x | applyWith x _ => !A.owns x
  | force => false

/-- What is done for a request in an algebra. -/
def task (A : Algebra K S) (request : Request K S) : Task K S :=
  if request.isForeign A then .refuse
  else match request with
    | apply x => .conjugate x {}
    | applyWith x options => if options.dummy then .force else .conjugate x options
    | force => .force

theorem task_of_wantsPairs {A : Algebra K S} {request : Request K S}
    (hwants : request.wantsPairs = true) :
    request.task A = if request.isForeign A then .refuse else .force := by
  cases request with
  | apply x => cases hwants
  | applyWith x options =>
    have hdummy : options.dummy = true := hwants
    simp [task, hdummy]
  | force => rfl

end Request

/-! ### Steps -/

/-- A product that is wanted. -/
structure Demand (K S : Type) where
  /-- The pair that it is the product of. -/
  pair : Blade × Blade
  /-- The operand and the bucket that it is wanted for, unless it is wanted for its own sake. -/
  use? : Option (Multivector K S × Bucket)

/-- A step in serving a request. -/
inductive Step (K S : Type) where
  /-- An accumulator is opened for the product of a pair. -/
  | find (pair : Blade × Blade)
  /-- The contribution of a bucket is added to the result, with the product of its pair. -/
  | add (x : Multivector K S) (bucket : Bucket)

/-- The pair whose product is found. -/
def Step.pair? : Step K S → Option (Blade × Blade)
  | find pair => some pair
  | add _ _ => none

/-- The pairs whose products some steps find. -/
def found (steps : List (Step K S)) : List (Blade × Blade) := steps.filterMap Step.pair?

/-- The step that a product is wanted for. -/
def Demand.uses (d : Demand K S) : List (Step K S) :=
  (d.use?.map fun (x, bucket) => Step.add x bucket).toList

/-- The steps that meet some demands in their order, where some products are known. -/
def stepsFor (known : List (Blade × Blade)) : List (Demand K S) → List (Step K S)
  | [] => []
  | d :: rest =>
    if d.pair ∈ known then d.uses ++ stepsFor known rest
    else .find d.pair :: (d.uses ++ stepsFor (d.pair :: known) rest)

section Steps

variable {known : List (Blade × Blade)} {demands : List (Demand K S)} {pair : Blade × Blade}

@[simp] theorem found_append (front rest : List (Step K S)) :
    found (front ++ rest) = found front ++ found rest :=
  List.filterMap_append

@[simp] theorem found_uses (d : Demand K S) : found d.uses = [] := by
  rw [Demand.uses]
  cases d.use? <;> rfl

theorem found_stepsFor_of_mem {d : Demand K S} (h : d.pair ∈ known) :
    found (stepsFor known (d :: demands)) = found (stepsFor known demands) := by
  simp [stepsFor, h]

theorem found_stepsFor_of_notMem {d : Demand K S} (h : d.pair ∉ known) :
    found (stepsFor known (d :: demands)) =
      d.pair :: found (stepsFor (d.pair :: known) demands) := by
  rw [stepsFor, if_neg h]
  show d.pair :: found (d.uses ++ stepsFor (d.pair :: known) demands) = _
  rw [found_append, found_uses, List.nil_append]

/-- **No product is found twice, and none that is known.** -/
theorem nodup_found_stepsFor (hknown : known.Nodup) (demands : List (Demand K S)) :
    ((found (stepsFor known demands)).reverse ++ known).Nodup := by
  induction demands generalizing known with
  | nil => exact hknown
  | cons d rest ih =>
    by_cases hd : d.pair ∈ known
    · rw [found_stepsFor_of_mem hd]
      exact ih hknown
    · rw [found_stepsFor_of_notMem hd, List.reverse_cons, List.append_assoc]
      exact ih (List.nodup_cons.2 ⟨hd, hknown⟩)

/-- All demands are met. -/
theorem mem_known_or_found {d : Demand K S} (hd : d ∈ demands) :
    d.pair ∈ (found (stepsFor known demands)).reverse ++ known := by
  induction demands generalizing known with
  | nil => cases hd
  | cons first rest ih =>
    by_cases hfirst : first.pair ∈ known
    · rw [found_stepsFor_of_mem hfirst]
      rcases List.mem_cons.1 hd with rfl | hrest
      · exact List.mem_append_right _ hfirst
      · exact ih hrest
    · rw [found_stepsFor_of_notMem hfirst, List.reverse_cons, List.append_assoc]
      rcases List.mem_cons.1 hd with rfl | hrest
      · exact List.mem_append_right _ List.mem_cons_self
      · exact ih hrest

/-- What is found was wanted, and was not known. -/
theorem of_mem_found (h : pair ∈ found (stepsFor known demands)) :
    pair ∉ known ∧ ∃ d ∈ demands, d.pair = pair := by
  induction demands generalizing known with
  | nil => cases h
  | cons first rest ih =>
    by_cases hfirst : first.pair ∈ known
    · rw [found_stepsFor_of_mem hfirst] at h
      obtain ⟨hnot, d, hd, hpair⟩ := ih h
      exact ⟨hnot, d, List.mem_cons_of_mem first hd, hpair⟩
    · rw [found_stepsFor_of_notMem hfirst] at h
      rcases List.mem_cons.1 h with rfl | hrest
      · exact ⟨hfirst, first, List.mem_cons_self, rfl⟩
      · obtain ⟨hnot, d, hd, hpair⟩ := ih hrest
        exact ⟨fun hknown => hnot (List.mem_cons_of_mem _ hknown), d,
          List.mem_cons_of_mem first hd, hpair⟩

/-- Demands for products for their own sake are met by finding products. -/
theorem find_of_mem_stepsFor {step : Step K S} (huse : ∀ d ∈ demands, d.use? = none)
    (h : step ∈ stepsFor known demands) : ∃ pair, step = .find pair := by
  induction demands generalizing known with
  | nil => cases h
  | cons first rest ih =>
    obtain ⟨hfirst, hrest⟩ := List.forall_mem_cons.1 huse
    have huses : first.uses = [] := by
      rw [Demand.uses, hfirst]
      rfl
    rw [stepsFor, huses, List.nil_append, List.nil_append] at h
    split at h
    · exact ih hrest h
    · rcases List.mem_cons.1 h with rfl | h
      · exact ⟨first.pair, rfl⟩
      · exact ih hrest h

end Steps

/-! ### Serving -/

variable [Number K]

/-- The products that are wanted, in their order. -/
def demands (P : Sandwich K S) : Task K S → List (Demand K S)
  | .refuse => []
  | .force => ((P.livePairs.map ordered).mergeSort pairBefore).map (⟨·, none⟩)
  | .conjugate x options =>
    (P.surviving x options).map fun bucket => ⟨(bucket.low, bucket.high), some (x, bucket)⟩

/-- The pairs whose products are remembered. -/
def known (P : Sandwich K S) : List (Blade × Blade) := P.products.map Prod.fst

/-- The steps in serving a request. -/
def steps (P : Sandwich K S) (request : Request K S) : List (Step K S) :=
  stepsFor P.known (P.demands (request.task P.algebra))

/-- What is added to a result for a bucket, with the product of its pair. -/
def contribution (A : Algebra K S) (x : Multivector K S) (bucket : Bucket) (product : Factor K S) :
    Contribution K S where
  blade := bucket.blade
  term := [product, x.value bucket.operand] ++
    (A.metric.factors? ((bucket.low ^^^ bucket.high) &&& bucket.operand)).getD [] ++
      [.number bucket.count.natAbs]
  negate := bucket.count < 0

variable [Target σ K S V]

/-- Opens an accumulator for the product of a pair of components of an operator, and reads it. -/
def findPair (A : Algebra K S) (operator : Multivector K S) (pair : Blade × Blade) :
    StateM σ (Factor K S) :=
  Cell.sum "pair" [((A.metric.factors? (pair.1 &&& pair.2)).getD [] ++
    [operator.value pair.1, operator.value pair.2], false)]

/-- Steps lead from a draft and a state of the target to others, where the accumulators that are
opened for pairs have given values, and the contributions of buckets are made with these. -/
inductive Run (A : Algebra K S) (operator : Multivector K S)
    (value : Blade × Blade → Factor K S) :
    List (Step K S) → Draft K V → σ → Draft K V → σ → Prop
  | nil {draft : Draft K V} {s : σ} : Run A operator value [] draft s draft s
  | find {pair : Blade × Blade} {rest : List (Step K S)} {draft draft' : Draft K V}
      {s s₁ s' : σ} :
    (findPair A operator pair).run s = (value pair, s₁) →
      Run A operator value rest draft s₁ draft' s' →
        Run A operator value (.find pair :: rest) draft s draft' s'
  | add {x : Multivector K S} {bucket : Bucket} {rest : List (Step K S)}
      {draft draft₁ draft' : Draft K V} {s s₁ s' : σ} :
    (draft.add A.cellName (contribution A x bucket (value (bucket.low, bucket.high)))).run s =
        (draft₁, s₁) →
      Run A operator value rest draft₁ s₁ draft' s' →
        Run A operator value (.add x bucket :: rest) draft s draft' s'

/-- The answer to a request, and the prepared operator afterwards. -/
def serve (P : Sandwich K S) : Request K S →
    StateM σ (Except (AlgebraError K) (Option (Multivector K S)) × Sandwich K S)
  | .apply x => do
    let (result, P) ← P.apply x
    pure (result.map some, P)
  | .applyWith x options => P.applyWith x options
  | .force => do
    let P ← P.force
    pure (.ok none, P)

/-- A prepared operator has found the products of some pairs, and forgotten none. -/
structure Grown (P : Sandwich K S) (pairs : List (Blade × Blade)) (P' : Sandwich K S) : Prop where
  /-- It is the same operator. -/
  same : P.SameOperator P'
  /-- The products that were remembered still are. -/
  remembers : ∀ pair f, P.products.lookup pair = some f → P'.products.lookup pair = some f
  /-- Beside these, exactly the new ones are remembered. -/
  known_eq : P'.known = pairs.reverse ++ P.known

/-- The remembered products are those given. -/
def Agrees (P : Sandwich K S) (value : Blade × Blade → Factor K S) : Prop :=
  ∀ pair f, P.products.lookup pair = some f → value pair = f

variable {P P' P'' : Sandwich K S} {pairs pairs' : List (Blade × Blade)}
  {value : Blade × Blade → Factor K S} {s : σ}

omit [Number K] in
theorem Grown.refl (P : Sandwich K S) : P.Grown [] P :=
  ⟨⟨rfl, rfl⟩, fun _ _ h => h, rfl⟩

omit [Number K] in
theorem Grown.trans (h : P.Grown pairs P') (h' : P'.Grown pairs' P'') :
    P.Grown (pairs ++ pairs') P'' where
  same := h.same.trans h'.same
  remembers pair f hf := h'.remembers pair f (h.remembers pair f hf)
  known_eq := by
    rw [h'.known_eq, h.known_eq, List.reverse_append, List.append_assoc]

omit [Number K] in
/-- What agrees with more products agrees with fewer. -/
theorem Grown.agrees (h : P.Grown pairs P') (hvalue : P'.Agrees value) : P.Agrees value :=
  fun pair f hf => hvalue pair f (h.remembers pair f hf)

omit [Number K] in
theorem lookup_of_mem_known {pair : Blade × Blade} (h : pair ∈ P.known) :
    ∃ f, P.products.lookup pair = some f := by
  obtain ⟨c, hc, hpair⟩ := List.mem_map.1 h
  cases hlookup : P.products.lookup pair with
  | some f => exact ⟨f, rfl⟩
  | none =>
    have hne := List.lookup_eq_none_iff.1 hlookup c hc
    rw [hpair, bne_self_eq_false] at hne
    cases hne

omit [Number K] in
/-- A product that is not remembered yet can be remembered. -/
theorem Grown.insert {pair : Blade × Blade} (h : pair ∉ P.known) (f : Factor K S) :
    P.Grown [pair] { P with products := (pair, f) :: P.products } where
  same := ⟨rfl, rfl⟩
  remembers other g hg := by
    have hne : (other == pair) = false := by
      apply beq_false_of_ne
      intro hsame
      rw [hsame, lookup_eq_none_of_notMem h] at hg
      cases hg
    rw [List.lookup_cons, hne]
    exact hg
  known_eq := rfl

/-- How a product comes to be at hand: it is remembered, and nothing is emitted, or an accumulator
is opened for it, whose value is remembered. -/
inductive Finds (P : Sandwich K S) (pair : Blade × Blade) (s : σ) :
    Factor K S → Sandwich K S → σ → Prop
  | remembered {f : Factor K S} :
    pair ∈ P.known → P.products.lookup pair = some f → Finds P pair s f P s
  | emitted {f : Factor K S} {s' : σ} :
    pair ∉ P.known → (findPair P.algebra P.operator pair).run s = (f, s') →
      Finds P pair s f { P with products := (pair, f) :: P.products } s'

theorem Finds.same {pair : Blade × Blade} {f : Factor K S} {s' : σ}
    (h : P.Finds pair s f P' s') : P.SameOperator P' := by
  cases h <;> exact ⟨rfl, rfl⟩

theorem Finds.lookup {pair : Blade × Blade} {f : Factor K S} {s' : σ}
    (h : P.Finds pair s f P' s') : P'.products.lookup pair = some f := by
  cases h with
  | remembered _ hlookup => exact hlookup
  | emitted _ _ => exact List.lookup_cons_self

/-- **The product of a pair that does not vanish is looked up or found.** -/
theorem pairValue_finds (pair : Blade × Blade)
    (hlive : (P.algebra.metric.factors? (pair.1 &&& pair.2)).isSome = true) (s : σ) :
    Yields (P.pairValue pair) s fun r s' => P.Finds pair s r.1 r.2 s' := by
  by_cases hknown : pair ∈ P.known
  · obtain ⟨f, hlookup⟩ := lookup_of_mem_known hknown
    unfold pairValue
    rw [hlookup]
    exact .pure (.remembered hknown hlookup)
  · obtain ⟨squares, hsquares⟩ := Option.isSome_iff_exists.1 hlive
    have hfind : P.pairValue pair = (do
        let f ← findPair P.algebra P.operator pair
        pure (f, { P with products := (pair, f) :: P.products }) :
          StateM σ (Factor K S × Sandwich K S)) := by
      rw [pairValue, lookup_eq_none_of_notMem hknown, findPair, hsquares]
      rfl
    rw [hfind]
    exact .bind (.pure (.emitted hknown rfl))

theorem Run.append {A : Algebra K S} {operator : Multivector K S} {front rest : List (Step K S)}
    {draft draft₁ draft' : Draft K V} {s₁ s' : σ}
    (hfront : Run A operator value front draft s draft₁ s₁)
    (hrest : Run A operator value rest draft₁ s₁ draft' s') :
    Run A operator value (front ++ rest) draft s draft' s' := by
  induction hfront with
  | nil => exact hrest
  | find hfind _ ih => exact .find hfind (ih hrest)
  | add hadd _ ih => exact .add hadd (ih hrest)

/-- Some demands have been met: the steps for them have been made, and their products are
remembered. -/
structure Meets (P : Sandwich K S) (demands : List (Demand K S)) (draft : Draft K V) (s : σ)
    (P' : Sandwich K S) (draft' : Draft K V) (s' : σ) : Prop where
  /-- What was found is remembered. -/
  grown : P.Grown (found (stepsFor P.known demands)) P'
  /-- The steps have been made, with the values that are remembered in the end. -/
  run : ∀ value, P'.Agrees value →
    Run P.algebra P.operator value (stepsFor P.known demands) draft s draft' s'

theorem Meets.nil {draft : Draft K V} : P.Meets [] draft s P draft s := ⟨.refl P, fun _ _ => .nil⟩

/-- **One demand after another.** Its product is found unless it is remembered, and used. -/
theorem Meets.cons {d : Demand K S} {rest : List (Demand K S)} {P₁ : Sandwich K S}
    {f : Factor K S} {draft draft₁ draft' : Draft K V} {s₁ s₂ s' : σ}
    (hfinds : P.Finds d.pair s f P₁ s₁)
    (huses : ∀ value, value d.pair = f →
      Run P.algebra P.operator value d.uses draft s₁ draft₁ s₂)
    (hrest : P₁.Meets rest draft₁ s₂ P' draft' s') :
    P.Meets (d :: rest) draft s P' draft' s' := by
  have hvalue : ∀ value, P'.Agrees value → value d.pair = f :=
    fun value hagrees => hrest.grown.agrees hagrees d.pair f hfinds.lookup
  cases hfinds with
  | remembered hknown =>
    constructor
    · rw [found_stepsFor_of_mem hknown]
      exact hrest.grown
    · intro value hagrees
      rw [stepsFor, if_pos hknown]
      exact (huses value (hvalue value hagrees)).append (hrest.run value hagrees)
  | emitted hunknown hfind =>
    constructor
    · rw [found_stepsFor_of_notMem hunknown]
      exact (Grown.insert hunknown f).trans hrest.grown
    · intro value hagrees
      rw [stepsFor, if_neg hunknown]
      refine .find ?_ ((huses value (hvalue value hagrees)).append (hrest.run value hagrees))
      rw [hvalue value hagrees]
      exact hfind

/-- Finding some products meets the demands for them. -/
theorem forceAll_meets {pairs : List (Blade × Blade)}
    (hlive : ∀ pair ∈ pairs, (P.algebra.metric.factors? (pair.1 &&& pair.2)).isSome = true)
    (draft : Draft K V) (s : σ) :
    Yields (P.forceAll pairs) s fun P' s' =>
      P.Meets (pairs.map (⟨·, none⟩)) draft s P' draft s' := by
  induction pairs generalizing P s with
  | nil => exact .pure .nil
  | cons pair rest ih =>
    obtain ⟨hpair, hrest⟩ := List.forall_mem_cons.1 hlive
    refine .bind (Yields.mono (pairValue_finds pair hpair s) ?_)
    intro r s₁ hfinds
    obtain ⟨f, P₁⟩ := r
    rw [← hfinds.same.1] at hrest
    refine Yields.mono (ih hrest s₁) ?_
    intro P' s' hmeets
    exact .cons hfinds (fun _ _ => .nil) hmeets

/-- Emitting buckets meets their demands. -/
theorem emitBuckets_meets {x : Multivector K S} {buckets : List Bucket}
    (hpairs : ∀ bucket ∈ buckets,
      (P.algebra.metric.factors? (bucket.low &&& bucket.high)).isSome = true)
    (hinner : ∀ bucket ∈ buckets, (P.algebra.metric.factors?
      ((bucket.low ^^^ bucket.high) &&& bucket.operand)).isSome = true)
    (draft : Draft K V) (s : σ) :
    Yields (P.emitBuckets x draft buckets) s fun r s' =>
      P.Meets (buckets.map fun bucket => ⟨(bucket.low, bucket.high), some (x, bucket)⟩) draft s r.2
        r.1 s' := by
  induction buckets generalizing P draft s with
  | nil => exact .pure .nil
  | cons bucket rest ih =>
    obtain ⟨hpair, hpairs⟩ := List.forall_mem_cons.1 hpairs
    obtain ⟨hbucket, hinner⟩ := List.forall_mem_cons.1 hinner
    obtain ⟨squares, hsquares⟩ := Option.isSome_iff_exists.1 hbucket
    unfold emitBuckets
    rw [hsquares]
    refine .bind (Yields.mono (pairValue_finds (bucket.low, bucket.high) hpair s) ?_)
    intro r s₁ hfinds
    obtain ⟨f, P₁⟩ := r
    have halgebra : P₁.algebra = P.algebra := hfinds.same.1
    rw [← halgebra] at hpairs hinner
    let c : Contribution K S := ⟨bucket.blade,
      [f, x.value bucket.operand] ++ squares ++ [.number bucket.count.natAbs], bucket.count < 0⟩
    refine .bind (Yields.mono (P := fun draft₁ s₂ =>
      (draft.add P₁.algebra.cellName c).run s₁ = (draft₁, s₂)) rfl ?_)
    intro draft₁ s₂ hadd
    refine Yields.mono (ih hpairs hinner draft₁ s₂) ?_
    intro r s' hmeets
    refine .cons hfinds (fun value hvalue => ?_) hmeets
    refine .add ?_ .nil
    rw [hvalue, contribution, hsquares, ← halgebra]
    exact hadd

/-! ### One request -/

section Requests

variable {x : Multivector K S} {options : SandwichOptions} {pair : Blade × Blade}

omit [Target σ K S V] in
/-- The pairs whose products do not vanish, with the smaller blade first, are pairs of
components. -/
theorem of_mem_ordered (h : pair ∈ P.livePairs.map ordered) :
    (pair.1 ≤ pair.2 ∧ pair.1 ∈ P.operator.blades ∧ pair.2 ∈ P.operator.blades) ∧
      (P.algebra.metric.factors? (pair.1 &&& pair.2)).isSome = true := by
  obtain ⟨⟨l, r⟩, hlive, rfl⟩ := List.mem_map.1 h
  obtain ⟨hpair, hlive⟩ := List.mem_filter.1 hlive
  obtain ⟨hl, hr⟩ := mem_pairs hpair
  rw [ordered]
  split
  · rename_i hle
    exact ⟨⟨hle, hl, hr⟩, hlive⟩
  · rename_i hlt
    refine ⟨⟨(BitVec.le_total l r).resolve_left hlt, hr, hl⟩, ?_⟩
    rw [BitVec.and_comm]
    exact hlive

omit [Target σ K S V] in
/-- Only such pairs are wanted. -/
theorem mem_ordered_of_demand {task : Task K S} {d : Demand K S} (hd : d ∈ P.demands task) :
    d.pair ∈ P.livePairs.map ordered := by
  cases task with
  | refuse => cases hd
  | force =>
    obtain ⟨pair, hpair, rfl⟩ := List.mem_map.1 hd
    exact List.mem_mergeSort.1 hpair
  | conjugate x options =>
    obtain ⟨bucket, hbucket, rfl⟩ := List.mem_map.1 hd
    obtain ⟨pair, hpair, hbucket⟩ := List.mem_flatMap.1 (List.mem_filter.1 hbucket).1
    obtain ⟨i, _, rfl⟩ := List.mem_map.1 hbucket
    exact List.mem_map.2 ⟨pair, hpair, rfl⟩

omit [Target σ K S V] in
/-- Where all products are known, none is found. -/
theorem found_steps_eq_nil (h : ∀ pair ∈ P.livePairs.map ordered, pair ∈ P.known)
    (request : Request K S) : found (P.steps request) = [] := by
  refine List.eq_nil_iff_forall_not_mem.2 fun pair hpair => ?_
  obtain ⟨hunknown, d, hd, rfl⟩ := of_mem_found hpair
  exact hunknown (h d.pair (mem_ordered_of_demand hd))

omit [Target σ K S V] in
theorem SameOperator.livePairs_eq (h : P.SameOperator P') : P'.livePairs = P.livePairs := by
  rw [livePairs, livePairs, h.1, h.2]

theorem SameOperator.conclude_eq (h : P.SameOperator P') (x : Multivector K S)
    (draft : Draft K V) :
    (P'.conclude x draft : Emission σ K (Multivector K S)) = P.conclude x draft := by
  rw [conclude, conclude, h.1, h.2]

/-- Forcing meets the demands for all products. -/
theorem force_meets (P : Sandwich K S) (draft : Draft K V) (s : σ) :
    Yields P.force s fun P' s' => P.Meets (P.demands .force) draft s P' draft s' := by
  refine forceAll_meets (fun pair hpair => ?_) draft s
  exact (of_mem_ordered (List.mem_mergeSort.1 hpair)).2

/-- Emitting the buckets that survive meets the demands for a sandwich. -/
theorem surviving_meets (P : Sandwich K S) (x : Multivector K S) (options : SandwichOptions)
    (s : σ) :
    Yields (P.emitBuckets x [] (P.surviving x options)) s fun r s' =>
      P.Meets (P.demands (.conjugate x options)) [] s r.2 r.1 s' := by
  refine emitBuckets_meets (fun bucket hbucket => ?_) (fun bucket hbucket => ?_) [] s
  · have hd : (⟨(bucket.low, bucket.high), some (x, bucket)⟩ : Demand K S) ∈
        P.demands (.conjugate x options) := List.mem_map.2 ⟨bucket, hbucket, rfl⟩
    exact (of_mem_ordered (mem_ordered_of_demand hd)).2
  · exact isSome_factors?_of_mem_surviving hbucket

/-- What is answered to a request, by its task: it is refused; or all products are found; or the
sandwich is announced, its buckets are emitted, and the result is concluded. -/
inductive Answers (P : Sandwich K S) (s : σ) : Task K S →
    (Except (AlgebraError K) (Option (Multivector K S)) × Sandwich K S) × σ → Prop
  | refuse : Answers P s .refuse ((.error .foreignOperand, P), s)
  | force {P' : Sandwich K S} {s' : σ} :
    P.Meets (P.demands .force) ([] : Draft K V) s P' [] s' →
      Answers P s .force ((.ok none, P'), s')
  | conjugate {x : Multivector K S} {options : SandwichOptions} {P' : Sandwich K S}
      {draft : Draft K V} {s' : σ} :
    P.Meets (P.demands (.conjugate x options)) [] ((P.algebra.announce "sandwich").run s).2
        P' draft s' →
      Answers P s (.conjugate x options)
        ((((P.conclude x draft).run.run s').1.map some, P'),
          ((P.conclude x draft).run.run s').2)

theorem applyWith_answers (P : Sandwich K S) (x : Multivector K S) (options : SandwichOptions)
    (s : σ) :
    P.Answers s ((Request.applyWith x options).task P.algebra) ((P.applyWith x options).run s) := by
  rw [Request.task, Request.isForeign, applyWith]
  cases P.algebra.owns x with
  | false => exact .refuse
  | true =>
    cases options.dummy with
    | true => exact .force (force_meets P [] s)
    | false =>
      have hmeets := surviving_meets P x options ((P.algebra.announce "sandwich").run s).2
      have h := Answers.conjugate hmeets
      rw [← hmeets.grown.same.conclude_eq x] at h
      exact h

/-- The sandwich of an operand is the one without options. -/
theorem serve_apply (P : Sandwich K S) (x : Multivector K S) (s : σ) :
    (P.serve (.apply x)).run s = (P.applyWith x {}).run s := by
  have hserve : (P.serve (.apply x)).run s =
      let r := (P.applyWith x {}).run s
      (((r.1.1.map (·.getD r.1.2.algebra.zero)).map some, r.1.2), r.2) := rfl
  rw [hserve]
  cases howns : P.algebra.owns x with
  | false =>
    rw [applyWith, howns]
    rfl
  | true =>
    have htask : (Request.applyWith x {}).task P.algebra = .conjugate x {} := by
      simp [Request.task, Request.isForeign, howns]
    have hanswer := applyWith_answers P x {} s
    rw [htask] at hanswer
    generalize (P.applyWith x {}).run s = r at hanswer ⊢
    cases hanswer with
    | @conjugate _ _ P' draft s' _ => cases ((P.conclude x draft).run.run s').1 <;> rfl

/-- Every request is answered by its task. -/
theorem serve_answers (P : Sandwich K S) (request : Request K S) (s : σ) :
    P.Answers s (request.task P.algebra) ((P.serve request).run s) := by
  cases request with
  | apply x =>
    rw [serve_apply]
    exact applyWith_answers P x {} s
  | applyWith x options => exact applyWith_answers P x options s
  | force => exact .force (force_meets P [] s)

/-- What serving a request consists of, where the products of pairs have given values: nothing, if
it is refused; finding products, if these are all that is wanted; and else a remark, the steps for
the buckets, and the end of the result. -/
def Performs (P : Sandwich K S) (value : Blade × Blade → Factor K S) (request : Request K S)
    (s : σ) : Prop :=
  match request.task P.algebra with
  | .refuse => (P.serve request).run s = ((.error .foreignOperand, P), s)
  | .force => ∃ P' s',
      Run P.algebra P.operator value (P.steps request) ([] : Draft K V) s [] s' ∧
        (P.serve request).run s = ((.ok none, P'), s')
  | .conjugate x _ => ∃ P' draft s',
      Run P.algebra P.operator value (P.steps request) []
          ((P.algebra.announce "sandwich").run s).2 draft s' ∧
        (P.serve request).run s =
          ((((P.conclude x draft).run.run s').1.map some, P'),
            ((P.conclude x draft).run.run s').2)

/-- **What is found for a request is remembered, and serving it consists of its steps.** -/
theorem serve_performs (P : Sandwich K S) (request : Request K S) (s : σ) :
    Yields (P.serve request) s fun r _ => P.Grown (found (P.steps request)) r.2 ∧
      ∀ value, r.2.Agrees value → P.Performs value request s := by
  have hanswer := serve_answers P request s
  unfold Yields Performs steps
  generalize request.task P.algebra = task at hanswer ⊢
  generalize (P.serve request).run s = r at hanswer ⊢
  cases hanswer with
  | refuse => exact ⟨.refl P, fun _ _ => rfl⟩
  | force hmeets =>
    exact ⟨hmeets.grown, fun value hvalue => ⟨_, _, hmeets.run value hvalue, rfl⟩⟩
  | conjugate hmeets =>
    exact ⟨hmeets.grown, fun value hvalue => ⟨_, _, _, hmeets.run value hvalue, rfl⟩⟩

end Requests

/-! ### Requests one after another -/

/-- A request to a prepared operator. -/
structure Visit (σ K S : Type) where
  /-- The operator, with the products that it remembers. -/
  prepared : Sandwich K S
  /-- The request. -/
  request : Request K S
  /-- The state of the target. -/
  start : σ

namespace Visit

/-- The steps in serving the request. -/
def steps (v : Visit σ K S) : List (Step K S) := v.prepared.steps v.request

/-- The pairs whose products are found for the request. -/
def found (v : Visit σ K S) : List (Blade × Blade) := Sandwich.found v.steps

/-- Whether the request is for products of pairs only, and is not refused. -/
def forces (v : Visit σ K S) : Bool :=
  v.request.wantsPairs && !v.request.isForeign v.prepared.algebra

/-- What serving the request consists of, where the products of pairs have given values. -/
def Performs (v : Visit σ K S) (value : Blade × Blade → Factor K S) : Prop :=
  v.prepared.Performs value v.request v.start

end Visit

/-- Requests one after another to one operator, each with the state that the target is in by then:
other things may be emitted between them. -/
def visits (P : Sandwich K S) : List (Request K S × σ) → List (Visit σ K S)
  | [] => []
  | (request, s) :: rest => ⟨P, request, s⟩ :: visits ((P.serve request).run s).1.2 rest

/-- The prepared operator after some requests. -/
def after (P : Sandwich K S) : List (Request K S × σ) → Sandwich K S
  | [] => P
  | (request, s) :: rest => after ((P.serve request).run s).1.2 rest

/-- Nothing is done twice in some visits to an operator. -/
structure FindsOnce (A : Algebra K S) (operator : Multivector K S)
    (visits : List (Visit σ K S)) : Prop where
  /-- All visits are to the operator. -/
  same : ∀ v ∈ visits, v.prepared.algebra = A ∧ v.prepared.operator = operator
  /-- No pair has its product found twice. -/
  nodup : (visits.flatMap Visit.found).Nodup
  /-- The pairs are pairs of components, with the smaller blade first. -/
  ordered : ∀ pair ∈ visits.flatMap Visit.found,
    pair.1 ≤ pair.2 ∧ pair.1 ∈ operator.blades ∧ pair.2 ∈ operator.blades
  /-- Once all products were wanted, no further one is found. -/
  complete : visits.Pairwise fun earlier later => earlier.forces = true → later.found = []
  /-- Where only products are wanted, there are no other steps. -/
  only : ∀ v ∈ visits, v.request.wantsPairs = true → ∀ step ∈ v.steps, ∃ pair, step = .find pair
  /-- There is one value for each pair, with which every request is served by its steps. -/
  value : ∃ value, ∀ v ∈ visits, v.Performs value

section Visits

variable {calls : List (Request K S × σ)} {v : Visit σ K S}

/-- **What was found is remembered**, and nothing else is added. -/
theorem visits_grown (P : Sandwich K S) (calls : List (Request K S × σ)) :
    P.Grown ((visits P calls).flatMap Visit.found) (after P calls) := by
  induction calls generalizing P with
  | nil => exact .refl P
  | cons call rest ih =>
    obtain ⟨request, s⟩ := call
    exact (serve_performs P request s).1.trans (ih _)

/-- **Every request is served by its steps**, with the products that are remembered in the end. -/
theorem visits_performs (P : Sandwich K S) (calls : List (Request K S × σ))
    (hvalue : (after P calls).Agrees value) : ∀ v ∈ visits P calls, v.Performs value := by
  induction calls generalizing P with
  | nil => exact fun v hv => nomatch hv
  | cons call rest ih =>
    obtain ⟨request, s⟩ := call
    refine List.forall_mem_cons.2 ⟨?_, ih _ hvalue⟩
    exact (serve_performs P request s).2 value ((visits_grown _ rest).agrees hvalue)

/-- **No product is found twice**, and none that was remembered before. -/
theorem nodup_visits (P : Sandwich K S) (calls : List (Request K S × σ)) (hknown : P.known.Nodup) :
    (((visits P calls).flatMap Visit.found).reverse ++ P.known).Nodup := by
  induction calls generalizing P with
  | nil => exact hknown
  | cons call rest ih =>
    obtain ⟨request, s⟩ := call
    have hgrown := (serve_performs P request s).1
    have hnext := ih ((P.serve request).run s).1.2 (by
      rw [hgrown.known_eq]
      exact nodup_found_stepsFor hknown _)
    rw [hgrown.known_eq, ← List.append_assoc, ← List.reverse_append] at hnext
    exact hnext

/-- Every visit is to the same operator, which remembers at least what it did at first. -/
theorem grown_of_mem_visits (hv : v ∈ visits P calls) :
    P.SameOperator v.prepared ∧ ∀ pair ∈ P.known, pair ∈ v.prepared.known := by
  induction calls generalizing P with
  | nil => cases hv
  | cons call rest ih =>
    obtain ⟨request, s⟩ := call
    rcases List.mem_cons.1 hv with rfl | hrest
    · exact ⟨⟨rfl, rfl⟩, fun pair hpair => hpair⟩
    · have hgrown := (serve_performs P request s).1
      obtain ⟨hsame, hknown⟩ := ih hrest
      refine ⟨hgrown.same.trans hsame, fun pair hpair => hknown pair ?_⟩
      rw [hgrown.known_eq]
      exact List.mem_append_right _ hpair

omit [Target σ K S V] in
/-- Whoever wants all products finds what is not remembered. -/
theorem mem_known_or_found_of_forces (hforces : v.forces = true) {pair : Blade × Blade}
    (hpair : pair ∈ v.prepared.livePairs.map ordered) :
    pair ∈ v.found.reverse ++ v.prepared.known := by
  obtain ⟨hwants, hmine⟩ := Bool.and_eq_true_iff.1 hforces
  have htask : v.request.task v.prepared.algebra = .force := by
    rw [Request.task_of_wantsPairs hwants, if_neg (by simpa using hmine)]
  have hdemand : (⟨pair, none⟩ : Demand K S) ∈ v.prepared.demands .force :=
    List.mem_map_of_mem (List.mem_mergeSort.2 hpair)
  rw [Visit.found, Visit.steps, Sandwich.steps, htask]
  exact mem_known_or_found hdemand

/-- **After all products were wanted, no further one is found.** -/
theorem pairwise_visits (P : Sandwich K S) (calls : List (Request K S × σ)) :
    (visits P calls).Pairwise fun earlier later => earlier.forces = true → later.found = [] := by
  induction calls generalizing P with
  | nil => exact .nil
  | cons call rest ih =>
    obtain ⟨request, s⟩ := call
    refine .cons (fun later hlater hforces => ?_) (ih _)
    have hgrown := (serve_performs P request s).1
    obtain ⟨hsame, hknown⟩ := grown_of_mem_visits hlater
    refine found_steps_eq_nil (fun pair hpair => hknown pair ?_) later.request
    rw [(hgrown.same.trans hsame).livePairs_eq] at hpair
    rw [hgrown.known_eq]
    exact mem_known_or_found_of_forces hforces hpair

omit [Target σ K S V] in
/-- Where only products are wanted, there are no steps but finding them. -/
theorem find_of_mem_steps {request : Request K S} (hwants : request.wantsPairs = true)
    {step : Step K S} (hstep : step ∈ P.steps request) : ∃ pair, step = .find pair := by
  refine find_of_mem_stepsFor (fun d hd => ?_) hstep
  rw [Request.task_of_wantsPairs hwants] at hd
  split at hd
  · cases hd
  · obtain ⟨pair, _, rfl⟩ := List.mem_map.1 hd
    rfl

/-- **The product of a pair is found once.** In any sequence of requests to a prepared operator, on
every target, from every state, and whatever the operands, an accumulator is opened for a pair of
components at most once, and none is after all products have been wanted. A request for products
only has no other effect, and all requests are served with the same products. -/
theorem pairs_found_once (A : Algebra K S) (operator : Multivector K S)
    (calls : List (Request K S × σ)) :
    FindsOnce A operator (visits { algebra := A, operator } calls) where
  same v hv := (grown_of_mem_visits hv).1
  nodup := by
    have h := nodup_visits ({ algebra := A, operator } : Sandwich K S) calls .nil
    rw [known, List.map_nil, List.append_nil] at h
    exact List.nodup_reverse.1 h
  ordered pair hpair := by
    obtain ⟨v, hv, hfound⟩ := List.mem_flatMap.1 hpair
    obtain ⟨-, d, hd, rfl⟩ := of_mem_found hfound
    have hoperator : v.prepared.operator = operator := (grown_of_mem_visits hv).1.2
    rw [← hoperator]
    exact (of_mem_ordered (mem_ordered_of_demand hd)).1
  complete := pairwise_visits _ calls
  only v _ hwants step hstep := find_of_mem_steps hwants hstep
  value := by
    let P' := after ({ algebra := A, operator } : Sandwich K S) calls
    refine ⟨fun pair => (P'.products.lookup pair).getD (.number 0), visits_performs _ calls ?_⟩
    intro pair f hf
    show (P'.products.lookup pair).getD (.number 0) = f
    rw [hf]
    rfl

end Visits

/-- A line whose vector squares to one. -/
def unitLine : Algebra ℚ String where
  id := 0
  metric := [.number 1]
  names := #["1", "e1"]
  dimension_le := by decide
  size_names := by decide

/-- A request for products only is refused where its operand belongs to another algebra, so a
product is found afterwards. -/
theorem refused_finds_nothing :
    let a : Multivector ℚ String := { owner := 0, components := [(0, .symbol "a")] }
    let foreign : Multivector ℚ String := { owner := 1, components := [] }
    ¬ (visits { algebra := unitLine, operator := a }
        [(.applyWith foreign { dummy := true }, ({} : Journal ℚ)), (.apply a, {})]).Pairwise
      fun earlier later => earlier.request.wantsPairs = true → later.found = [] := by
  intro a foreign hpairwise
  let P : Sandwich ℚ String := { algebra := unitLine, operator := a }
  have hnone : found (P.steps (.apply a)) = [] :=
    (List.pairwise_cons.1 hpairwise).1 ⟨P, .apply a, {}⟩ (List.mem_singleton.2 rfl) rfl
  have hlive : (unitLine.metric.factors? 0).isSome = true := by
    rw [Metric.factors?, Blade.positions_zero]
    rfl
  have hbucket : bucketOf 0 0 0 ∈ P.surviving a {} := by
    refine List.mem_filter.2 ⟨mem_buckets_iff.2 ⟨0, 0, 0, ?_, rfl⟩, ?_⟩
    · exact ⟨List.mem_singleton.2 rfl, List.mem_singleton.2 rfl, List.mem_singleton.2 rfl, hlive,
        hlive⟩
    · show decide (count 0 0 0 ≠ 0) && true
      rcases count_self 0 0 with h | h <;> rw [h] <;> rfl
  have hdemand : (⟨(0, 0), some (a, bucketOf 0 0 0)⟩ : Demand ℚ String) ∈
      P.demands (.conjugate a {}) := List.mem_map.2 ⟨bucketOf 0 0 0, hbucket, rfl⟩
  have hwanted : (0, 0) ∈ (found (P.steps (.apply a))).reverse ++ P.known :=
    mem_known_or_found hdemand
  rw [hnone] at hwanted
  cases hwanted

end Sandwich

end Clifford
