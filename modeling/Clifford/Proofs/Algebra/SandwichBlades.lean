import Clifford.Proofs.Algebra.Blades
import Clifford.Proofs.Algebra.Cancellation
import Clifford.Proofs.ProductTree.Merging

/-!
# The blades of sandwiches and chains

A prepared operator adds a component for each bucket that survives, in the order of the buckets. A
chain adds one for each leaf of its tree, in the order in which the leaves are visited. So the
blades are known before anything is emitted, and the products that an operator remembers do not
matter for them.

## Main definitions

- `ProductTree.blades` — the blades of the leaves of a tree, in the order of their visits

## Main results

- `Sandwich.applyWith_lists`, `Sandwich.force_same` — prepared operators
- `Algebra.emitTree_lists`, `Algebra.sandwichChain_lists` — chains
-/

namespace Clifford

variable {σ K S V : Type}

/-! ### Trees -/

/-- The blades of the leaves of branches, in the order of their visits. -/
def Branches.blades : Branches K S → List Blade
  | nil => []
  | cons _ leaves below beside =>
    leaves.toList.map Leaf.blade ++ below.blades ++ beside.blades

/-- The blades of the leaves of a tree, in the order of their visits. -/
def ProductTree.blades (tree : ProductTree K S) : List Blade :=
  tree.leaves.toList.map Leaf.blade ++ tree.branches.blades

section Trees

variable {b : Blade} {leaf : Leaf K}

theorem Branches.blades_path (leaf : Leaf K) (symbol : S) (rest : List S)
    (beside : Branches K S) :
    (path leaf symbol rest beside).blades = leaf.blade :: beside.blades := by
  induction rest generalizing symbol beside with
  | nil => simp [path, blades]
  | cons next rest ih => simp [path, blades, ih]

/-- An insertion adds no other blade than that of the leaf. -/
theorem Branches.mem_blades_insert [Ord S] {symbol : S} {rest : List S} {branches : Branches K S}
    (h : b ∈ (insert leaf symbol rest branches).blades) :
    b = leaf.blade ∨ b ∈ branches.blades := by
  induction branches generalizing symbol rest with
  | nil =>
    rw [insert.eq_def, blades_path] at h
    exact List.mem_cons.1 h
  | cons other leaves below beside ihbelow ihbeside =>
    rw [insert.eq_def] at h
    dsimp only at h
    split at h
    · rw [blades_path] at h
      exact List.mem_cons.1 h
    · simp only [blades, List.mem_append] at h ⊢
      obtain h | h := h
      · exact .inr (.inl h)
      · exact (ihbeside h).imp_right .inr
    · cases rest with
      | nil =>
        simp only [blades, Array.toList_push, List.map_append, List.mem_append, List.map_cons,
          List.map_nil, List.mem_singleton] at h ⊢
        tauto
      | cons next rest =>
        simp only [blades, List.mem_append] at h ⊢
        have hbelow := @ihbelow next rest
        tauto

variable [Number K]

theorem Branches.mem_blades_optimize {branches : Branches K S} (h : b ∈ branches.optimize.blades) :
    b ∈ branches.blades := by
  induction branches with
  | nil => exact h
  | cons symbol leaves below beside ihbelow ihbeside =>
    rw [optimize] at h
    have hleaves : b ∈ (Leaf.merge leaves).toList.map Leaf.blade →
        b ∈ leaves.toList.map Leaf.blade := Leaf.mem_blades_merge
    split at h <;> simp only [blades, List.mem_append] at h ⊢ <;> tauto

namespace ProductTree

variable {tree : ProductTree K S}

theorem mem_blades_optimize (h : b ∈ tree.optimize.blades) : b ∈ tree.blades := by
  rw [blades, List.mem_append] at h ⊢
  exact h.imp Leaf.mem_blades_merge Branches.mem_blades_optimize

theorem mem_blades_add [Ord S] {blade : Blade} {term : Term K S} {flips : Nat}
    (h : b ∈ (tree.add blade term flips).blades) : b = blade ∨ b ∈ tree.blades := by
  unfold add at h
  split at h
  · exact .inr h
  · unfold insert at h
    rw [blades, List.mem_append]
    split at h
    · rw [blades, List.mem_append, Array.toList_push, List.map_append, List.mem_append] at h
      simp only [List.map_cons, List.map_nil, List.mem_singleton] at h
      tauto
    · rw [blades, List.mem_append] at h
      obtain h | h := h
      · exact .inr (.inl h)
      · exact (Branches.mem_blades_insert h).imp_right .inr

end ProductTree

end Trees

/-! ### Prepared operators -/

namespace Sandwich

variable [Number K] {P : Sandwich K S} {x : Multivector K S} {options : SandwichOptions}
  {bs : List Blade} {s : σ}

/-- What the metric leaves of a surviving bucket does not vanish. -/
theorem isSome_factors?_of_mem_surviving {bucket : Bucket}
    (h : bucket ∈ P.surviving x options) :
    (P.algebra.metric.factors? ((bucket.low ^^^ bucket.high) &&& bucket.operand)).isSome := by
  obtain ⟨l, r, i, hlive, rfl⟩ := mem_buckets_iff.1 (mem_surviving h).1
  obtain hordered | hordered := ordered_cases l r <;> rw [bucketOf, hordered]
  · exact hlive.inner
  · exact hlive.swap.inner

variable [Target σ K S V]

/-- Remembering a product leaves the operator alone. -/
theorem pairValue_same (pair : Blade × Blade) :
    Yields (P.pairValue pair) s fun r _ => P.SameOperator r.2 := by
  unfold pairValue
  split
  · exact .pure ⟨rfl, rfl⟩
  split
  · exact .pure ⟨rfl, rfl⟩
  · exact .bind (.pure ⟨rfl, rfl⟩)

omit [Number K] [Target σ K S V] in
theorem SameOperator.trans {P₁ P₂ : Sandwich K S} (h : P.SameOperator P₁)
    (h' : P₁.SameOperator P₂) : P.SameOperator P₂ :=
  ⟨h'.1.trans h.1, h'.2.trans h.2⟩

/-- **Finding all products leaves the operator alone.** -/
theorem force_same : Yields P.force s fun P' _ => P.SameOperator P' := by
  have hall : ∀ (pairs : List (Blade × Blade)) (P : Sandwich K S) (s : σ),
      Yields (P.forceAll pairs) s fun P' _ => P.SameOperator P' := by
    intro pairs
    induction pairs with
    | nil => exact fun P s => .pure ⟨rfl, rfl⟩
    | cons pair rest ih =>
      intro P s
      refine .bind (Yields.mono (pairValue_same pair) fun r s' hsame => ?_)
      exact Yields.mono (ih r.2 s') fun P' _ h => hsame.trans h
  exact hall _ P s

/-- Emitted buckets touch their blades one after the other. -/
theorem emitBuckets_lists {draft : Draft K V} (hdraft : draft.blades = bs.eraseDups)
    {buckets : List Bucket} (h : ∀ bucket ∈ buckets,
      (P.algebra.metric.factors? ((bucket.low ^^^ bucket.high) &&& bucket.operand)).isSome) :
    Yields (P.emitBuckets x draft buckets) s fun r _ => P.SameOperator r.2 ∧
      r.1.blades = (bs ++ buckets.map Bucket.blade).eraseDups := by
  induction buckets generalizing P draft bs s with
  | nil =>
    refine .pure ⟨⟨rfl, rfl⟩, ?_⟩
    simpa using hdraft
  | cons bucket rest ih =>
    obtain ⟨hbucket, hrest⟩ := List.forall_mem_cons.1 h
    unfold emitBuckets
    split
    · rename_i hnone
      rw [hnone] at hbucket
      cases hbucket
    · rename_i squares hsquares
      refine .bind (Yields.mono (pairValue_same _) fun r s' hsame => ?_)
      obtain ⟨product, P'⟩ := r
      have hadded := Draft.blades_add P'.algebra.cellName
        { blade := bucket.blade
          term := [product, x.value bucket.operand] ++ squares ++ [.number bucket.count.natAbs]
          negate := bucket.count < 0 } draft s'
      rw [hdraft, Draft.touch_eraseDups] at hadded
      refine .bind (Yields.mono
        (P := fun draft' _ => Draft.blades draft' = (bs ++ [bucket.blade]).eraseDups) hadded ?_)
      intro draft' s'' hdraft'
      refine Yields.mono (ih (P := P') hdraft' ?_) fun r' _ hr' => ?_
      · rw [hsame.1]
        exact hrest
      · obtain ⟨hsame', hblades⟩ := hr'
        exact ⟨hsame.trans hsame', by simpa using hblades⟩

theorem conclude_lists {draft : Draft K V} (hdraft : draft.blades = bs.eraseDups) :
    (P.conclude x draft : Emission σ K (Multivector K S)).Returns (P.algebra.Lists bs) := by
  refine .bind (Algebra.finish_lists hdraft) fun r hr => ?_
  split
  · exact Algebra.markUnit_lists hr
  · exact .pure hr

/-- **The sandwich of an operand lists the blades of the buckets that survive.** It has a result
only if the operand belongs to the algebra of the operator. -/
theorem applyWith_lists (P : Sandwich K S) (x : Multivector K S) (options : SandwichOptions) :
    Yields (P.applyWith x options) s fun r _ => P.SameOperator r.2 ∧
      ∀ m?, r.1 = .ok m? → x.owner = P.algebra.id ∧ ∀ m, m? = some m →
        P.algebra.Lists ((P.surviving x options).map Bucket.blade) m := by
  unfold applyWith
  split
  · refine .pure ⟨⟨rfl, rfl⟩, fun m? hm => ?_⟩
    cases hm
  rename_i howns
  have howner : x.owner = P.algebra.id := by simpa [Algebra.owns] using howns
  split
  · refine .bind (Yields.mono force_same fun P' _ hsame => .pure ⟨hsame, fun m? hm => ?_⟩)
    cases hm
    refine ⟨howner, fun m hm => ?_⟩
    cases hm
  · refine .bind (Yields.mono (P := fun _ _ => True) trivial fun _ s₁ _ => ?_)
    have hempty : Draft.blades ([] : Draft K V) = ([] : List Blade).eraseDups := by
      simp [Draft.blades]
    refine .bind (Yields.mono (emitBuckets_lists hempty fun bucket h =>
      isSome_factors?_of_mem_surviving h) fun r s' hr => ?_)
    obtain ⟨draft, P'⟩ := r
    obtain ⟨hsame, hblades⟩ := hr
    refine .bind (.pure ⟨hsame, fun m? hm => ?_⟩)
    have hlists := conclude_lists (x := x) (P := P') hblades s' (σ := σ)
    rw [hsame.1, List.nil_append] at hlists
    cases hresult : ((P'.conclude x draft).run.run s').1 with
    | error e =>
      simp only [hresult] at hm
      cases hm
    | ok m' =>
      simp only [hresult] at hm
      obtain rfl := Except.ok.inj hm
      exact ⟨howner, fun m hm => Option.some.inj hm ▸ hlists m' hresult⟩

theorem apply_lists (P : Sandwich K S) (x : Multivector K S) :
    Yields (P.apply x) s fun r _ => ∀ m, r.1 = .ok m → x.owner = P.algebra.id ∧
      (P.algebra.Lists ((P.surviving x {}).map Bucket.blade) m ∨ P.algebra.Lists [] m) := by
  refine .bind (Yields.mono (applyWith_lists P x {}) fun r s' hr => .pure ?_)
  obtain ⟨⟨halgebra, -⟩, hresult⟩ := hr
  obtain ⟨_ | _ | m, P'⟩ := r
  · exact nofun
  · intro m hm
    obtain rfl := Except.ok.inj hm
    exact ⟨(hresult none rfl).1, .inr (halgebra ▸ .zero)⟩
  · intro m' hm
    obtain rfl := Except.ok.inj hm
    obtain ⟨howner, hlists⟩ := hresult (some m) rfl
    exact ⟨howner, .inl (hlists m rfl)⟩

theorem applied_lists (P : Sandwich K S) (x : Multivector K S) (options : SandwichOptions) :
    (P.applied x options : Emission σ K (Option (Multivector K S))).Returns fun m? =>
      x.owner = P.algebra.id ∧ ∀ m, m? = some m →
        P.algebra.Lists ((P.surviving x options).map Bucket.blade) m := by
  refine .bind (.lift fun s => applyWith_lists P x options) fun r hr => ?_
  obtain ⟨result, P'⟩ := r
  cases result with
  | error e => exact .throw
  | ok m? => exact .pure (hr.2 m? rfl)

end Sandwich

/-! ### Chains and reflections -/

namespace Algebra

variable [Number K] {A : Algebra K S} {m a x : Multivector K S} {ms : List (Multivector K S)}
  {bs : List Blade} {s : σ}

section Trees

variable [Target σ K S V] {draft : Draft K V}

theorem emitLeaves_lists (hdraft : draft.blades = bs.eraseDups) (running : Factor K S)
    (leaves : List (Leaf K)) :
    Yields ((leaves.forM (A.emitLeaf running)).run draft) s fun r _ =>
      r.2.blades = (bs ++ leaves.map Leaf.blade).eraseDups := by
  induction leaves generalizing draft bs s with
  | nil =>
    refine .pure ?_
    simpa using hdraft
  | cons leaf rest ih =>
    have hadded := Draft.blades_add A.cellName
      { blade := leaf.blade, term := [.number leaf.coefficient, running] } draft s
    rw [hdraft, Draft.touch_eraseDups] at hadded
    change Yields ((do A.emitLeaf running leaf; rest.forM (A.emitLeaf running)).run draft) s _
    refine Yields.run_bind (Yields.mono
      (P := fun (r : Unit × Draft K V) _ => r.2.blades = (bs ++ [leaf.blade]).eraseDups) hadded ?_)
    intro r s' hr
    refine Yields.mono (ih hr) fun r' _ hr' => ?_
    simpa using hr'

/-- Visiting branches touches the blades of their leaves. -/
theorem traverse_lists (hdraft : draft.blades = bs.eraseDups) (running : Factor K S)
    (branches : Branches K S) :
    Yields ((branches.traverse extendPath A.emitLeaf running).run draft) s fun r _ =>
      r.2.blades = (bs ++ branches.blades).eraseDups := by
  induction branches generalizing draft bs running s with
  | nil =>
    refine .pure ?_
    simpa [Branches.blades] using hdraft
  | cons symbol leaves below beside ihbelow ihbeside =>
    rw [Branches.traverse]
    refine Yields.run_bind (Yields.mono
      (P := fun (r : Factor K S × Draft K V) _ => r.2.blades = bs.eraseDups) hdraft ?_)
    intro r₁ s₁ h₁
    refine Yields.run_bind (Yields.mono (emitLeaves_lists h₁ r₁.1 leaves.toList) ?_)
    intro r₂ s₂ h₂
    refine Yields.run_bind (Yields.mono (ihbelow h₂ r₁.1) ?_)
    intro r₃ s₃ h₃
    refine Yields.mono (ihbeside h₃ running) fun r₄ _ h₄ => ?_
    simpa [Branches.blades] using h₄

/-- **The multivector of a tree lists the blades of its leaves.** -/
theorem emitTree_lists (tree : ProductTree K S) :
    (A.emitTree tree : Emission σ K (Multivector K S)).Returns (A.Lists tree.blades) := by
  have htraverse : ∀ s : σ, Yields
      ((tree.traverse extendPath A.emitLeaf (.number 1)).run ([] : Draft K V)) s fun r _ =>
        r.2.blades = tree.blades.eraseDups := by
    intro s
    have hempty : Draft.blades ([] : Draft K V) = ([] : List Blade).eraseDups := by
      simp [Draft.blades]
    rw [ProductTree.traverse]
    refine Yields.run_bind (Yields.mono (emitLeaves_lists hempty _ tree.leaves.toList) ?_)
    intro r₁ s₁ h₁
    refine Yields.mono (traverse_lists h₁ _ tree.branches) fun r₂ _ h₂ => ?_
    simpa [ProductTree.blades] using h₂
  exact .bind (.lift htraverse) fun r hr => finish_lists hr

/-- The blades that a chain adds components for: those of the leaves of its tree. -/
def chainBlades [Ord S] (A : Algebra K S) (ms : List (Multivector K S)) (x : Multivector K S) :
    List Blade :=
  (A.expand (Stage.ofChain ms x) 0 0 [] {}).optimize.blades

theorem sandwichChain_lists [Ord S] :
    (A.sandwichChain ms x : Emission σ K (Multivector K S)).Returns
      (A.Lists (A.chainBlades ms x)) := by
  refine .after fun _ => .after fun _ => .after fun _ => .bind (emitTree_lists _) fun r hr => ?_
  split
  · exact markUnit_lists hr
  · exact .pure hr

theorem reverse_lists : (A.reverse m : Emission σ K (Multivector K S)).Returns (A.Lists m.blades) :=
  .after fun _ => resign_lists _

theorem sandwichProduct_lists (ha : a.blades.Nodup) (hx : x.blades.Nodup) :
    (A.sandwichProduct a x : Emission σ K (Multivector K S)).Returns
      (A.Lists (A.productOfAll .geometric [a.blades, x.blades, a.blades])) := by
  refine .bind (reverse_lists (σ := σ)) fun reversed hreversed => ?_
  have hblades : reversed.blades = a.blades :=
    hreversed.blades_eq.trans (eraseDups_of_nodup ha)
  have hnodup : ∀ m ∈ [a, x, reversed], m.blades.Nodup := by
    simp [ha, hx, hblades]
  have hlists := mulAll_lists (σ := σ) (V := V) (A := A) .geometric hnodup
  simpa [hblades] using hlists

/-- A reflection lists the blades of the sandwich, unless the factor comes to a literal zero. -/
theorem reflect_lists :
    (A.reflect a x : Emission σ K (Multivector K S)).Returns fun r =>
      a.owner = A.id ∧ x.owner = A.id ∧
        (A.Lists ((Sandwich.surviving { algebra := A, operator := a } x {}).map Bucket.blade) r ∨
          A.Lists [] r) := by
  refine .after fun square => ?_
  by_cases hzero : square.isZero = true
  · rw [if_pos hzero]
    exact .throw_bind
  rw [if_neg hzero]
  refine .bind (P := fun P => a.owner = A.id ∧ P = { algebra := A, operator := a })
    (.bind check_returns fun _ howner => .pure ⟨howner, rfl⟩) fun P hP => ?_
  obtain ⟨ha, rfl⟩ := hP
  refine .bind (.lift fun s => Sandwich.apply_lists _ x) fun r hr => ?_
  obtain ⟨_ | conjugated, P'⟩ := r
  · exact .throw_bind
  refine .bind (P := fun r => r = conjugated) (.pure rfl) fun r hr' => ?_
  rw [hr']
  refine .after fun factor => .bind (scale_lists factor) fun reflected hreflected => .pure ?_
  obtain ⟨hx, hconjugated⟩ := hr conjugated rfl
  refine ⟨ha, hx, ?_⟩
  by_cases hfactor : factor.isZero = true
  · rw [if_pos hfactor] at hreflected
    exact .inr (hreflected.withKnownUnit _)
  · rw [if_neg hfactor] at hreflected
    obtain h | h := hconjugated
    · exact .inl ((hreflected.of_lists h).withKnownUnit _)
    · exact .inr ((hreflected.of_lists h).withKnownUnit _)

end Trees

end Algebra

end Clifford
