import Clifford.Proofs.Algebra.Membership
import Clifford.Proofs.ProductTree.Value

/-!
# Sandwiches and chains stay in their algebra

A prepared operator remembers the products of pairs, so a sandwich is more than its result: what it
leaves behind has values as well, also where it fails. A chain is collected in a tree first, and
only symbols with values come into the tree.

## Main definitions

- `Sandwich.Proper` — a prepared operator of any algebra, all of whose factors have values

## Main results

- `Sandwich.pairValue_steady`, `Sandwich.emitBuckets_steady` — products are remembered
- `Sandwich.applyWith_proper`, `Sandwich.force_proper` — prepared operators stay proper
- `Algebra.emitTree_member`, `Algebra.sandwichChain_member` — chains
- `Algebra.reflect_member` — reflections
-/

namespace Clifford

variable {σ K S V : Type}

/-! ### Prepared operators -/

namespace Sandwich

/-- A prepared operator of any algebra, all of whose factors have values: those of the operator, of
the metric, and the products that it remembers. -/
structure Proper (M : Reading σ K S V) (s : σ) (P : Sandwich K S) : Prop where
  operator : M.Proper s P.operator
  metric : ∀ square ∈ P.algebra.metric, M.Known s square
  products : ∀ entry ∈ P.products, M.Known s entry.2

variable {M : Reading σ K S V} {s s' : σ} {P : Sandwich K S} {x : Multivector K S}
  {others : List V}

theorem Proper.mono (h : P.Proper M s) (hext : M.Extends s s') : P.Proper M s' where
  operator := h.operator.mono hext
  metric square hsquare := hext.known (h.metric square hsquare)
  products entry hentry := hext.known (h.products entry hentry)

variable [Number K] [Target σ K S V]

/-- The product of a pair has a value, and the operator that remembers it stays proper. -/
theorem pairValue_steady (hM : M.Steady) (h : P.Proper M s) (hopen : M.Open s others)
    (pair : Blade × Blade) :
    Yields (P.pairValue pair) s fun (value, P') s' =>
      M.Extends s s' ∧ M.Open s' others ∧ M.Known s' value ∧ P'.Proper M s' ∧
        P'.algebra = P.algebra := by
  unfold pairValue
  split
  · rename_i value hfound
    exact .pure ⟨.refl M s, hopen, h.products _ (mem_of_lookup hfound), h, rfl⟩
  split
  · exact .pure ⟨.refl M s, hopen, Reading.known_number 0, h, rfl⟩
  · rename_i squares hfactors
    have hterm : M.KnownTerm s
        (squares ++ [P.operator.value pair.1, P.operator.value pair.2]) :=
      (Reading.knownTerm_factors? h.metric hfactors).append
        (.cons (h.operator.known_value _) (.cons (h.operator.known_value _) .nil))
    refine Yields.bind (Yields.mono (Cell.sum_steady hM "pair" hopen
      (List.forall_mem_singleton.2 hterm)) ?_)
    rintro value s' ⟨hext, hopen', hvalue⟩
    have h' := h.mono hext
    exact .pure ⟨hext, hopen', hvalue,
      ⟨h'.operator, h'.metric, List.forall_mem_cons.2 ⟨hvalue, h'.products⟩⟩, rfl⟩

theorem forceAll_proper (hM : M.Steady) (hopen : M.Open s []) (h : P.Proper M s)
    (pairs : List (Blade × Blade)) :
    Yields (P.forceAll pairs) s fun P' s' => M.Advances s s' ∧ P'.Proper M s' := by
  induction pairs generalizing P s with
  | nil => exact .pure ⟨.refl hopen, h⟩
  | cons pair rest ih =>
    refine Yields.bind (Yields.mono (pairValue_steady hM h hopen pair) ?_)
    rintro ⟨value, P'⟩ s' ⟨hext, hopen', -, h', -⟩
    refine Yields.mono (ih hopen' h') ?_
    rintro P'' s'' ⟨hadv, h''⟩
    exact ⟨.trans ⟨hext, hopen'⟩ hadv, h''⟩

theorem force_proper (hM : M.Steady) (hopen : M.Open s []) (h : P.Proper M s) :
    Yields P.force s fun P' s' => M.Advances s s' ∧ P'.Proper M s' :=
  forceAll_proper hM hopen h _

/-- **Emitting buckets keeps a draft in order**, and the operator that remembers their products
proper. -/
theorem emitBuckets_steady (hM : M.Steady) (h : P.Proper M s) (hx : M.Proper s x)
    {draft : Draft K V} (hdraft : M.Drafting s draft) (buckets : List Bucket) :
    Yields (P.emitBuckets x draft buckets) s fun (draft', P') s' =>
      M.Extends s s' ∧ M.Drafting s' draft' ∧ P'.Proper M s' ∧ P'.algebra = P.algebra := by
  induction buckets generalizing P draft s with
  | nil => exact .pure ⟨.refl M s, hdraft, h, rfl⟩
  | cons bucket rest ih =>
    unfold emitBuckets
    split
    · exact ih h hx hdraft
    · rename_i squares hfactors
      refine Yields.bind (Yields.mono
        (pairValue_steady hM h hdraft.ready (bucket.low, bucket.high)) ?_)
      rintro ⟨product, P₁⟩ s₁ ⟨hext₁, hopen₁, hproduct, h₁, halgebra₁⟩
      have hx₁ := hx.mono hext₁
      have hsquares : M.KnownTerm s₁ squares :=
        hext₁.knownTerm (Reading.knownTerm_factors? h.metric hfactors)
      have hterm : M.KnownTerm s₁
          ([product, x.value bucket.operand] ++ squares ++ [.number bucket.count.natAbs]) := by
        refine .append (.append ?_ hsquares) (.cons (Reading.known_number _) .nil)
        exact .cons hproduct (.cons (hx₁.known_value bucket.operand) .nil)
      have hopen₁' : M.Open s₁ (draft.storages ++ []) := by rwa [List.append_nil]
      refine Yields.bind (Yields.mono (Draft.add_steady hM P₁.algebra.cellName hopen₁' hterm) ?_)
      rintro draft₂ s₂ ⟨hext₂, hopen₂, hblades⟩
      rw [List.append_nil] at hopen₂
      have hdraft₂ : M.Drafting s₂ draft₂ := ⟨hopen₂, hblades ▸ Draft.nodup_touch hdraft.nodup⟩
      refine Yields.mono (ih (h₁.mono hext₂) (hx₁.mono hext₂) hdraft₂) ?_
      rintro ⟨draft₃, P₃⟩ s₃ ⟨hext₃, hdraft₃, h₃, halgebra₃⟩
      exact ⟨(hext₁.trans hext₂).trans hext₃, hdraft₃, h₃, halgebra₃.trans halgebra₁⟩

/-- The result of a draft belongs to the algebra of the operator. -/
theorem conclude_member (hM : M.Steady) {draft : Draft K V} (hdraft : M.Drafting s draft) :
    M.Ends True (P.conclude x draft) s fun r s' => M.Member P.algebra s' r := by
  refine .bind (Algebra.finish_member hM hdraft) fun r s' hadv hr => ?_
  split
  · exact Algebra.markUnit_member hadv.ready hr
  · exact .pure hadv.ready hr

/-- **Applying a prepared operator keeps it proper**, and a result belongs to its algebra. -/
theorem applyWith_proper (hM : M.Steady) (hopen : M.Open s []) (h : P.Proper M s)
    (hx : M.Proper s x) (options : SandwichOptions) :
    Yields (P.applyWith x options) s fun (result, P') s' =>
      M.Advances s s' ∧ P'.Proper M s' ∧
        ∀ r, result = .ok (some r) → M.Member P.algebra s' r := by
  unfold applyWith
  split
  · exact .pure ⟨.refl hopen, h, nofun⟩
  split
  · refine Yields.bind (Yields.mono (force_proper hM hopen h) ?_)
    rintro P' s' ⟨hadv, h'⟩
    exact .pure ⟨hadv, h', nofun⟩
  · refine Yields.bind (Yields.mono (Algebra.announce_steady hM hopen "sandwich") ?_)
    rintro - s₁ hadv₁
    have hempty : M.Drafting s₁ ([] : Draft K V) := ⟨hadv₁.ready, List.nodup_nil⟩
    refine Yields.bind (Yields.mono (emitBuckets_steady hM (h.mono hadv₁.symbols)
      (hx.mono hadv₁.symbols) hempty (P.surviving x options)) ?_)
    rintro ⟨draft, P₂⟩ s₂ ⟨hext₂, hdraft, h₂, halgebra⟩
    refine Yields.bind (Yields.mono (conclude_member (P := P₂) (x := x) hM hdraft) ?_)
    rintro (e | r) s₃ ⟨hadv₃, hr⟩
    · exact .pure ⟨hadv₁.trans (.trans ⟨hext₂, hdraft.abandon hM⟩ hadv₃), h₂.mono hadv₃.symbols,
        nofun⟩
    · refine .pure ⟨hadv₁.trans (.trans ⟨hext₂, hdraft.abandon hM⟩ hadv₃),
        h₂.mono hadv₃.symbols, ?_⟩
      rintro _ ⟨⟩
      exact halgebra ▸ hr

theorem apply_proper (hM : M.Steady) (hopen : M.Open s []) (h : P.Proper M s)
    (hx : M.Proper s x) :
    Yields (P.apply x) s fun (result, P') s' =>
      M.Advances s s' ∧ P'.Proper M s' ∧ ∀ r, result = .ok r → M.Proper s' r := by
  refine Yields.bind (Yields.mono (applyWith_proper hM hopen h hx {}) ?_)
  rintro ⟨_ | _ | r, P'⟩ s' ⟨hadv, h', hresult⟩
  · exact .pure ⟨hadv, h', nofun⟩
  · exact .pure ⟨hadv, h', fun _ h => Except.ok.inj h ▸ ⟨List.nodup_nil, nofun⟩⟩
  · exact .pure ⟨hadv, h', fun _ h => Except.ok.inj h ▸ (hresult r rfl).proper⟩

end Sandwich

namespace Algebra

variable [Number K] {M : Reading σ K S V} {A : Algebra K S} {q : Nat → K} {s : σ}
  {m x : Multivector K S} {ms : List (Multivector K S)}

open Reading

theorem sandwich_proper (hA : M.Ready A s q) (hm : M.Proper s m) :
    M.Ends True (A.sandwich m) s fun P s' =>
      P.Proper M s' ∧ P = { algebra := A, operator := m } := by
  refine .after_check hA.ready fun _ => ?_
  exact .pure hA.ready ⟨⟨hm, fun _ => hA.squares.known, nofun⟩, rfl⟩

variable [Target σ K S V]

theorem reflect_member (hM : M.Steady) (hA : M.Ready A s q) (hm : M.Proper s m)
    (hx : M.Proper s x) : M.Ends True (A.reflect m x) s fun r s' => M.Member A s' r := by
  refine .bind (normSquared_known hM hA hm) fun square s₁ hadv₁ hsquare => ?_
  by_cases hzero : square.isZero = true
  · rw [if_pos hzero]
    exact .throw_bind hadv₁.ready trivial
  rw [if_neg hzero]
  refine .bind (sandwich_proper (hA.advance hadv₁) (hm.mono hadv₁.symbols)) ?_
  rintro _ s₂ hadv₂ ⟨hP, rfl⟩
  refine .gives_bind (.lift (Sandwich.apply_proper hM hadv₂.ready hP
    (hx.mono (hadv₁.trans hadv₂).symbols))) ?_
  rintro ⟨_ | conjugated, _⟩ s₃ hadv₃ ⟨-, hresult⟩
  · exact .throw_bind hadv₃.ready trivial
  refine .gives_bind (P := fun r s' => r = conjugated ∧ s₃ = s')
    (.pure ⟨.refl hadv₃.ready, rfl, rfl⟩) ?_
  rintro _ _ - ⟨rfl, rfl⟩
  have hsquare₃ := (hadv₂.trans hadv₃).symbols.known hsquare
  refine .bind (combine_known hM .div hadv₃.ready (known_number (-1)) hsquare₃) ?_
  intro factor s₄ hadv₄ hfactor
  have hA₄ := hA.advance (((hadv₁.trans hadv₂).trans hadv₃).trans hadv₄)
  have hconjugated := (hresult _ rfl).mono hadv₄.symbols
  refine .bind (scale_member hM hA₄ hfactor hconjugated) fun r s₅ hadv₅ hr => ?_
  exact .pure hadv₅.ready (hr.withKnownUnit _)

/-! ### Chains -/

section Trees

variable {draft : Draft K V} {running : Factor K S}

/-- A leaf adds a term of two known factors to a draft. -/
theorem emitLeaf_steady (hM : M.Steady) (hdraft : M.Drafting s draft)
    (hrunning : M.Known s running) (leaf : Leaf K) :
    Yields ((A.emitLeaf running leaf).run draft) s fun (_, draft') s' =>
      M.Extends s s' ∧ M.Drafting s' draft' := by
  have hterm : M.KnownTerm s [.number leaf.coefficient, running] :=
    .cons (known_number _) (.cons hrunning .nil)
  refine Yields.bind (Yields.mono (Draft.add_steady (c := { blade := leaf.blade, term := _ })
    hM A.cellName hdraft.alone hterm) ?_)
  rintro draft' s' ⟨hext, hopen', hblades⟩
  rw [List.append_nil] at hopen'
  exact .pure ⟨hext, hopen', hblades ▸ Draft.nodup_touch hdraft.nodup⟩

theorem emitLeaves_steady (hM : M.Steady) (hdraft : M.Drafting s draft)
    (hrunning : M.Known s running) (leaves : List (Leaf K)) :
    Yields ((leaves.forM (A.emitLeaf running)).run draft) s fun (_, draft') s' =>
      M.Extends s s' ∧ M.Drafting s' draft' := by
  induction leaves generalizing draft s with
  | nil => exact .pure ⟨.refl M s, hdraft⟩
  | cons leaf rest ih =>
    change Yields ((do A.emitLeaf running leaf; rest.forM (A.emitLeaf running)).run draft) s _
    refine Yields.run_bind (Yields.mono (emitLeaf_steady hM hdraft hrunning leaf) ?_)
    rintro ⟨_, draft₁⟩ s₁ ⟨hext, hdraft₁⟩
    refine Yields.mono (ih hdraft₁ (hext.known hrunning)) ?_
    rintro ⟨_, draft₂⟩ s₂ ⟨hext', hdraft₂⟩
    exact ⟨hext.trans hext', hdraft₂⟩

theorem extendPath_steady (hM : M.Steady) (hdraft : M.Drafting s draft)
    (hrunning : M.Known s running) {t : S} (ht : M.Known s (.symbol t)) :
    Yields ((extendPath (σ := σ) (V := V) running t).run draft) s fun (next, draft') s' =>
      M.Extends s s' ∧ M.Drafting s' draft' ∧ M.Known s' next := by
  refine Yields.bind (Yields.mono (Target.combine_steady hM .mul hdraft.ready hrunning ht) ?_)
  rintro next s' ⟨hext, hopen, hnext⟩
  exact .pure ⟨hext, ⟨hopen, hdraft.nodup⟩, hnext⟩

/-- **Visiting branches keeps a draft in order.** -/
theorem traverse_steady (hM : M.Steady) (hdraft : M.Drafting s draft)
    (hrunning : M.Known s running) {branches : Branches K S}
    (hbranches : branches.Forall fun t => M.Known s (.symbol t)) :
    Yields ((branches.traverse extendPath A.emitLeaf running).run draft) s
      fun (_, draft') s' => M.Extends s s' ∧ M.Drafting s' draft' := by
  induction branches generalizing running draft s with
  | nil => exact .pure ⟨.refl M s, hdraft⟩
  | cons symbol leaves below beside ihbelow ihbeside =>
    obtain ⟨hsymbol, hbelow, hbeside⟩ := hbranches
    rw [Branches.traverse]
    refine Yields.run_bind (Yields.mono (extendPath_steady hM hdraft hrunning hsymbol) ?_)
    rintro ⟨next, draft₁⟩ s₁ ⟨hext₁, hdraft₁, hnext⟩
    refine Yields.run_bind (Yields.mono (emitLeaves_steady hM hdraft₁ hnext leaves.toList) ?_)
    rintro ⟨_, draft₂⟩ s₂ ⟨hext₂, hdraft₂⟩
    have hext₁₂ := hext₁.trans hext₂
    refine Yields.run_bind (Yields.mono (ihbelow hdraft₂ (hext₂.known hnext)
      (hbelow.mono fun t ht => hext₁₂.known ht)) ?_)
    rintro ⟨_, draft₃⟩ s₃ ⟨hext₃, hdraft₃⟩
    have hext₁₃ := hext₁₂.trans hext₃
    refine Yields.mono (ihbeside hdraft₃ (hext₁₃.known hrunning)
      (hbeside.mono fun t ht => hext₁₃.known ht)) ?_
    rintro ⟨_, draft₄⟩ s₄ ⟨hext₄, hdraft₄⟩
    exact ⟨hext₁₃.trans hext₄, hdraft₄⟩

/-- The multivector of a tree belongs to the algebra. -/
theorem emitTree_member (hM : M.Steady) (hopen : M.Open s []) {tree : ProductTree K S}
    (htree : tree.Forall fun t => M.Known s (.symbol t)) :
    M.Ends True (A.emitTree tree) s fun r s' => M.Member A s' r := by
  have hempty : M.Drafting s ([] : Draft K V) := ⟨hopen, List.nodup_nil⟩
  have hone : M.Known s (.number 1) := known_number 1
  have htraverse : Yields
      ((tree.traverse extendPath A.emitLeaf (.number 1)).run ([] : Draft K V)) s
      fun r s' => M.Advances s s' ∧ M.Drafting s' r.2 := by
    rw [ProductTree.traverse]
    refine Yields.run_bind (Yields.mono (emitLeaves_steady hM hempty hone tree.leaves.toList) ?_)
    rintro ⟨_, draft₁⟩ s₁ ⟨hext₁, hdraft₁⟩
    refine Yields.mono (traverse_steady hM hdraft₁ (hext₁.known hone)
      (htree.mono fun t ht => hext₁.known ht)) ?_
    rintro ⟨_, draft₂⟩ s₂ ⟨hext₂, hdraft₂⟩
    exact ⟨⟨hext₁.trans hext₂, hdraft₂.abandon hM⟩, hdraft₂⟩
  exact .bind (.lift htraverse) fun _ _ _ => finish_member hM

end Trees

/-- **The result of a chain belongs to the algebra.** -/
theorem sandwichChain_member [Ord S] (hM : M.Steady) (hA : M.Ready A s q)
    (hms : ∀ m ∈ ms, M.Proper s m) (hx : M.Proper s x) :
    M.Ends True (A.sandwichChain ms x) s fun r s' => M.Member A s' r := by
  refine .bind (.forM_check hA.ready ms) ?_
  rintro - _ - ⟨rfl, -⟩
  refine .after_check hA.ready fun _ => ?_
  refine .bind (annotate_ends hM hA.ready "sandwich chain") fun _ s₁ hadv₁ _ => ?_
  have hstages : ∀ stage ∈ Stage.ofChain ms x, M.Proper s₁ stage.factor := by
    intro stage hstage
    refine .mono ?_ hadv₁.symbols
    rcases List.mem_append.1 hstage with h | h
    · obtain ⟨m, hm, rfl⟩ := List.mem_map.1 h
      exact hms m hm
    · rcases List.mem_cons.1 h with rfl | h
      · exact hx
      · obtain ⟨m, hm, rfl⟩ := List.mem_map.1 h
        exact hms m (List.mem_reverse.1 hm)
  have hexpanded : (A.expand (Stage.ofChain ms x) 0 0 [] {}).Forall
      fun t => M.Known s₁ (.symbol t) :=
    forall_expand (hA.advance hadv₁).squares hstages 0 0 .nil trivial
  refine .bind (emitTree_member hM hadv₁.ready (Branches.forall_optimize hexpanded)) ?_
  intro r s₂ hadv₂ hr
  split
  · exact markUnit_member hadv₂.ready hr
  · exact .pure hadv₂.ready hr

end Algebra

end Clifford
