import Clifford.Proofs.Algebra.Conjugation
import Clifford.Proofs.Algebra.Ends
import Clifford.Proofs.Algebra.Terms
import Clifford.Proofs.Target.Operators

/-!
# Chains of sandwiches

A chain is expanded into one sum of terms before anything is emitted. The terms that belong to a
prefix of the stages add up to the product of that prefix, so the whole tree stands for the product
of all stages, and this product is the nested conjugation because the geometric product is
associative.

## Main definitions

- `Values.productFrom` — a geometric product from the left
- `Stage.values` — the coefficients of a stage

## Main results

- `Algebra.values_expand` — the expansion adds the product of the remaining stages
- `Values.productFrom_chain` — the product of all stages is the nested conjugation
- `Algebra.emitTree_gives` — what is emitted for a tree has its values
- `Algebra.sandwichChain_agrees_nested` — a chain agrees with nested sandwiches
-/

namespace Clifford

open Finset

variable {σ K S V : Type}

namespace Values

variable {R : Type*} [CommRing R] (q : Nat → R)

/-- The geometric product of several coefficient functions, from the left. -/
noncomputable def productFrom (f : Values R) (gs : List (Values R)) : Values R :=
  gs.foldl (convolve (Blade.twist q)) f

theorem productFrom_cons (f g : Values R) (gs : List (Values R)) :
    productFrom q f (g :: gs) = productFrom q (convolve (Blade.twist q) f g) gs := rfl

theorem productFrom_concat (f g : Values R) (gs : List (Values R)) :
    productFrom q f (gs ++ [g]) = convolve (Blade.twist q) (productFrom q f gs) g := by
  rw [productFrom, List.foldl_append, productFrom]
  rfl

theorem productFrom_add (f f' : Values R) (gs : List (Values R)) :
    productFrom q (f + f') gs = productFrom q f gs + productFrom q f' gs := by
  induction gs generalizing f f' with
  | nil => rfl
  | cons g gs ih => rw [productFrom_cons, convolve_add_left, ih, productFrom_cons, productFrom_cons]

theorem productFrom_sum {ι : Type*} (s : Finset ι) (F : ι → Values R) (gs : List (Values R)) :
    productFrom q (∑ i ∈ s, F i) gs = ∑ i ∈ s, productFrom q (F i) gs :=
  map_sum (AddMonoidHom.mk' (fun f => productFrom q f gs)
    fun f f' => productFrom_add q f f' gs) F s

theorem productFrom_zero (gs : List (Values R)) : productFrom q 0 gs = 0 := by
  have hsum := productFrom_sum q (∅ : Finset Unit) (fun _ => 0) gs
  rwa [sum_empty, sum_empty] at hsum

theorem productFrom_eq (f : Values R) (gs : List (Values R)) :
    productFrom q f gs = convolve (Blade.twist q) f (productFrom q (scalar 1) gs) := by
  induction gs generalizing f with
  | nil => exact (geometric_scalar_one q f).symm
  | cons g gs ih =>
    rw [productFrom_cons, ih, productFrom_cons, scalar_one_geometric, geometric_assoc, ← ih g]

/-- **The product of all stages of a chain is the nested conjugation.** -/
theorem productFrom_chain (fs : List (Values R)) (g : Values R) :
    productFrom q (scalar 1) (fs ++ g :: (fs.reverse.map reversed)) =
      fs.foldr (conjugate q) g := by
  -- The outermost operator stands at both ends of the list of stages.
  induction fs with
  | nil => exact scalar_one_geometric q g
  | cons f fs ih =>
    have houter : (f :: fs) ++ g :: ((f :: fs).reverse.map reversed) =
        f :: (fs ++ g :: (fs.reverse.map reversed)) ++ [reversed f] := by
      simp
    rw [houter, productFrom_concat, productFrom_cons, scalar_one_geometric, productFrom_eq, ih,
      List.foldr_cons, conjugate]

end Values

section Expansion

variable [Number K] {M : Reading σ K S V} {A : Algebra K S} {s : σ} {q : Nat → K}

theorem Term.valueWith_eq (term : Term K S) :
    term.valueWith (fun t => M.value s (.symbol t)) = M.termValue s term := by
  rw [Term.valueWith, Reading.termValue]
  refine congrArg List.prod (List.map_congr_left fun f _ => ?_)
  cases f <;> rfl

variable [ExactNumber K]

/-- The value of a component of a stage. -/
def Stage.componentValue (stage : Stage K S) (b : Blade) (x : K) : K :=
  (-1) ^ (if stage.reversed then b.reverseFlips else 0) * x

/-- The coefficients of a stage. -/
def Stage.values (M : Reading σ K S V) (s : σ) (stage : Stage K S) : Values K := fun b =>
  stage.componentValue b (M.values s stage.factor b)

theorem Stage.values_plain (m : Multivector K S) :
    Stage.values M s ⟨m, false⟩ = M.values s m := by
  funext b
  exact (congrArg (· * _) (pow_zero _)).trans (one_mul _)

theorem Stage.values_reversed (m : Multivector K S) :
    Stage.values M s ⟨m, true⟩ = Values.reversed (M.values s m) := by
  funext b
  rw [Values.reversed_apply]
  rfl

theorem ProductTree.values_foldl {α : Type} {ν : S → K}
    {step : ProductTree K S → α → ProductTree K S} {v : α → Values K}
    (hstep : ∀ tree a, (step tree a).values ν = tree.values ν + v a) (l : List α)
    (tree : ProductTree K S) :
    (l.foldl step tree).values ν = tree.values ν + (l.map v).sum := by
  induction l generalizing tree with
  | nil => rw [List.foldl_nil, List.map_nil, List.sum_nil, add_zero]
  | cons a rest ih => rw [List.foldl_cons, ih, hstep, List.map_cons, List.sum_cons, add_assoc]

variable [Ord S]

variable [Std.LawfulEqOrd S]

/-- **The expansion adds the product of the remaining stages** to the tree, where the stages before
them have contributed a single component. -/
theorem Algebra.values_expand (hA : M.Squares s A.metric q) {stages : List (Stage K S)}
    (hstages : ∀ stage ∈ stages, M.Member A s stage.factor) (blade : Blade) (flips : Nat)
    (term : Term K S) (tree : ProductTree K S) :
    (A.expand stages blade flips term tree).values (fun t => M.value s (.symbol t)) =
      tree.values (fun t => M.value s (.symbol t)) +
        Values.productFrom q (Values.single blade ((-1) ^ flips * M.termValue s term))
          (stages.map (Stage.values M s)) := by
  -- All components that were picked so far make up one signed term at `blade`.
  induction stages generalizing blade flips term tree with
  | nil => rw [expand, ProductTree.values_add, Term.valueWith_eq]; rfl
  | cons stage rest ih =>
    have hrest : ∀ stage ∈ rest, M.Member A s stage.factor :=
      fun stage hstage => hstages stage (List.mem_cons_of_mem _ hstage)
    set x := (-1) ^ flips * M.termValue s term with hx
    -- What a component of the stage adds, once the remaining stages are multiplied to it.
    let v : Blade → K → Values K := fun b y =>
      Values.productFrom q
        (Values.single (blade ^^^ b) (blade.twist q b * (x * stage.componentValue b y)))
        (rest.map (Stage.values M s))
    have hzero : ∀ b, v b 0 = 0 := by
      intro b
      simp only [v, Stage.componentValue, mul_zero, Values.single_zero, Values.productFrom_zero]
    rw [expand]
    refine Eq.trans (ProductTree.values_foldl (v := fun c => v c.1 (M.value s c.2)) ?_ _ _) ?_
    · rintro tree ⟨b, value⟩
      dsimp only
      cases hfactors : A.metric.factors? (blade &&& b) with
      | none =>
        -- The branch is pruned, and what it would have added is zero.
        have hnull : v b (M.value s value) = 0 := by
          simp only [v, Blade.twist, hA.factors?_eq_none hfactors, mul_zero, zero_mul,
            Values.single_zero, Values.productFrom_zero]
        rw [hnull, add_zero]
      | some squares =>
        obtain ⟨-, hsquares⟩ := hA.factors?_eq_some hfactors
        rw [ih hrest, Reading.termValue_append, Reading.termValue_append, hsquares,
          Reading.termValue_cons, Reading.termValue_nil, mul_one]
        congr 3
        rw [hx, Blade.twist, Blade.swapSign, Stage.componentValue, pow_add, pow_add]
        ring
    · rw [Reading.sum_components v hzero (hstages stage List.mem_cons_self).nodup, List.map_cons,
        Values.productFrom_cons, Values.convolve_single_left, Values.productFrom_sum]
      rfl

end Expansion

section Emission

variable [Number K] [ExactNumber K] [Target σ K S V] {M : Reading σ K S V} {A : Algebra K S}
  {s : σ} {draft : Draft K V} {running : Factor K S}

/-- The values of symbols in a state. -/
def Reading.symbolValue (M : Reading σ K S V) (s : σ) (t : S) : K := M.value s (.symbol t)

namespace Algebra

/-- A leaf adds its coefficient times the product of its path to a draft. -/
theorem emitLeaf_yields (hM : M.Sound) (hdraft : M.Drafting s draft) (hrunning : M.Known s running)
    (leaf : Leaf K) :
    Yields ((A.emitLeaf running leaf).run draft) s fun (_, draft') s' =>
      M.Extends s s' ∧ M.Drafting s' draft' ∧ Draft.values M s' draft' =
        draft.values M s + Leaf.values (M.value s running) [leaf] := by
  have hterm : M.KnownTerm s [.number leaf.coefficient, running] :=
    .cons (Reading.known_number _) (.cons hrunning .nil)
  refine Yields.bind (Yields.mono (Draft.add_yields (c := { blade := leaf.blade, term := _ })
    hM A.cellName hdraft.alone hterm) ?_)
  rintro draft' s' ⟨hkeeps, hopen', hblades, hvalues⟩
  rw [List.append_nil] at hopen'
  refine .pure ⟨hkeeps.symbols, ⟨hopen', hblades ▸ Draft.nodup_touch hdraft.nodup⟩, ?_⟩
  rw [hvalues, Contribution.values, Contribution.value, Reading.termValue_cons,
    Reading.termValue_cons, Reading.termValue_nil, mul_one, Leaf.values_cons, Leaf.values_nil,
    add_zero]
  rfl

theorem emitLeaves_yields (hM : M.Sound) (hdraft : M.Drafting s draft)
    (hrunning : M.Known s running) (leaves : List (Leaf K)) :
    Yields ((leaves.forM (A.emitLeaf running)).run draft) s fun (_, draft') s' =>
      M.Extends s s' ∧ M.Drafting s' draft' ∧ Draft.values M s' draft' =
        draft.values M s + Leaf.values (M.value s running) leaves := by
  induction leaves generalizing draft s with
  | nil =>
    refine .pure ⟨.refl M s, hdraft, ?_⟩
    rw [Leaf.values_nil, add_zero]
  | cons leaf rest ih =>
    change Yields ((do A.emitLeaf running leaf; rest.forM (A.emitLeaf running)).run draft) s _
    refine Yields.run_bind (Yields.mono (emitLeaf_yields hM hdraft hrunning leaf) ?_)
    rintro ⟨_, draft₁⟩ s₁ ⟨hext, hdraft₁, hvalues⟩
    refine Yields.mono (ih hdraft₁ (hext.known hrunning)) ?_
    rintro ⟨_, draft₂⟩ s₂ ⟨hext', hdraft₂, hvalues'⟩
    refine ⟨hext.trans hext', hdraft₂, ?_⟩
    rw [hvalues', hvalues, hext.value_eq hrunning, Leaf.values_cons, Leaf.values_cons,
      Leaf.values_nil, add_zero, add_assoc]

theorem extendPath_yields (hM : M.Sound) (hdraft : M.Drafting s draft)
    (hrunning : M.Known s running) {t : S} (ht : M.Known s (.symbol t)) :
    Yields ((extendPath (σ := σ) (V := V) running t).run draft) s fun (next, draft') s' =>
      M.Extends s s' ∧ M.Drafting s' draft' ∧ Draft.values M s' draft' = draft.values M s ∧
        M.Known s' next ∧ M.value s' next = M.value s running * M.symbolValue s t := by
  have hmul : Operator.mul ≠ .div := nofun
  refine Yields.bind (Yields.mono (Target.combine_yields hM hmul hdraft.ready hrunning ht) ?_)
  rintro next s' ⟨hkeeps, hopen, hknown, hvalue⟩
  exact .pure ⟨hkeeps.symbols, ⟨hopen, hdraft.nodup⟩, Draft.values_congr hkeeps.storages, hknown,
    hvalue⟩

/-- **Visiting branches adds what they contribute to a draft.** -/
theorem traverse_yields (hM : M.Sound) (hdraft : M.Drafting s draft) (hrunning : M.Known s running)
    {branches : Branches K S} (hbranches : branches.Forall fun t => M.Known s (.symbol t)) :
    Yields ((branches.traverse extendPath A.emitLeaf running).run draft) s fun (_, draft') s' =>
      M.Extends s s' ∧ M.Drafting s' draft' ∧ Draft.values M s' draft' =
        draft.values M s + branches.values (M.symbolValue s) (M.value s running) := by
  induction branches generalizing running draft s with
  | nil => exact .pure ⟨.refl M s, hdraft, (add_zero _).symm⟩
  | cons symbol leaves below beside ihbelow ihbeside =>
    obtain ⟨hsymbol, hbelow, hbeside⟩ := hbranches
    -- Symbols keep their values from one part of the branches to the next.
    have hkept : ∀ {s s' : σ}, M.Extends s s' → ∀ {b : Branches K S} (x : K),
        (b.Forall fun t => M.Known s (.symbol t)) →
        b.values (M.symbolValue s') x = b.values (M.symbolValue s) x := by
      intro s s' hext b x hb
      exact Branches.values_congr x (hb.mono fun t ht => hext.value_eq ht)
    rw [Branches.traverse]
    refine Yields.run_bind (Yields.mono (extendPath_yields hM hdraft hrunning hsymbol) ?_)
    rintro ⟨next, draft₁⟩ s₁ ⟨hext₁, hdraft₁, hvalues₁, hnext, hproduct⟩
    refine Yields.run_bind (Yields.mono (emitLeaves_yields hM hdraft₁ hnext leaves.toList) ?_)
    rintro ⟨_, draft₂⟩ s₂ ⟨hext₂, hdraft₂, hvalues₂⟩
    have hext₂' := hext₁.trans hext₂
    have hbelow₂ := hbelow.mono fun t ht => hext₂'.known ht
    refine Yields.run_bind (Yields.mono (ihbelow hdraft₂ (hext₂.known hnext) hbelow₂) ?_)
    rintro ⟨_, draft₃⟩ s₃ ⟨hext₃, hdraft₃, hvalues₃⟩
    have hext₃' := hext₂'.trans hext₃
    have hbeside₃ := hbeside.mono fun t ht => hext₃'.known ht
    refine Yields.mono (ihbeside hdraft₃ (hext₃'.known hrunning) hbeside₃) ?_
    rintro ⟨_, draft₄⟩ s₄ ⟨hext₄, hdraft₄, hvalues₄⟩
    refine ⟨hext₃'.trans hext₄, hdraft₄, ?_⟩
    rw [hvalues₄, hvalues₃, hvalues₂, hvalues₁, hext₂.value_eq hnext, hproduct,
      hext₃'.value_eq hrunning, hkept hext₂' _ hbelow, hkept hext₃' _ hbeside, Branches.values]
    simp only [add_assoc]

/-- **What is emitted for a tree has the values of the tree.** -/
theorem emitTree_gives (hM : M.Sound) (hopen : M.Open s []) {tree : ProductTree K S}
    (htree : tree.Forall fun t => M.Known s (.symbol t)) :
    (A.emitTree tree : Emission σ K (Multivector K S)).Gives s fun r s' =>
      M.Advances s s' ∧ M.Denotes A s' r (tree.values (M.symbolValue s)) ∧
        r.knownUnit = false := by
  have hempty : M.Drafting s ([] : Draft K V) := ⟨hopen, List.nodup_nil⟩
  have hone : M.Known s (.number 1) := Reading.known_number 1
  have htraverse : Yields
      ((tree.traverse extendPath A.emitLeaf (.number 1)).run ([] : Draft K V)) s
      fun (_, draft') s' => M.Extends s s' ∧ M.Drafting s' draft' ∧
        Draft.values M s' draft' = tree.values (M.symbolValue s) := by
    rw [ProductTree.traverse]
    refine Yields.run_bind (Yields.mono (emitLeaves_yields hM hempty hone tree.leaves.toList) ?_)
    rintro ⟨_, draft₁⟩ s₁ ⟨hext₁, hdraft₁, hvalues₁⟩
    have htree₁ := htree.mono fun t ht => hext₁.known ht
    refine Yields.mono (traverse_yields hM hdraft₁ (hext₁.known hone) htree₁) ?_
    rintro ⟨_, draft₂⟩ s₂ ⟨hext₂, hdraft₂, hvalues₂⟩
    refine ⟨hext₁.trans hext₂, hdraft₂, ?_⟩
    have hsame : tree.branches.values (M.symbolValue s₁) (M.value s₁ (.number 1)) =
        tree.branches.values (M.symbolValue s) 1 :=
      Branches.values_congr 1 (htree.mono fun t ht => hext₁.value_eq ht)
    have hzero : Draft.values M s ([] : Draft K V) = 0 := rfl
    rw [hvalues₂, hvalues₁, hsame, hzero, zero_add]
    rfl
  refine .bind (.mono (.lift htraverse) ?_)
  rintro ⟨_, draft⟩ s' ⟨hext, hdraft, hvalues⟩
  refine .mono (finish_gives hM hdraft.ready hdraft.nodup) ?_
  rintro r s'' ⟨hadv, hr, hunit⟩
  rw [hvalues] at hr
  exact ⟨⟨hext.trans hadv.symbols, hadv.ready⟩, hr, hunit⟩

end Algebra

end Emission

section Chain

variable [Number K] {M : Reading σ K S V} {A : Algebra K S} {s : σ} {q : Nat → K}
  {operators : List (Multivector K S)} {fs : List (Values K)} {x : Multivector K S} {g : Values K}

theorem Stage.member_ofChain (hoperators : List.Forall₂ (M.Denotes A s) operators fs)
    (hx : M.Denotes A s x g) :
    ∀ stage ∈ Stage.ofChain operators x, M.Member A s stage.factor := by
  have hmembers := Reading.member_of_forall₂ hoperators
  intro stage hstage
  rcases List.mem_append.1 hstage with h | h
  · obtain ⟨m, hm, rfl⟩ := List.mem_map.1 h
    exact hmembers m hm
  · rcases List.mem_cons.1 h with rfl | h
    · exact hx.toMember
    · obtain ⟨m, hm, rfl⟩ := List.mem_map.1 h
      exact hmembers m (List.mem_reverse.1 hm)

variable [ExactNumber K]

theorem Stage.map_values_ofChain (hoperators : List.Forall₂ (M.Denotes A s) operators fs)
    (hx : M.Denotes A s x g) :
    (Stage.ofChain operators x).map (Stage.values M s) =
      fs ++ g :: (fs.reverse.map Values.reversed) := by
  have hfs := Reading.map_values_of_forall₂ hoperators
  have hplain : (operators.map fun m => Stage.values M s ⟨m, false⟩) = fs := by
    rw [← hfs]
    exact List.map_congr_left fun m _ => Stage.values_plain m
  have hreversed : (operators.reverse.map fun m => Stage.values M s ⟨m, true⟩) =
      fs.reverse.map Values.reversed := by
    rw [← hfs, ← List.map_reverse, List.map_map]
    exact List.map_congr_left fun m _ => Stage.values_reversed m
  rw [ofChain, List.map_append, List.map_cons, List.map_map, List.map_map, values_plain,
    hx.values_eq]
  exact congrArg₂ (fun front back => front ++ g :: back) hplain hreversed

namespace Algebra

variable [Target σ K S V]

/-- Sandwiches by plain products, from the last operator to the first one. -/
theorem foldrM_sandwichProduct_gives (hM : M.Sound) (hA : M.Ready A s q)
    (hoperators : List.Forall₂ (M.Denotes A s) operators fs) (hx : M.Denotes A s x g) :
    Emission.Gives (operators.foldrM (fun operator inner => A.sandwichProduct operator inner) x) s
      fun r s' => M.Advances s s' ∧ M.Denotes A s' r (fs.foldr (Values.conjugate q) g) := by
  induction operators generalizing fs with
  | nil =>
    cases hoperators
    exact .pure ⟨hA.advances, hx⟩
  | cons operator rest ih =>
    obtain ⟨f, fs, hoperator, hrest, rfl⟩ := List.forall₂_cons_left_iff.1 hoperators
    rw [List.foldrM_cons]
    refine .bind (.mono (ih hrest) ?_)
    rintro inner s₁ ⟨hadv, hinner⟩
    refine .mono (sandwichProduct_gives hM (hA.advance hadv) (hoperator.mono hadv.symbols)
      hinner) ?_
    rintro r s₂ ⟨hadv₂, hr, -⟩
    exact ⟨hadv.trans hadv₂, hr⟩

variable [Ord S] [Std.LawfulEqOrd S]

/-- **A chain stands for the nested conjugation**, unless verification of its norm fails. -/
theorem sandwichChain_ends (hM : M.Sound) (hA : M.Ready A s q)
    (hoperators : List.Forall₂ (M.Denotes A s) operators fs) (hx : M.Denotes A s x g) :
    M.Ends (A.settings.unitTolerance?.isSome = true) (A.sandwichChain operators x) s fun r s' =>
      M.Denotes A s' r (fs.foldr (Values.conjugate q) g) ∧
        (r.knownUnit = true → x.knownUnit = true ∧ ∀ m ∈ operators, m.knownUnit = true) := by
  have howners : ∀ m ∈ operators, m.owner = A.id :=
    fun m hm => (Reading.member_of_forall₂ hoperators m hm).owner
  refine .gives_bind (P := fun _ s' => s = s') (forM_check_gives howners ⟨hA.advances, rfl⟩) ?_
  rintro - _ - rfl
  refine .gives_bind (P := fun _ s' => s = s') (check_gives hx.owner ⟨hA.advances, rfl⟩) ?_
  rintro - _ - rfl
  refine .gives_bind (.mono (annotate_gives hM hA.ready "sandwich chain")
    fun _ _ hadv => ⟨hadv, trivial⟩) ?_
  rintro - s₁ hadv -
  have hA₁ := (hA.advance hadv).squares
  have hoperators₁ := Reading.forall₂_mono hoperators hadv.symbols
  have hx₁ := hx.mono hadv.symbols
  have hstages := Stage.member_ofChain hoperators₁ hx₁
  have hexpanded : (A.expand (Stage.ofChain operators x) 0 0 [] {}).Forall
      fun t => M.Known s₁ (.symbol t) :=
    forall_expand hA₁ (fun stage hstage => (hstages stage hstage).proper) 0 0 .nil trivial
  have htree : (A.expand (Stage.ofChain operators x) 0 0 [] {}).optimize.Forall
      fun t => M.Known s₁ (.symbol t) := Branches.forall_optimize hexpanded
  refine .gives_bind (emitTree_gives hM hadv.ready htree) ?_
  rintro r s₂ hadv₂ ⟨hr, hunit⟩
  have hempty : ({} : ProductTree K S).values (M.symbolValue s₁) = 0 := add_zero _
  have hvalues : (A.expand (Stage.ofChain operators x) 0 0 [] {}).optimize.values
      (M.symbolValue s₁) = fs.foldr (Values.conjugate q) g := by
    rw [ProductTree.values_optimize, ← Values.productFrom_chain,
      ← Stage.map_values_ofChain hoperators₁ hx₁]
    refine (values_expand hA₁ hstages 0 0 [] {}).trans ?_
    rw [pow_zero, one_mul, Reading.termValue_nil]
    exact (congrArg (· + _) hempty).trans (zero_add _)
  rw [hvalues] at hr
  split
  · rename_i hknown
    rw [Bool.and_eq_true, List.all_eq_true] at hknown
    exact markUnit_ends hadv₂.ready ⟨hr.withKnownUnit true, fun _ => hknown⟩
  · refine .pure hadv₂.ready ⟨hr, fun h => ?_⟩
    rw [hunit] at h
    cases h

/-- **A chain stands for the nested conjugation.** -/
theorem sandwichChain_gives (hM : M.Sound) (htolerance : A.settings.unitTolerance? = none)
    (hA : M.Ready A s q) (hoperators : List.Forall₂ (M.Denotes A s) operators fs)
    (hx : M.Denotes A s x g) :
    (A.sandwichChain operators x : Emission σ K (Multivector K S)).Gives s fun r s' =>
      M.Advances s s' ∧ M.Denotes A s' r (fs.foldr (Values.conjugate q) g) ∧
        (r.knownUnit = true → x.knownUnit = true ∧ ∀ m ∈ operators, m.knownUnit = true) :=
  (sandwichChain_ends hM hA hoperators hx).gives (by simp [htolerance])

/-- **A chain of sandwiches agrees with nested sandwiches by plain products**, the last operator
acting first. Without verification of unit norms, both succeed for any number of operators, and
their results have the same value at every blade. -/
theorem sandwichChain_agrees_nested (hM : M.Sound) (htolerance : A.settings.unitTolerance? = none)
    (hopen : M.Open s []) (hmetric : ∀ square ∈ A.metric, M.Known s square)
    (hoperators : ∀ operator ∈ operators, M.Member A s operator) (hx : M.Member A s x) :
    Emission.Gives (do
      let chained ← A.sandwichChain operators x
      let nested ← operators.foldrM (fun operator inner => A.sandwichProduct operator inner) x
      pure (chained, nested)) s fun (chained, nested) s' => M.Agree s' chained nested := by
  have hA : M.Ready A s (M.squares s A.metric) := ⟨hopen, Reading.squares_spec hmetric⟩
  have hdenote : List.Forall₂ (M.Denotes A s) operators (operators.map (M.values s)) :=
    List.forall₂_map_right_iff.2
      (List.forall₂_same.2 fun operator hoperator => (hoperators operator hoperator).denotes)
  refine .bind (.mono (sandwichChain_gives hM htolerance hA hdenote hx.denotes) ?_)
  rintro chained s₁ ⟨hadv, hchained, -⟩
  refine .bind (.mono (foldrM_sandwichProduct_gives hM (hA.advance hadv)
    (Reading.forall₂_mono hdenote hadv.symbols) (hx.denotes.mono hadv.symbols)) ?_)
  rintro nested s₂ ⟨hadv₂, hnested⟩
  exact .pure ((hchained.mono hadv₂.symbols).agree hnested)

theorem sandwichChain_agrees_nested_inputPlane :
    Emission.Gives (do
      let chained ← inputPlane.sandwichChain [.inInputPlane 1, .inInputPlane 2] (.inInputPlane 3)
      let nested ← [.inInputPlane 1, .inInputPlane 2].foldrM
        (fun operator inner => inputPlane.sandwichProduct operator inner) (.inInputPlane 3)
      pure (chained, nested)) Program.singleInput.2 fun (chained, nested) s' =>
        (Program.reading fun _ => some 5).Agree s' chained nested := by
  refine sandwichChain_agrees_nested Program.sound_reading rfl (Program.orderly_singleInput _)
    (known_inputPlane _) ?_ (Multivector.member_inInputPlane _ 3)
  rintro operator (_ | ⟨_, _ | ⟨_, ⟨⟩⟩⟩)
  · exact Multivector.member_inInputPlane _ 1
  · exact Multivector.member_inInputPlane _ 2

end Algebra

end Chain

end Clifford
