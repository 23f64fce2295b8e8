import Clifford.Proofs.Algebra.Ends
import Clifford.Script.Run

/-!
# Guarantees for everything that a script makes

Some statements hold of whatever the steps of a script make, whether single steps succeed or fail.
Such a guarantee says something of multivectors, scalars, prepared operators and circles; if every
operation passes it on from its operands to its result, then all results of a run have it.

## Main definitions

- `Guarantees` — what is said of the things that steps make
- `Guarantees.Lasting` — what is said of a thing stays true
- `Guarantees.Admits` — the operation of a step passes the guarantees on
- `Guarantees.Holds` — all results in a workspace have the guarantees

## Main results

- `Guarantees.Admits.perform` — a step passes the guarantees on
- `Guarantees.Holds.run` — so does a script
-/

namespace Clifford

variable {σ K S V : Type}

/-- What is said of the things that steps make, in a state of the target. -/
structure Guarantees (σ K S : Type) where
  /-- What is said of multivectors. -/
  multivector : σ → Multivector K S → Prop
  /-- What is said of scalars. -/
  factor : σ → Factor K S → Prop
  /-- What is said of prepared operators. -/
  sandwich : σ → Sandwich K S → Prop
  /-- What is said of great circles. -/
  circle : σ → Slerp K S → Prop

namespace Guarantees

/-- What is said of a result. -/
def Result (G : Guarantees σ K S) (s : σ) : StepResult K S → Prop
  | .nothing => True
  | .multivector m => G.multivector s m
  | .multivectors ms => ∀ m ∈ ms, G.multivector s m
  | .scalar f => G.factor s f
  | .sandwich P => G.sandwich s P
  | .points circle points => G.circle s circle ∧ ∀ m, .ok m ∈ points → G.multivector s m

/-- What is said of a thing stays true as the target goes on. Literals and the coefficients of
multivectors may be used as scalars. -/
structure Lasting [Number K] (G : Guarantees σ K S) (M : Reading σ K S V) : Prop where
  multivector {s s' : σ} {m : Multivector K S} :
    M.Extends s s' → G.multivector s m → G.multivector s' m
  factor {s s' : σ} {f : Factor K S} : M.Extends s s' → G.factor s f → G.factor s' f
  sandwich {s s' : σ} {P : Sandwich K S} : M.Extends s s' → G.sandwich s P → G.sandwich s' P
  circle {s s' : σ} {c : Slerp K S} : M.Extends s s' → G.circle s c → G.circle s' c
  number {s : σ} (x : K) : G.factor s (.number x)
  value {s : σ} {m : Multivector K S} (b : Blade) : G.multivector s m → G.factor s (m.value b)

/-- All results in a workspace have the guarantees, and its target is ready. -/
structure Holds [Number K] (G : Guarantees σ K S) (M : Reading σ K S V) (A : Algebra K S)
    (q : Nat → K) (w : Workspace σ K S) : Prop where
  ready : M.Ready A w.target q
  results : ∀ i, G.Result w.target (w.results.getD i .nothing)

/-- A computation leaves all results their guarantees, and what it gives satisfies `Q`. -/
def Keeps [Number K] {α : Type} (G : Guarantees σ K S) (M : Reading σ K S V) (A : Algebra K S)
    (q : Nat → K) (c : Work σ K S α) (w : Workspace σ K S) (Q : σ → α → Prop) : Prop :=
  Yields c.run w fun r w' => M.Advances w.target w'.target ∧ G.Holds M A q w' ∧
    ∀ a, r = .ok a → Q w'.target a

/-- The inputs have the guarantee of scalars. -/
def Supplied (G : Guarantees σ K S) (M : Reading σ K S V) (input : InputSource σ K S) : Prop :=
  ∀ name action, input name = some action → ∀ s, M.Open s [] →
    Yields action s fun f s' => M.Advances s s' ∧ G.factor s' f

variable [Number K] {G : Guarantees σ K S} {M : Reading σ K S V} {A : Algebra K S} {q : Nat → K}
  {s s' : σ} {w : Workspace σ K S}

theorem Result.mono (hG : G.Lasting M) {result : StepResult K S} (h : G.Result s result)
    (hext : M.Extends s s') : G.Result s' result := by
  cases result with
  | nothing => trivial
  | multivector m => exact hG.multivector hext h
  | multivectors ms => exact fun m hm => hG.multivector hext (h m hm)
  | scalar f => exact hG.factor hext h
  | sandwich P => exact hG.sandwich hext h
  | points circle points =>
    exact ⟨hG.circle hext h.1, fun m hm => hG.multivector hext (h.2 m hm)⟩

namespace Holds

theorem start (h : M.Ready A s q) : G.Holds M A q { target := s } := ⟨h, fun _ => trivial⟩

theorem advance (hG : G.Lasting M) (hw : G.Holds M A q w) (hadv : M.Advances w.target s') :
    G.Holds M A q { w with target := s' } where
  ready := hw.ready.advance hadv
  results i := (hw.results i).mono hG hadv.symbols

theorem push (hw : G.Holds M A q w) {result : StepResult K S} (h : G.Result w.target result) :
    G.Holds M A q (w.push result) where
  ready := hw.ready
  results i := by
    have hold := hw.results i
    rw [Array.getD_eq_getD_getElem?] at hold ⊢
    change G.Result w.target ((w.results.push result)[i]?.getD .nothing)
    rw [Array.getElem?_push]
    split
    · exact h
    · exact hold

theorem set (hw : G.Holds M A q w) {P : Sandwich K S} (h : G.sandwich w.target P) (step : Nat) :
    G.Holds M A q { w with results := w.results.setIfInBounds step (.sandwich P) } where
  ready := hw.ready
  results i := by
    have hold := hw.results i
    rw [Array.getD_eq_getD_getElem?] at hold ⊢
    rw [Array.getElem?_setIfInBounds]
    split
    · split
      · exact h
      · trivial
    · exact hold

end Holds

namespace Keeps

variable {α β : Type} {Q : σ → α → Prop} {Q' : σ → β → Prop}

theorem pure (hw : G.Holds M A q w) {a : α} (h : Q w.target a) :
    G.Keeps M A q (Pure.pure a) w Q :=
  ⟨.refl hw.ready.ready, hw, fun _ hb => Except.ok.inj hb ▸ h⟩

theorem throw (hw : G.Holds M A q w) (e : StepError K) :
    G.Keeps M A q (MonadExcept.throw e : Work σ K S α) w Q :=
  ⟨.refl hw.ready.ready, hw, nofun⟩

theorem bind {c : Work σ K S α} {k : α → Work σ K S β} (hc : G.Keeps M A q c w Q)
    (hk : ∀ a w', G.Holds M A q w' → M.Advances w.target w'.target → Q w'.target a →
      G.Keeps M A q (k a) w' Q') : G.Keeps M A q (c >>= k) w Q' := by
  have hrun : (c >>= k).run.run w = (ExceptT.bindCont k (c.run.run w).1).run (c.run.run w).2 := rfl
  unfold Keeps Yields
  rw [hrun]
  obtain ⟨hadv, hw', hresult⟩ := hc
  change ∀ a, (c.run.run w).1 = .ok a → Q (c.run.run w).2.target a at hresult
  generalize (c.run.run w).1 = r at hresult ⊢
  cases r with
  | error e => exact ⟨hadv, hw', nofun⟩
  | ok a =>
    obtain ⟨hadv', hkeeps⟩ := hk a _ hw' hadv (hresult a rfl)
    exact ⟨hadv.trans hadv', hkeeps⟩

/-- The same computation for each element of a list. What is said of one result may not be lost by
what comes later. -/
theorem mapM {f : β → Work σ K S α} (hmono : ∀ s s' a, M.Extends s s' → Q s a → Q s' a)
    {l : List β} (h : ∀ b ∈ l, ∀ w' : Workspace σ K S, G.Holds M A q w' →
      G.Keeps M A q (f b) w' Q) (hw : G.Holds M A q w) :
    G.Keeps M A q (l.mapM f) w fun s as => ∀ a ∈ as, Q s a := by
  induction l generalizing w with
  | nil => exact .pure hw nofun
  | cons b rest ih =>
    rw [List.mapM_cons]
    refine .bind (h b List.mem_cons_self w hw) fun a w₁ hw₁ _ ha => ?_
    refine .bind (ih (fun c hc => h c (List.mem_cons_of_mem b hc)) hw₁) fun as w₂ hw₂ hadv has => ?_
    exact .pure hw₂ (List.forall_mem_cons.2 ⟨hmono _ _ _ hadv.symbols ha, has⟩)

theorem onTarget (hG : G.Lasting M) (hw : G.Holds M A q w) {action : StateM σ α}
    (h : Yields action w.target fun a s' => M.Advances w.target s' ∧ Q s' a) :
    G.Keeps M A q (Work.onTarget action) w Q :=
  ⟨h.1, hw.advance hG h.1, fun _ ha => Except.ok.inj ha ▸ h.2⟩

/-- Running an operation, whether it succeeds or fails. -/
theorem emission (hG : G.Lasting M) (hw : G.Holds M A q w) {p : Prop} {action : Emission σ K α}
    (h : M.Ends p action w.target fun a s' => Q s' a) :
    G.Keeps M A q (Work.emission action) w Q := by
  have htarget : G.Keeps M A q (Work.onTarget action.run) w
      fun s' r => ∀ a, r = .ok a → Q s' a := by
    refine .onTarget hG hw (Yields.mono h ?_)
    rintro (e | a) s' ⟨hadv, h⟩
    · exact ⟨hadv, nofun⟩
    · exact ⟨hadv, fun _ hb => Except.ok.inj hb ▸ h⟩
  refine .bind htarget ?_
  rintro (e | a) w' hw' - h'
  · exact .throw hw' _
  · exact .pure hw' (h' a rfl)

theorem map {c : Work σ K S α} {φ : α → β} (hc : G.Keeps M A q c w Q)
    (h : ∀ s a, Q s a → Q' s (φ a)) : G.Keeps M A q (φ <$> c) w Q' := by
  rw [map_eq_pure_bind]
  exact .bind hc fun a w' hw' _ ha => .pure hw' (h _ a ha)

end Keeps

/-! ### References -/

theorem resultAt_keeps (hw : G.Holds M A q w) (step : Nat) :
    G.Keeps M A q (Work.resultAt step) w G.Result :=
  ⟨.refl hw.ready.ready, hw, fun _ h => Except.ok.inj h ▸ hw.results step⟩

theorem multivector_keeps (hw : G.Holds M A q w) (ref : MvRef) :
    G.Keeps M A q (Work.multivector ref) w G.multivector := by
  cases ref with
  | result step =>
    refine .bind (resultAt_keeps hw step) ?_
    rintro (_ | m | _ | _ | _ | _) w' hw' - hresult
    · exact .throw hw' .noValue
    · exact .pure hw' hresult
    all_goals exact .throw hw' .noValue
  | item step index =>
    refine .bind (resultAt_keeps hw step) ?_
    rintro (_ | _ | ms | _ | _ | ⟨circle, points⟩) w₁ hw₁ - hresult
    · exact .throw hw₁ .noValue
    · exact .throw hw₁ .noValue
    · simp only [pure_bind]
      split
      · rename_i m hm
        exact .pure hw₁ (hresult m (List.mem_of_getElem? hm))
      · exact .throw hw₁ .noValue
    · exact .throw hw₁ .noValue
    · exact .throw hw₁ .noValue
    · simp only [pure_bind]
      split
      · rename_i m hm
        refine .pure hw₁ (hresult.2 m ?_)
        obtain ⟨point, hpoint, hm⟩ := List.mem_filterMap.1 (List.mem_of_getElem? hm)
        cases point with
        | error e => cases hm
        | ok m' => exact Option.some.inj hm ▸ hpoint
      · exact .throw hw₁ .noValue

theorem prepared_keeps (hw : G.Holds M A q w) (step : Nat) :
    G.Keeps M A q (Work.prepared step) w G.sandwich := by
  refine .bind (resultAt_keeps hw step) ?_
  rintro (_ | _ | _ | _ | P | _) w' hw' - hresult
  · exact .throw hw' .noValue
  · exact .throw hw' .noValue
  · exact .throw hw' .noValue
  · exact .throw hw' .noValue
  · exact .pure hw' hresult
  · exact .throw hw' .noValue

theorem keep_keeps (hw : G.Holds M A q w) (step : Nat) {P : Sandwich K S}
    (hP : G.sandwich w.target P) : G.Keeps M A q (Work.keep step P) w fun _ _ => True :=
  ⟨.refl hw.ready.ready, hw.set hP step, fun _ _ => trivial⟩

variable {input : InputSource σ K S}

theorem multivectors_keeps (hG : G.Lasting M) (hw : G.Holds M A q w) (refs : List MvRef) :
    G.Keeps M A q (Work.multivectors refs) w fun s ms => ∀ m ∈ ms, G.multivector s m :=
  .mapM (Q := G.multivector) (fun _ _ _ hext h => hG.multivector hext h)
    (fun ref _ _ hw' => multivector_keeps hw' ref) hw

theorem factor_keeps (hG : G.Lasting M) (hinput : G.Supplied M input) (hw : G.Holds M A q w)
    (ref : FactorRef K) : G.Keeps M A q (Work.factor input ref) w G.factor := by
  cases ref with
  | number x => exact .pure hw (hG.number x)
  | input name =>
    rw [Work.factor]
    split
    · rename_i action haction
      exact .onTarget hG hw (hinput name action haction _ hw.ready.ready)
    · exact .throw hw .noInput
  | coefficient m b =>
    exact .bind (multivector_keeps hw m) fun m w' hw' _ hm => .pure hw' (hG.value b hm)
  | result step =>
    refine .bind (resultAt_keeps hw step) ?_
    rintro (_ | _ | _ | f | _ | _) w' hw' - hresult
    · exact .throw hw' .noValue
    · exact .throw hw' .noValue
    · exact .throw hw' .noValue
    · exact .pure hw' hresult
    · exact .throw hw' .noValue
    · exact .throw hw' .noValue

theorem factors_keeps (hG : G.Lasting M) (hinput : G.Supplied M input) (hw : G.Holds M A q w)
    (refs : List (FactorRef K)) :
    G.Keeps M A q (Work.factors input refs) w fun s fs => ∀ f ∈ fs, G.factor s f :=
  .mapM (Q := G.factor) (fun _ _ _ hext h => hG.factor hext h)
    (fun ref _ _ hw' => factor_keeps hG hinput hw' ref) hw

/-- What is said of the entries of a matrix. -/
def Matrix (G : Guarantees σ K S) (s : σ) (matrix : SparseMatrix K S) : Prop :=
  ∀ row ∈ matrix, ∀ f, some f ∈ row → G.factor s f

theorem matrix_keeps (hG : G.Lasting M) (hinput : G.Supplied M input) (hw : G.Holds M A q w)
    (rows : List (List (Option (FactorRef K)))) :
    G.Keeps M A q (Work.matrix input rows) w G.Matrix := by
  refine .mapM (Q := fun s row => ∀ f, some f ∈ row → G.factor s f)
    (fun _ _ _ hext h f hf => hG.factor hext (h f hf)) (fun row _ w' hw' => ?_) hw
  refine Yields.mono (Keeps.mapM (Q := fun s entry => ∀ f, entry = some f → G.factor s f)
    (fun _ _ _ hext h f hf => hG.factor hext (h f hf)) (fun entry _ w₁ hw₁ => ?_) hw') ?_
  · cases entry with
    | none => exact .pure hw₁ fun f hf => absurd hf.symm (Option.some_ne_none f)
    | some ref =>
      refine .bind (factor_keeps hG hinput hw₁ ref) fun f w₂ hw₂ _ hf => .pure hw₂ ?_
      exact fun _ h => Option.some.inj h ▸ hf
  · rintro r w₁ ⟨hadv, hw₁, h⟩
    exact ⟨hadv, hw₁, fun entries hr f hf => h entries hr _ hf f rfl⟩

/-! ### Steps -/

theorem making_keeps (hG : G.Lasting M) (hw : G.Holds M A q w)
    {action : Emission σ K (Multivector K S)}
    (h : M.Ends True action w.target fun r s' => G.multivector s' r) :
    G.Keeps M A q (Step.making action) w G.Result :=
  .map (.emission hG hw h) fun _ _ hr => hr

theorem measuring_keeps (hG : G.Lasting M) (hw : G.Holds M A q w)
    {action : Emission σ K (Factor K S)}
    (h : M.Ends True action w.target fun r s' => G.factor s' r) :
    G.Keeps M A q (Step.measuring action) w G.Result :=
  .map (.emission hG hw h) fun _ _ hr => hr

variable [Target σ K S V]

/-- The points at several parameters, of which each may have failed. -/
theorem points_yields (hG : G.Lasting M) (hA : M.Ready A s q)
    (hpoint : ∀ s c t, M.Ready A s q → G.circle s c → G.factor s t →
      M.Ends True (A.slerpAt c t) s fun r s' => G.multivector s' r)
    {circle : Slerp K S} (hcircle : G.circle s circle) {ts : Term K S}
    (hts : ∀ t ∈ ts, G.factor s t) :
    Yields (ts.mapM fun t => (A.slerpAt circle t).run) s fun points s' =>
      M.Advances s s' ∧ ∀ m, .ok m ∈ points → G.multivector s' m := by
  induction ts generalizing s with
  | nil => exact .pure ⟨hA.advances, nofun⟩
  | cons t rest ih =>
    obtain ⟨ht, hrest⟩ := List.forall_mem_cons.1 hts
    rw [List.mapM_cons]
    refine Yields.bind (Yields.mono (hpoint s circle t hA hcircle ht) ?_)
    rintro point s₁ ⟨hadv, hr⟩
    refine Yields.bind (Yields.mono (ih (hA.advance hadv) (hG.circle hadv.symbols hcircle)
      fun t ht => hG.factor hadv.symbols (hrest t ht)) ?_)
    rintro points s₂ ⟨hadv₂, hpoints⟩
    refine .pure ⟨hadv.trans hadv₂, fun m hm => ?_⟩
    rcases List.mem_cons.1 hm with rfl | hm
    · exact hG.multivector hadv₂.symbols hr
    · exact hpoints m hm

variable [Ord S]

/-- The operation of a step passes the guarantees on, from its operands to its result. Operations
may fail; then they leave the target in order. -/
def Admits (G : Guarantees σ K S) (M : Reading σ K S V) (A : Algebra K S) (q : Nat → K) :
    Step K → Prop
  | .zero => ∀ s, G.multivector s A.zero
  | .one => ∀ s, M.Ready A s q → M.Ends True A.one s fun r s' => G.multivector s' r
  | .pseudoscalar =>
    ∀ s, M.Ready A s q → M.Ends True A.pseudoscalar s fun r s' => G.multivector s' r
  | .basisVectors => ∀ s, M.Ready A s q →
    M.Ends True A.basisVectors s fun rs s' => ∀ r ∈ rs, G.multivector s' r
  | .scalar _ => ∀ s x, M.Ready A s q → G.factor s x →
    M.Ends True (A.scalar x) s fun r s' => G.multivector s' r
  | .vector _ => ∀ s xs, M.Ready A s q → (∀ x ∈ xs, G.factor s x) →
    M.Ends True (A.vector xs) s fun r s' => G.multivector s' r
  | .named _ => ∀ s cs, M.Ready A s q → (∀ c ∈ cs, G.factor s (Prod.snd c)) →
    M.Ends True (A.ofNamed cs) s fun r s' => G.multivector s' r
  | .call f _ => ∀ s xs, M.Ready A s q → (∀ x ∈ xs, G.factor s x) →
    M.Ends True (Algebra.call f xs) s fun r s' => G.factor s' r
  | .combine op _ _ => ∀ s x y, M.Ready A s q → G.factor s x → G.factor s y →
    M.Ends True (Algebra.combine op x y) s fun r s' => G.factor s' r
  | .coefficient _ _ => True
  | .scale _ _ => ∀ s x m, M.Ready A s q → G.factor s x → G.multivector s m →
    M.Ends True (A.scale x m) s fun r s' => G.multivector s' r
  | .withKnownUnit _ knownUnit =>
    ∀ s m, G.multivector s m → G.multivector s (m.withKnownUnit knownUnit)
  | .unary op _ => ∀ s m, M.Ready A s q → G.multivector s m →
    M.Ends True (op.perform A m) s fun r s' => G.multivector s' r
  | .binary op _ _ => ∀ s a b, M.Ready A s q → G.multivector s a → G.multivector s b →
    M.Ends True (op.perform A a b) s fun r s' => G.multivector s' r
  | .measure op _ => ∀ s m, M.Ready A s q → G.multivector s m →
    M.Ends True (op.perform A m) s fun r s' => G.factor s' r
  | .compare op _ _ => ∀ s a b, M.Ready A s q → G.multivector s a → G.multivector s b →
    M.Ends True (op.perform A a b) s fun r s' => G.factor s' r
  | .plus _ => ∀ s ms, M.Ready A s q → (∀ m ∈ ms, G.multivector s m) →
    M.Ends True (A.plus ms) s fun r s' => G.multivector s' r
  | .mulAll kind _ => ∀ s ms, M.Ready A s q → (∀ m ∈ ms, G.multivector s m) →
    M.Ends True (A.mulAll kind ms) s fun r s' => G.multivector s' r
  | .outermorphism _ _ => ∀ s m matrix, M.Ready A s q → G.multivector s m → G.Matrix s matrix →
    M.Ends True (A.outermorphism m matrix) s fun r s' => G.multivector s' r
  | .slerp _ _ _ =>
    (∀ s a b, M.Ready A s q → G.multivector s a → G.multivector s b →
      M.Ends True (A.slerp a b) s fun c s' => G.circle s' c) ∧
    ∀ s c t, M.Ready A s q → G.circle s c → G.factor s t →
      M.Ends True (A.slerpAt c t) s fun r s' => G.multivector s' r
  | .sandwich _ => ∀ s m, M.Ready A s q → G.multivector s m →
    M.Ends True (A.sandwich m) s fun P s' => G.sandwich s' P
  | .apply _ _ options => ∀ s P x, M.Ready A s q → G.sandwich s P → G.multivector s x →
    Yields (P.applyWith x options) s fun (result, P') s' =>
      M.Advances s s' ∧ G.sandwich s' P' ∧ ∀ r, result = .ok (some r) → G.multivector s' r
  | .force _ => ∀ s P, M.Ready A s q → G.sandwich s P →
    Yields P.force s fun P' s' => M.Advances s s' ∧ G.sandwich s' P'
  | .chain _ _ => ∀ s ms x, M.Ready A s q → (∀ m ∈ ms, G.multivector s m) → G.multivector s x →
    M.Ends True (A.sandwichChain ms x) s fun r s' => G.multivector s' r

theorem slerp_keeps (hG : G.Lasting M) (hinput : G.Supplied M input) (hw : G.Holds M A q w)
    {a b : MvRef} {ts : List (FactorRef K)} (h : G.Admits M A q (.slerp a b ts)) :
    G.Keeps M A q ((Step.slerp a b ts).perform A input) w G.Result := by
  obtain ⟨hcircle, hpoint⟩ := h
  refine .bind (factors_keeps hG hinput hw ts) fun ts w₁ hw₁ _ hts => ?_
  refine .bind (multivector_keeps hw₁ a) fun a w₂ hw₂ hadv₂ ha => ?_
  refine .bind (multivector_keeps hw₂ b) fun b w₃ hw₃ hadv₃ hb => ?_
  have ha₃ := hG.multivector hadv₃.symbols ha
  refine .bind (.emission hG hw₃ (hcircle _ a b hw₃.ready ha₃ hb)) fun c w₄ hw₄ hadv₄ hc => ?_
  have hts₄ : ∀ t ∈ ts, G.factor w₄.target t := fun t ht =>
    hG.factor ((hadv₂.trans hadv₃).trans hadv₄).symbols (hts t ht)
  refine .bind (.onTarget hG hw₄ (points_yields hG hw₄.ready hpoint hc hts₄)) ?_
  exact fun points w₅ hw₅ hadv₅ hpoints => .pure hw₅ ⟨hG.circle hadv₅.symbols hc, hpoints⟩

theorem apply_keeps (hG : G.Lasting M) (hw : G.Holds M A q w) {step : Nat} {x : MvRef}
    {options : SandwichOptions} (h : G.Admits M A q (.apply step x options)) :
    G.Keeps M A q ((Step.apply step x options).perform A input) w G.Result := by
  refine .bind (prepared_keeps hw step) fun P w₁ hw₁ _ hP => ?_
  refine .bind (multivector_keeps hw₁ x) fun x w₂ hw₂ hadv₂ hx => ?_
  have happlied := h _ P x hw₂.ready (hG.sandwich hadv₂.symbols hP) hx
  refine .bind (Keeps.onTarget hG hw₂ (Q := fun s r => G.sandwich s (Prod.snd r) ∧
    ∀ m, r.1 = .ok (some m) → G.multivector s m) happlied) ?_
  rintro ⟨result, P'⟩ w₃ hw₃ - ⟨hP', hresult⟩
  refine .bind (keep_keeps hw₃ step hP') fun _ w₄ hw₄ hadv₄ _ => ?_
  rcases result with e | _ | m
  · exact .bind (Q := fun _ _ => False) (.throw hw₄ _) fun _ _ _ _ h => h.elim
  · exact .bind (Q := fun _ r => r = none) (.pure hw₄ rfl) fun _ w' hw' _ hr =>
      hr ▸ .pure hw' trivial
  · exact .bind (Q := fun _ r => r = some m) (.pure hw₄ rfl) fun _ w' hw' hadv' hr =>
      hr ▸ .pure hw' (hG.multivector (hadv₄.trans hadv').symbols (hresult m rfl))

theorem force_keeps (hG : G.Lasting M) (hw : G.Holds M A q w) {step : Nat}
    (h : G.Admits M A q (.force step)) :
    G.Keeps M A q ((Step.force step).perform A input) w G.Result := by
  refine .bind (prepared_keeps hw step) fun P w₁ hw₁ _ hP => ?_
  refine .bind (.onTarget hG hw₁ (h _ P hw₁.ready hP)) fun P' w₂ hw₂ _ hP' => ?_
  exact .bind (keep_keeps hw₂ step hP') fun _ w₃ hw₃ _ _ => .pure hw₃ trivial

/-- **A step passes the guarantees on** if its operation does. -/
theorem Admits.perform (hG : G.Lasting M) (hinput : G.Supplied M input) (hw : G.Holds M A q w)
    {step : Step K} (h : G.Admits M A q step) :
    G.Keeps M A q (step.perform A input) w G.Result := by
  cases step with
  | zero => exact .pure hw (h _)
  | one => exact making_keeps hG hw (h _ hw.ready)
  | pseudoscalar => exact making_keeps hG hw (h _ hw.ready)
  | basisVectors => exact .map (.emission hG hw (h _ hw.ready)) fun _ _ hr => hr
  | scalar x =>
    refine .bind (factor_keeps hG hinput hw x) fun x w' hw' _ hx => ?_
    exact making_keeps hG hw' (h _ x hw'.ready hx)
  | vector coefficients =>
    refine .bind (factors_keeps hG hinput hw coefficients) fun xs w' hw' _ hxs => ?_
    exact making_keeps hG hw' (h _ xs hw'.ready hxs)
  | named components =>
    refine .bind (.mapM (Q := fun s c => G.factor s (Prod.snd c))
      (fun _ _ _ hext hc => hG.factor hext hc) (fun c _ w₁ hw₁ => ?_) hw) ?_
    · exact .bind (factor_keeps hG hinput hw₁ c.2) fun f w₂ hw₂ _ hf => .pure hw₂ hf
    · exact fun cs w' hw' _ hcs => making_keeps hG hw' (h _ cs hw'.ready hcs)
  | call f args =>
    refine .bind (factors_keeps hG hinput hw args) fun xs w' hw' _ hxs => ?_
    exact measuring_keeps hG hw' (h _ xs hw'.ready hxs)
  | combine op left right =>
    refine .bind (factor_keeps hG hinput hw left) fun x w₁ hw₁ _ hx => ?_
    refine .bind (factor_keeps hG hinput hw₁ right) fun y w₂ hw₂ hadv hy => ?_
    exact measuring_keeps hG hw₂ (h _ x y hw₂.ready (hG.factor hadv.symbols hx) hy)
  | coefficient m b =>
    exact .bind (multivector_keeps hw m) fun m w' hw' _ hm => .pure hw' (hG.value b hm)
  | scale x m =>
    refine .bind (factor_keeps hG hinput hw x) fun x w₁ hw₁ _ hx => ?_
    refine .bind (multivector_keeps hw₁ m) fun m w₂ hw₂ hadv hm => ?_
    exact making_keeps hG hw₂ (h _ x m hw₂.ready (hG.factor hadv.symbols hx) hm)
  | withKnownUnit m knownUnit =>
    exact .bind (multivector_keeps hw m) fun m w' hw' _ hm => .pure hw' (h _ m hm)
  | unary op m =>
    refine .bind (multivector_keeps hw m) fun m w' hw' _ hm => ?_
    exact making_keeps hG hw' (h _ m hw'.ready hm)
  | binary op a b =>
    refine .bind (multivector_keeps hw a) fun a w₁ hw₁ _ ha => ?_
    refine .bind (multivector_keeps hw₁ b) fun b w₂ hw₂ hadv hb => ?_
    exact making_keeps hG hw₂ (h _ a b hw₂.ready (hG.multivector hadv.symbols ha) hb)
  | measure op m =>
    refine .bind (multivector_keeps hw m) fun m w' hw' _ hm => ?_
    exact measuring_keeps hG hw' (h _ m hw'.ready hm)
  | compare op a b =>
    refine .bind (multivector_keeps hw a) fun a w₁ hw₁ _ ha => ?_
    refine .bind (multivector_keeps hw₁ b) fun b w₂ hw₂ hadv hb => ?_
    exact measuring_keeps hG hw₂ (h _ a b hw₂.ready (hG.multivector hadv.symbols ha) hb)
  | plus ms =>
    refine .bind (multivectors_keeps hG hw ms) fun ms w' hw' _ hms => ?_
    exact making_keeps hG hw' (h _ ms hw'.ready hms)
  | mulAll kind ms =>
    refine .bind (multivectors_keeps hG hw ms) fun ms w' hw' _ hms => ?_
    exact making_keeps hG hw' (h _ ms hw'.ready hms)
  | outermorphism m rows =>
    refine .bind (matrix_keeps hG hinput hw rows) fun matrix w₁ hw₁ _ hmatrix => ?_
    refine .bind (multivector_keeps hw₁ m) fun m w₂ hw₂ hadv hm => ?_
    refine making_keeps hG hw₂ (h _ m matrix hw₂.ready hm fun row hrow f hf => ?_)
    exact hG.factor hadv.symbols (hmatrix row hrow f hf)
  | slerp a b ts => exact slerp_keeps hG hinput hw h
  | sandwich operator =>
    refine .bind (multivector_keeps hw operator) fun m w' hw' _ hm => ?_
    exact .map (.emission hG hw' (h _ m hw'.ready hm)) fun _ _ hP => hP
  | apply step x options => exact apply_keeps hG hw h
  | force step => exact force_keeps hG hw h
  | chain operators x =>
    refine .bind (multivectors_keeps hG hw operators) fun ms w₁ hw₁ _ hms => ?_
    refine .bind (multivector_keeps hw₁ x) fun x w₂ hw₂ hadv hx => ?_
    refine making_keeps hG hw₂ (h _ ms x hw₂.ready (fun m hm => ?_) hx)
    exact hG.multivector hadv.symbols (hms m hm)

/-! ### Runs -/

/-- What a step leaves in a workspace, together with its result. -/
theorem Keeps.runStep {step : Step K}
    (h : G.Keeps M A q (step.perform A input) w G.Result) :
    M.Advances w.target (w.runStep A input step).2.target ∧
      G.Holds M A q (w.runStep A input step).2 := by
  obtain ⟨hadv, hw', hresult⟩ := h
  rw [Workspace.runStep]
  rcases hrun : (step.perform A input).run.run w with ⟨e | result, w'⟩
  · rw [hrun] at hadv hw'
    exact ⟨hadv, hw'.push trivial⟩
  · rw [hrun] at hadv hw' hresult
    exact ⟨hadv, hw'.push (hresult result rfl)⟩

namespace Holds

/-- A step of a run keeps the guarantees of all results and adds a result that has them. -/
theorem runStep (hG : G.Lasting M) (hinput : G.Supplied M input) (hw : G.Holds M A q w)
    {step : Step K} (h : G.Admits M A q step) :
    M.Advances w.target (w.runStep A input step).2.target ∧
      G.Holds M A q (w.runStep A input step).2 :=
  (h.perform hG hinput hw).runStep

/-- **All results of a run have the guarantees**, whichever of its steps fail. -/
theorem run (hG : G.Lasting M) (hinput : G.Supplied M input) (hw : G.Holds M A q w)
    {script : Script K} (h : ∀ step ∈ script, G.Admits M A q step) :
    G.Holds M A q (w.run A input script) := by
  induction script generalizing w with
  | nil => exact hw
  | cons step rest ih =>
    obtain ⟨hstep, hrest⟩ := List.forall_mem_cons.1 h
    exact ih (hw.runStep hG hinput hstep).2 hrest

end Holds

end Guarantees

end Clifford
