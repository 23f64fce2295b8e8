import Clifford.Proofs.Script.Meaning
import Clifford.Proofs.Algebra.Sandwich

/-!
# Computations in a workspace

A workspace has the meanings of its steps if every result does. The rules below compare a
computation in such a workspace with its meaning: either both fail with the same error, or what
the computation gives stands for what its meaning gives; the workspace keeps its meanings in both
cases.

## Main definitions

- `Reading.Represents` — a multivector with given coefficients and a true statement about its norm
- `StepResult.Means`, `Workspace.Means` — what results and workspaces stand for
- `Corresponds` — the same error, or related results
- `Work.Meets` — a computation does what its meaning says
- `Interpretation.Fits` — an algebra and a source of inputs fit an interpretation
-/

namespace Clifford

/-- Two outcomes are the same error, or results that are related. -/
inductive Corresponds {ε α β : Type} (r : α → β → Prop) : Except ε α → Except ε β → Prop
  | ok {a : α} {b : β} : r a b → Corresponds r (.ok a) (.ok b)
  | error (e : ε) : Corresponds r (.error e) (.error e)

variable {σ K S V : Type} [Number K]

section

variable [ExactNumber K]

/-- A multivector with given coefficients, which is known to be a unit only where they are those of
a unit. -/
structure Reading.Represents (M : Reading σ K S V) (A : Algebra K S) (s : σ)
    (m : Multivector K S) (f : Values K) : Prop extends M.Denotes A s m f where
  unital : m.knownUnit = true → f.Unital

/-- What a result stands for. -/
inductive StepResult.Means (M : Reading σ K S V) (A : Algebra K S) (q : Nat → K) (s : σ) :
    StepResult K S → Meaning K → Prop
  | nothing : Means M A q s .nothing .nothing
  | multivector {m : Multivector K S} {f : Values K} :
    M.Represents A s m f → Means M A q s (.multivector m) (.multivector f)
  | scalar {x : Factor K S} {y : K} : M.HasValue s x y → Means M A q s (.scalar x) (.scalar y)
  | sandwich {P : Sandwich K S} {f : Values K} : Sandwich.Valid M A P.operator q f s P →
    (P.operator.knownUnit = true → f.Unital) → Means M A q s (.sandwich P) (.sandwich f)

/-- A workspace whose results have the given meanings, and whose target is in order. -/
structure Workspace.Means (M : Reading σ K S V) (A : Algebra K S) (q : Nat → K)
    (workspace : Workspace σ K S) (meanings : List (Meaning K)) : Prop where
  ready : M.Ready A workspace.target q
  size_eq : workspace.results.size = meanings.length
  results : ∀ i, StepResult.Means M A q workspace.target (workspace.results.getD i .nothing)
    (meanings.getD i .nothing)

/-- A computation fails where its meaning does, or gives what stands for the meaning. The results
of earlier steps keep their meanings. -/
def Work.Meets {α β : Type} (M : Reading σ K S V) (A : Algebra K S) (q : Nat → K)
    (meanings : List (Meaning K)) (c : Work σ K S α) (workspace : Workspace σ K S)
    (outcome : Except (StepError K) β) (r : σ → α → β → Prop) : Prop :=
  Yields c.run workspace fun result workspace' =>
    M.Advances workspace.target workspace'.target ∧ workspace'.Means M A q meanings ∧
      Corresponds (r workspace'.target) result outcome

end

variable {M : Reading σ K S V} {A : Algebra K S} {q : Nat → K} {s s' : σ}
  {meanings : List (Meaning K)} {w : Workspace σ K S}

section

variable [ExactNumber K]

theorem Reading.Represents.mono {m : Multivector K S} {f : Values K} (h : M.Represents A s m f)
    (hext : M.Extends s s') : M.Represents A s' m f :=
  ⟨h.toDenotes.mono hext, h.unital⟩

theorem StepResult.Means.mono {result : StepResult K S} {meaning : Meaning K}
    (h : StepResult.Means M A q s result meaning) (hext : M.Extends s s') :
    StepResult.Means M A q s' result meaning := by
  cases h with
  | nothing => exact .nothing
  | multivector hm => exact .multivector (hm.mono hext)
  | scalar hx => exact .scalar (hext.hasValue hx)
  | sandwich hP hunit => exact .sandwich (hP.mono hext) hunit

theorem Workspace.Means.advance (h : w.Means M A q meanings) (hadv : M.Advances w.target s') :
    Workspace.Means M A q { w with target := s' } meanings where
  ready := h.ready.advance hadv
  size_eq := h.size_eq
  results i := (h.results i).mono hadv.symbols

theorem Workspace.Means.push (h : w.Means M A q meanings) {result : StepResult K S}
    {meaning : Meaning K} (hresult : StepResult.Means M A q w.target result meaning) :
    (w.push result).Means M A q (meanings ++ [meaning]) where
  ready := h.ready
  size_eq := by
    rw [Workspace.push, Array.size_push, h.size_eq, List.length_append, List.length_singleton]
  results i := by
    have hold := h.results i
    rw [Array.getD_eq_getD_getElem?, List.getD_eq_getElem?_getD] at hold ⊢
    change StepResult.Means M A q w.target ((w.results.push result)[i]?.getD .nothing) _
    rw [Array.getElem?_push, h.size_eq]
    by_cases hi : i = meanings.length
    · subst hi
      rw [if_pos rfl, List.getElem?_concat_length]
      exact hresult
    · rw [if_neg hi]
      by_cases hlt : i < meanings.length
      · rw [List.getElem?_append_left hlt]
        exact hold
      · have hout : meanings.length ≤ i := Nat.not_lt.1 hlt
        have hnone : (meanings ++ [meaning])[i]? = none := by
          rw [List.getElem?_eq_none_iff, List.length_append, List.length_singleton]
          omega
        rw [hnone, Array.getElem?_eq_none (h.size_eq ▸ hout)]
        exact .nothing

/-- A prepared operator may be replaced by what became of it. -/
theorem Workspace.Means.keep (h : w.Means M A q meanings) {step : Nat} {P : Sandwich K S}
    {f : Values K} (hmeaning : meanings.getD step .nothing = .sandwich f)
    (hP : StepResult.Means M A q w.target (.sandwich P) (.sandwich f)) :
    Workspace.Means M A q
      { w with results := w.results.setIfInBounds step (.sandwich P) } meanings where
  ready := h.ready
  size_eq := by rw [Array.size_setIfInBounds, h.size_eq]
  results i := by
    have hold := h.results i
    rw [Array.getD_eq_getD_getElem?] at hold ⊢
    rw [Array.getElem?_setIfInBounds]
    by_cases hi : step = i
    · subst hi
      rw [if_pos rfl]
      by_cases hlt : step < w.results.size
      · rw [if_pos hlt, hmeaning]
        exact hP
      · rw [if_neg hlt]
        rw [Array.getElem?_eq_none (Nat.not_lt.1 hlt)] at hold
        exact hold
    · rw [if_neg hi]
      exact hold

end

namespace Work.Meets

variable [ExactNumber K] {α β γ δ : Type} {r : σ → α → β → Prop} {r' : σ → γ → δ → Prop}

theorem pure (h : w.Means M A q meanings) {a : α} {b : β} (hr : r w.target a b) :
    Meets M A q meanings (Pure.pure a) w (.ok b) r :=
  ⟨.refl h.ready.ready, h, .ok hr⟩

theorem throw (h : w.Means M A q meanings) (e : StepError K) :
    Meets M A q meanings (MonadExcept.throw e) w (.error e) r :=
  ⟨.refl h.ready.ready, h, .error e⟩

theorem bind {c : Work σ K S α} {outcome : Except (StepError K) β} {k : α → Work σ K S γ}
    {next : β → Except (StepError K) δ} (hc : Meets M A q meanings c w outcome r)
    (hk : ∀ a b w', outcome = .ok b → w'.Means M A q meanings →
      M.Advances w.target w'.target → r w'.target a b →
      Meets M A q meanings (k a) w' (next b) r') :
    Meets M A q meanings (c >>= k) w (outcome >>= next) r' := by
  obtain ⟨hadv, hw, hcorresponds⟩ := hc
  have hrun : (c >>= k).run.run w =
      (ExceptT.bindCont k (c.run.run w).1).run (c.run.run w).2 := rfl
  have hafter : Yields (ExceptT.bindCont k (c.run.run w).1) (c.run.run w).2 fun result w' =>
      M.Advances w.target w'.target ∧ w'.Means M A q meanings ∧
        Corresponds (r' w'.target) result (outcome >>= next) := by
    change Corresponds (r (c.run.run w).2.target) (c.run.run w).1 outcome at hcorresponds
    generalize (c.run.run w).1 = result at hcorresponds ⊢
    cases hcorresponds with
    | error e => exact ⟨hadv, hw, .error e⟩
    | ok hr =>
      obtain ⟨hadv', hw', hcorresponds'⟩ := hk _ _ _ rfl hw hadv hr
      exact ⟨hadv.trans hadv', hw', hcorresponds'⟩
  unfold Meets Yields
  rw [hrun]
  exact hafter

theorem bind_ok {c : Work σ K S α} {b : β} {k : α → Work σ K S γ}
    {outcome : Except (StepError K) δ} (hc : Meets M A q meanings c w (.ok b) r)
    (hk : ∀ a w', w'.Means M A q meanings → M.Advances w.target w'.target → r w'.target a b →
      Meets M A q meanings (k a) w' outcome r') :
    Meets M A q meanings (c >>= k) w outcome r' := by
  have hbind : Meets M A q meanings (c >>= k) w
      ((Except.ok b : Except (StepError K) β) >>= fun _ => outcome) r' := by
    refine .bind hc fun a b' w' hb hw' hadv hr => ?_
    obtain rfl := Except.ok.inj hb
    exact hk a w' hw' hadv hr
  exact hbind

/-- The same computation for each element of a list. What one of them gives may not be lost by what
comes later. -/
theorem mapM {f : γ → Work σ K S α} {g : γ → Except (StepError K) β}
    (hmono : ∀ s s' a b, M.Extends s s' → r s a b → r s' a b) {l : List γ}
    (h : ∀ c ∈ l, ∀ w' : Workspace σ K S, w'.Means M A q meanings →
      Meets M A q meanings (f c) w' (g c) r) (hw : w.Means M A q meanings) :
    Meets M A q meanings (l.mapM f) w (l.mapM g) fun s => List.Forall₂ (r s) := by
  induction l generalizing w with
  | nil => exact .pure hw .nil
  | cons c rest ih =>
    rw [List.mapM_cons, List.mapM_cons]
    refine .bind (h c List.mem_cons_self w hw) fun a b w₁ _ hw₁ _ hr => ?_
    refine .bind (ih (fun d hd => h d (List.mem_cons_of_mem c hd)) hw₁)
      fun as bs w₂ _ hw₂ hadv hrs => ?_
    exact .pure hw₂ (.cons (hmono _ _ _ _ hadv.symbols hr) hrs)

theorem onTarget (hw : w.Means M A q meanings) {action : StateM σ α} {b : β}
    (h : Yields action w.target fun a s' => M.Advances w.target s' ∧ r s' a b) :
    Meets M A q meanings (Work.onTarget action) w (.ok b) r :=
  ⟨h.1, hw.advance h.1, .ok h.2⟩

theorem emission (hw : w.Means M A q meanings) {action : Emission σ K α} {b : β}
    (h : action.Gives w.target fun a s' => M.Advances w.target s' ∧ r s' a b) :
    Meets M A q meanings (Work.emission action) w (.ok b) r := by
  have htarget := onTarget (M := M) (A := A) (q := q) (b := b) hw
    (r := fun s' result b => ∃ a, result = .ok a ∧ r s' a b)
    (Yields.mono h.run fun result s' ⟨a, hresult, hadv, hr⟩ => ⟨hadv, a, hresult, hr⟩)
  refine .bind_ok htarget ?_
  rintro _ w' hw' - ⟨a, rfl, hr⟩
  exact .pure hw' hr

theorem emission_fails (hw : w.Means M A q meanings) {action : Emission σ K α}
    {e : AlgebraError K} (h : action.Fails w.target e fun s' => M.Advances w.target s') :
    Meets M A q meanings (Work.emission action) w (.error (.failed e)) r := by
  have htarget := onTarget (M := M) (A := A) (q := q) (b := ()) hw
    (r := fun _ result _ => result = .error e)
    (Yields.mono h.run fun result s' ⟨hresult, hadv⟩ => ⟨hadv, hresult⟩)
  refine .bind_ok htarget ?_
  rintro _ w' hw' - rfl
  exact .throw hw' _

theorem map {c : Work σ K S α} {outcome : Except (StepError K) β} {φ : α → γ} {ψ : β → δ}
    (hc : Meets M A q meanings c w outcome r) (hr : ∀ s a b, r s a b → r' s (φ a) (ψ b)) :
    Meets M A q meanings (φ <$> c) w (outcome.map ψ) r' := by
  have hmap : outcome.map ψ = outcome >>= fun b => Except.ok (ψ b) := by cases outcome <;> rfl
  rw [map_eq_pure_bind, hmap]
  exact .bind hc fun a b w' _ hw' _ h => .pure hw' (hr _ _ _ h)

end Work.Meets

/-! ### References -/

namespace Work

variable [ExactNumber K]

theorem resultAt_meets (hw : w.Means M A q meanings) (step : Nat) :
    Meets M A q meanings (resultAt step) w (Meaning.resultAt meanings step)
      (StepResult.Means M A q) :=
  ⟨.refl hw.ready.ready, hw, .ok (hw.results step)⟩

theorem multivector_meets (hw : w.Means M A q meanings) (ref : MvRef) :
    Meets M A q meanings (multivector ref) w (Meaning.multivectorAt meanings ref)
      (M.Represents A) := by
  cases ref with
  | result step =>
    refine .bind (resultAt_meets hw step) ?_
    rintro result meaning w' - hw' - hmeans
    cases hmeans with
    | multivector hm => exact .pure hw' hm
    | nothing | scalar _ | sandwich _ _ => exact .throw hw' .noValue
  | item step index =>
    have hthrow : Meets M A q meanings (multivector (.item step index)) w
        (Meaning.resultAt meanings step >>= fun _ => Except.error StepError.noValue)
        (M.Represents A) := by
      refine .bind (resultAt_meets hw step) ?_
      rintro result meaning w' - hw' - hmeans
      cases hmeans <;> exact .throw hw' .noValue
    exact hthrow

theorem multivectors_meet (hw : w.Means M A q meanings) (refs : List MvRef) :
    Meets M A q meanings (multivectors refs) w (refs.mapM (Meaning.multivectorAt meanings))
      fun s => List.Forall₂ (M.Represents A s) :=
  .mapM (fun _ _ _ _ hext h => h.mono hext) (fun ref _ _ hw' => multivector_meets hw' ref) hw

theorem means_sandwich {R : Multivector K S} {P : Sandwich K S} {f : Values K}
    (hP : Sandwich.Valid M A R q f s P) (hunit : R.knownUnit = true → f.Unital) :
    StepResult.Means M A q s (.sandwich P) (.sandwich f) := by
  obtain rfl := hP.operator
  exact .sandwich hP hunit

theorem prepared_meets (hw : w.Means M A q meanings) (step : Nat) :
    Meets M A q meanings (prepared step) w (Meaning.preparedAt meanings step)
      fun s P f => StepResult.Means M A q s (.sandwich P) (.sandwich f) := by
  refine .bind (resultAt_meets hw step) ?_
  rintro result meaning w' - hw' - hmeans
  cases hmeans with
  | sandwich hP hunit => exact .pure hw' (.sandwich hP hunit)
  | nothing | scalar _ | multivector _ => exact .throw hw' .noValue

theorem keep_meets (hw : w.Means M A q meanings) {step : Nat} {P : Sandwich K S} {f : Values K}
    (hmeaning : meanings.getD step .nothing = .sandwich f)
    (hP : StepResult.Means M A q w.target (.sandwich P) (.sandwich f)) :
    Meets M A q meanings (keep step P) w (.ok ()) fun _ _ _ => True :=
  ⟨.refl hw.ready.ready, hw.keep hmeaning hP, .ok trivial⟩

end Work

/-! ### Inputs -/

/-- An algebra and a source of inputs are what an interpretation says. Unit norms are not
verified. -/
structure Interpretation.Fits [ExactNumber K] (I : Interpretation K) (M : Reading σ K S V)
    (A : Algebra K S) (input : InputSource σ K S) : Prop where
  dimension_eq : A.dimension = I.dimension
  bladeNamed?_eq : A.bladeNamed? = I.bladeNamed?
  tolerance : A.settings.unitTolerance? = none
  inputs : ∀ name, ∃ action, input name = some action ∧ ∀ s, M.Open s [] →
    Yields action s fun f s' => M.Advances s s' ∧ M.HasValue s' f (I.inputs name)

namespace Work

variable [ExactNumber K] {I : Interpretation K} {input : InputSource σ K S}

theorem factor_meets (hI : I.Fits M A input) (hw : w.Means M A q meanings) (ref : FactorRef K) :
    Meets M A q meanings (factor input ref) w (I.factor meanings ref) M.HasValue := by
  cases ref with
  | number x => exact .pure hw ⟨Reading.known_number x, rfl⟩
  | input name =>
    obtain ⟨action, haction, hyields⟩ := hI.inputs name
    rw [factor, haction]
    exact .onTarget hw (hyields _ hw.ready.ready)
  | coefficient m b =>
    refine .bind (multivector_meets hw m) ?_
    rintro m f w' - hw' - hm
    exact .pure hw' (hm.hasValue b)
  | result step =>
    refine .bind (resultAt_meets hw step) ?_
    rintro result meaning w' - hw' - hmeans
    cases hmeans with
    | scalar hx => exact .pure hw' hx
    | nothing | multivector _ | sandwich _ _ => exact .throw hw' .noValue

theorem factors_meet (hI : I.Fits M A input) (hw : w.Means M A q meanings)
    (refs : List (FactorRef K)) :
    Meets M A q meanings (factors input refs) w (refs.mapM (I.factor meanings))
      fun s => List.Forall₂ (M.HasValue s) :=
  .mapM (r := M.HasValue) (fun _ _ _ _ hext h => hext.hasValue h)
    (fun ref _ _ hw' => factor_meets hI hw' ref) hw

theorem matrix_meets (hI : I.Fits M A input) (hw : w.Means M A q meanings)
    (rows : List (List (Option (FactorRef K)))) :
    Meets M A q meanings (matrix input rows) w (I.matrix meanings rows) M.HasMatrix := by
  refine .mapM (r := M.HasRow) (fun _ _ _ _ hext h => Reading.HasRow.mono h hext)
    (fun row _ w' hw' => ?_) hw
  refine .mapM (r := fun s => Option.Rel (M.HasValue s))
    (fun _ _ _ _ hext h => Reading.hasEntry_mono h hext) (fun entry _ w' hw' => ?_) hw'
  cases entry with
  | none => exact .pure hw' .none
  | some ref =>
    refine .bind (factor_meets hI hw' ref) ?_
    rintro f x w'' - hw'' - hf
    exact .pure hw'' (.some hf)

end Work

end Clifford
