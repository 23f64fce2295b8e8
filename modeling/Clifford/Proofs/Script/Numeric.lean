import Clifford.Proofs.Script.Muting
import Clifford.Proofs.Script.Permanence
import Clifford.Proofs.Target.Calls
import Clifford.Proofs.Target.Numbers

/-!
# Numbers stay numbers

Where all entries of metrics and all inputs are numbers, everything that is made consists of
numbers, and nothing is asked of the target: no storage is opened, no term is emitted, no function
and no operator is applied. The target only hears of the operations that announce themselves, and
not even this where no algebra asks for it.

## Main definitions

- `Monitored` — a target together with all the calls that it has received
- `Guarantees.quiet` — operators that steps have prepared do not announce themselves

## Main results

- `Session.Quiet.perform`, `Session.Quiet.run_silent` — a quiet session remains quiet, and muting
  its target changes nothing
- `Session.numeric_run` — sessions on numbers
-/

namespace Clifford

variable {σ K S V : Type} [Number K]

/-- Inputs that are numbers. -/
def numericInputs (values : String → Option K) : InputSource σ K S :=
  fun name => (values name).map fun x => pure (.number x)

theorem supplied_numericInputs {G : Guarantees σ K S} {M : Reading σ K S V} (hG : G.Lasting M)
    (M' : Reading σ K S V) (values : String → Option K) :
    G.Supplied M' (numericInputs values) := by
  intro name action haction s hopen
  obtain ⟨x, -, rfl⟩ := Option.map_eq_some_iff.1 haction
  exact .pure ⟨.refl hopen, hG.number x⟩

/-! ### Quiet sessions -/

section

variable [Target σ K S V] {P : Sandwich K S} {s : σ}

namespace Sandwich

theorem pairValue_algebra (P : Sandwich K S) (pair : Blade × Blade) (s : σ) :
    Yields (P.pairValue pair) s fun r _ => r.2.algebra = P.algebra := by
  rw [pairValue]
  split
  · exact .pure rfl
  split
  · exact .pure rfl
  · exact Yields.bind (Yields.mono (P := fun _ _ => True) trivial fun _ _ _ => .pure rfl)

theorem forceAll_algebra (P : Sandwich K S) (pairs : List (Blade × Blade)) (s : σ) :
    Yields (P.forceAll pairs) s fun P' _ => P'.algebra = P.algebra := by
  induction pairs generalizing P s with
  | nil => exact .pure rfl
  | cons pair rest ih =>
    refine Yields.bind (Yields.mono (pairValue_algebra P pair s) ?_)
    rintro ⟨value, P'⟩ s' hsame
    exact Yields.mono (ih P' s') fun _ _ h => h.trans hsame

theorem emitBuckets_algebra (P : Sandwich K S) (x : Multivector K S) (draft : Draft K V)
    (buckets : List Bucket) (s : σ) :
    Yields (P.emitBuckets x draft buckets) s fun r _ => r.2.algebra = P.algebra := by
  induction buckets generalizing P draft s with
  | nil => exact .pure rfl
  | cons bucket rest ih =>
    rw [emitBuckets]
    split
    · exact ih P draft s
    · refine Yields.bind (Yields.mono (pairValue_algebra P _ s) ?_)
      rintro ⟨value, P'⟩ s₁ hsame
      refine Yields.bind (Yields.mono (P := fun _ _ => True) trivial fun draft' s₂ _ => ?_)
      exact Yields.mono (ih P' draft' s₂) fun _ _ h => h.trans hsame

theorem applyWith_algebra (P : Sandwich K S) (x : Multivector K S) (options : SandwichOptions)
    (s : σ) : Yields (P.applyWith x options) s fun r _ => r.2.algebra = P.algebra := by
  rw [applyWith]
  split
  · exact .pure rfl
  split
  · exact Yields.bind (Yields.mono (forceAll_algebra P _ s) fun _ _ h => .pure h)
  · refine Yields.bind (Yields.mono (P := fun _ _ => True) trivial fun _ s₁ _ => ?_)
    refine Yields.bind (Yields.mono (emitBuckets_algebra P x [] _ s₁) ?_)
    rintro ⟨draft, P'⟩ s₂ hsame
    exact Yields.bind (Yields.mono (P := fun _ _ => True) trivial fun _ _ _ => .pure hsame)

end Sandwich

end

namespace Guarantees

/-- Everything that is made has values, and the operators that steps have prepared do not announce
themselves. -/
def quiet (M : Reading σ K S V) : Guarantees σ K S :=
  { proper M with sandwich := fun s P => P.Proper M s ∧ P.algebra.settings.comments = false }

variable {M : Reading σ K S V} {A : Algebra K S} {q : Nat → K}

theorem lasting_quiet (M : Reading σ K S V) : (quiet M).Lasting M :=
  { lasting_proper M with
    sandwich := fun hext h => ⟨(lasting_proper M).sandwich hext h.1, h.2⟩ }

variable [Target σ K S V] [Ord S]

/-- Every step of an algebra without comments passes on that operators do not announce
themselves. -/
theorem admits_quiet (hM : M.Steady) (hA : A.settings.comments = false) (step : Step K) :
    (quiet M).Admits M A q step := by
  have hproper := Step.admits_proper (A := A) (q := q) hM step
  cases step with
  | sandwich operator =>
    intro s m hready hm
    refine .mono (Algebra.sandwich_proper hready hm) (fun h => h) ?_
    rintro P s' - ⟨hP, rfl⟩
    exact ⟨hP, hA⟩
  | apply step x options =>
    intro s P x hready hP hx
    refine Yields.mono ((hproper s P x hready hP.1 hx).and (P.applyWith_algebra x options s)) ?_
    rintro ⟨result, P'⟩ s' ⟨⟨hadv, hP', hresult⟩, hsame⟩
    exact ⟨hadv, ⟨hP', hsame ▸ hP.2⟩, hresult⟩
  | force step =>
    intro s P hready hP
    refine Yields.mono ((hproper s P hready hP.1).and (P.forceAll_algebra _ s)) ?_
    rintro P' s' ⟨⟨hadv, hP'⟩, hsame⟩
    exact ⟨hadv, hP', hsame ▸ hP.2⟩
  | _ => exact hproper

end Guarantees

omit [Number K] in
theorem Algebra.settings_of_create {id : Nat} {metric : Metric K S} {names : List String}
    {settings : Settings K} {A : Algebra K S}
    (h : Algebra.create id metric names settings = .ok A) : A.settings = settings := by
  unfold Algebra.create at h
  split at h
  · split at h
    · cases h
      rfl
    · cases h
  · cases h

namespace Session.Quiet

variable {session : Session σ K S V} {M : Reading σ K S V} {A : Algebra K S} {q : Nat → K}
  {w : Workspace σ K S} {input : InputSource σ K S}

omit [Number K] in
theorem start (s : σ) : Session.Quiet { workspace := { target := s } : Session σ K S V } where
  algebras := nofun
  prepared _ _ h := by simp at h

omit [Number K] in
/-- A result that is no prepared operator, or one that does not announce itself, may be added. -/
theorem push (h : session.Quiet) {result : StepResult K S}
    (hresult : ∀ P, result = .sandwich P → P.algebra.settings.comments = false) :
    (session.push result).Quiet := by
  refine ⟨h.algebras, fun i P hP => ?_⟩
  change (session.workspace.results.push result).getD i .nothing = .sandwich P at hP
  rw [Array.getD_eq_getD_getElem?, Array.getElem?_push] at hP
  split at hP
  · exact hresult P hP
  · rw [← Array.getD_eq_getD_getElem?] at hP
    exact h.prepared i P hP

omit [Number K] in
theorem push_nothing (h : session.Quiet) : (session.push .nothing).Quiet := h.push nofun

/-- Work in the workspace of a session keeps it quiet if it keeps the guarantees. -/
theorem enter (h : session.Quiet) (hw : (Guarantees.quiet M).Holds M A q w) :
    Session.Quiet { session with workspace := w } := by
  refine ⟨h.algebras, fun i P hP => ?_⟩
  have hresult := hw.results i
  rw [hP] at hresult
  exact hresult.2

theorem holds (h : session.Quiet) (hsane : session.Sane M)
    (hopen : M.Open session.workspace.target [])
    (hA : ∀ square ∈ A.metric, M.Known session.workspace.target square) :
    (Guarantees.quiet M).Holds M A (M.squares session.workspace.target A.metric)
      session.workspace := by
  refine ⟨⟨hopen, Reading.squares_spec hA⟩, fun i => ?_⟩
  have hproper := hsane.results i
  cases hresult : session.workspace.results.getD i .nothing with
  | sandwich P =>
    rw [hresult] at hproper
    exact ⟨hproper, h.prepared i P hresult⟩
  | _ =>
    rw [hresult] at hproper
    exact hproper

/-- Reading factors keeps a session quiet. -/
theorem given (h : session.Quiet) (hsane : session.Sane M)
    (hopen : M.Open session.workspace.target []) (hinput : (Guarantees.quiet M).Supplied M input)
    {refs : List (FactorRef K)} {next : Session σ K S V → Term K S → Session σ K S V}
    (hnext : ∀ session' factors, Session.Quiet session' → (next session' factors).Quiet) :
    (session.given input refs next).Quiet := by
  obtain ⟨-, hw, -⟩ := Guarantees.factors_keeps (Guarantees.lasting_quiet M) hinput
    (h.holds (A := point K S) hsane hopen nofun) refs
  unfold Session.given
  rcases hrun : (Work.factors input refs).run.run session.workspace with ⟨e | factors, w⟩
  · rw [hrun] at hw
    exact (h.enter hw).push_nothing
  · rw [hrun] at hw
    exact hnext _ factors (h.enter hw)

omit [Number K] in
/-- Work on a construction keeps a session quiet if it makes no prepared operator. -/
theorem change (h : session.Quiet) (k : Nat)
    {action : Construction K S V → StateM σ (StepResult K S × Construction K S V)}
    (haction : ∀ c s P, ((action c).run s).1.1 ≠ .sandwich P) :
    (session.change k action).Quiet := by
  unfold Session.change
  split
  · exact h.push_nothing
  · rename_i c hc
    have hquiet : Session.Quiet { session with
        workspace := { session.workspace with
          target := ((action c).run session.workspace.target).2 }
        constructions := session.constructions.set k
          ((action c).run session.workspace.target).1.2 } := ⟨h.algebras, h.prepared⟩
    exact hquiet.push fun P hP => absurd hP (haction c _ P)

variable [Target σ K S V] [Ord S]

/-- **A quiet action keeps a session quiet.** -/
theorem perform (hM : M.Steady) (hinput : (Guarantees.quiet M).Supplied M input) (h : session.Quiet)
    (hsane : session.Sane M) {action : Action K} (haction : action.Quiet) :
    (session.perform input action).Quiet := by
  have hopen : M.Open session.workspace.target [] := by
    have hready := hsane.ready
    rw [← List.append_nil session.storages] at hready
    exact hM.abandon hready
  unfold Session.perform
  cases action with
  | algebra metric names settings =>
    refine h.given hsane hopen hinput fun session' metric h' => ?_
    cases hcreate : Algebra.create session'.algebras.length metric names settings with
    | error e => exact h'.push_nothing
    | ok A =>
      refine push_nothing ⟨List.forall_mem_append.2 ⟨h'.algebras, ?_⟩, h'.prepared⟩
      rw [List.forall_mem_singleton, Algebra.settings_of_create hcreate]
      exact haction
  | step i step =>
    dsimp only
    cases hA : session.algebras[i]? with
    | none => exact h.push_nothing
    | some A =>
      have hmem := List.mem_of_getElem? hA
      obtain ⟨-, hafter⟩ := (h.holds hsane hopen (hsane.metrics A hmem)).runStep
        (Guarantees.lasting_quiet M) hinput (Guarantees.admits_quiet hM (h.algebras A hmem) step)
      exact h.enter hafter
  | scalar name => exact push_nothing ⟨h.algebras, h.prepared⟩
  | multivector i =>
    dsimp only
    cases session.algebras[i]? with
    | none => exact h.push_nothing
    | some A => exact push_nothing ⟨h.algebras, h.prepared⟩
  | add k blade term negate =>
    exact h.given hsane hopen hinput fun session' term h' => h'.change k fun c s P => nofun
  | read k =>
    refine h.change k fun c s P => ?_
    rcases c with (cell | ⟨name, value⟩) | ⟨A, draft⟩ | _ <;> exact nofun
  | space | comment text => exact haction.elim

end Session.Quiet

/-! ### Monitored targets -/

/-- A separator or a remark. -/
def TargetCall.IsRemark : TargetCall K S V → Prop
  | .space | .comment _ => True
  | .makeVar _ _ | .emitTerm _ _ _ _ | .finishVar _ | .applyFunction _ _ _
  | .applyOperator _ _ _ _ => False

/-- A target together with all the calls that it has received, in order. -/
structure Monitored (σ K S V : Type) where
  /-- The state of the target. -/
  target : σ
  /-- The calls. -/
  calls : List (TargetCall K S V) := []

namespace Monitored

/-- Answers a call as the target does, and writes it down. -/
def receive {α : Type} (call : TargetCall K S V) (answer : StateM σ α) :
    StateM (Monitored σ K S V) α :=
  modifyGet fun monitored =>
    let (result, target) := answer.run monitored.target
    (result, { target, calls := monitored.calls ++ [call] })

instance [Target σ K S V] : Target (Monitored σ K S V) K S V where
  makeVar h name := receive (.makeVar h name) (Target.makeVar h name)
  emitTerm v term negate init :=
    receive (.emitTerm v term negate init) (Target.emitTerm v term negate init)
  finishVar v := receive (.finishVar v) (Target.finishVar v)
  applyFunction h f args := receive (.applyFunction h f args) (Target.applyFunction h f args)
  applyOperator h op l r := receive (.applyOperator h op l r) (Target.applyOperator h op l r)
  space := receive .space Target.space
  comment text := receive (.comment text) (Target.comment text)

variable [Target σ K S V]

/-- The reading of a target that has received nothing but remarks. -/
theorem steady_remarks :
    (Reading.numeric fun monitored : Monitored σ K S V =>
      ∀ call ∈ monitored.calls, call.IsRemark).Steady := by
  have hreceive : ∀ (call : TargetCall K S V) (answer : StateM σ Unit), call.IsRemark →
      ∀ monitored : Monitored σ K S V, (∀ call ∈ monitored.calls, call.IsRemark) →
        Yields (receive call answer) monitored fun _ monitored' =>
          ∀ call ∈ monitored'.calls, call.IsRemark := by
    intro call answer hcall monitored hcalls
    exact List.forall_mem_append.2 ⟨hcalls, List.forall_mem_singleton.2 hcall⟩
  exact Reading.steady_numeric (hreceive .space Target.space trivial)
    fun text => hreceive (.comment text) (Target.comment text) trivial

end Monitored

/-! ### Runs -/

namespace Session

variable [Ord S] {session : Session σ K S V} {M : Reading σ K S V} {input : InputSource σ K S}
  {actions : List (Action K)}

section

variable [Target σ K S V]

theorem run_nil (session : Session σ K S V) : session.run input [] = session := rfl

theorem run_cons (session : Session σ K S V) (action : Action K) :
    session.run input (action :: actions) = (session.perform input action).run input actions := rfl

end

/-- **Muting the target changes nothing in a quiet session.** -/
theorem Quiet.run_silent {T : Target σ K S V} (hM : @Reading.Steady σ K S V _ T.muted M)
    (hinput : ∀ frame, (Guarantees.proper M).Supplied (M.framed frame) input)
    (hinput' : (Guarantees.quiet M).Supplied M input) (h : session.Quiet) (hsane : session.Sane M)
    (hactions : ∀ action ∈ actions, action.Quiet) :
    @Session.run σ K S V _ _ T.muted input session actions = session.run input actions := by
  induction actions generalizing session with
  | nil => exact Eq.trans (@run_nil σ K S V _ _ input T.muted session) (run_nil session).symm
  | cons action rest ih =>
    obtain ⟨haction, hrest⟩ := List.forall_mem_cons.1 hactions
    have hsane' := letI := T.muted; hsane.perform hM hinput action
    have hquiet' := letI := T.muted; h.perform hM hinput' hsane haction
    have hstep : @Session.perform σ K S V _ _ T.muted input session action =
        session.perform input action := h.perform_silent input haction T
    rw [hstep] at hsane' hquiet'
    calc @Session.run σ K S V _ _ T.muted input session (action :: rest)
      _ = @Session.run σ K S V _ _ T.muted input (session.perform input action) rest := by
        rw [← hstep]
        exact @run_cons σ K S V _ _ input rest T.muted session action
      _ = (session.perform input action).run input rest := ih hquiet' hsane' hrest
      _ = session.run input (action :: rest) := (run_cons session action).symm

/-- **Numbers never reach a target.** Whatever is done with a target of any kind, where all inputs
are numbers: it hears of separators and remarks only, and not even of these if no action is one and
no algebra has comments on. All coefficients, scalars and entries of metrics that are made are
numbers. -/
theorem numeric_run [Target σ K S V] (values : String → Option K) (s : σ)
    (actions : List (Action K)) :
    let start : Session (Monitored σ K S V) K S V := { workspace := { target := { target := s } } }
    let session := start.run (numericInputs values) actions
    (∀ call ∈ session.workspace.target.calls, call.IsRemark) ∧
      ((∀ action ∈ actions, action.Quiet) → session.workspace.target.calls = []) ∧
      ∀ f ∈ session.factors, ∃ x, f = .number x := by
  intro start session
  have hinput : ∀ (M : Reading (Monitored σ K S V) K S V) (frame : List V),
      (Guarantees.proper M).Supplied (M.framed frame) (numericInputs values) := fun M frame =>
    supplied_numericInputs (Guarantees.lasting_proper M) (M.framed frame) values
  have hstart : start.Sane (.numeric fun monitored => ∀ call ∈ monitored.calls, call.IsRemark) :=
    .start ⟨rfl, nofun⟩
  have hsane := hstart.run Monitored.steady_remarks (hinput _) actions
  refine ⟨hsane.ready.2, fun hactions => ?_, fun f hf =>
    Reading.known_numeric.1 (hsane.knownTerm_factors f hf)⟩
  -- The muted target writes down no remarks, so it has received nothing at all.
  let T : Target (Monitored σ K S V) K S V := inferInstance
  let M : Reading (Monitored σ K S V) K S V := .numeric fun monitored => monitored.calls = []
  have hM : @Reading.Steady _ K S V _ T.muted M :=
    letI := T.muted; Reading.steady_numeric (fun _ h => h) fun _ _ h => h
  have hstart : start.Sane M := .start ⟨rfl, rfl⟩
  have hmuted := letI := T.muted; hstart.run hM (hinput M) actions
  have hsame := Quiet.run_silent hM (hinput M)
    (supplied_numericInputs (Guarantees.lasting_quiet M) M values) (Quiet.start _) hstart hactions
  rw [hsame] at hmuted
  exact hmuted.ready.2

/-- A vector of numbers, its inverse and the reflection of it in itself, for a target that records a
program. -/
theorem numeric_run_reflected :
    let actions : List (Action ℚ) := [.algebra [.number 1, .input "s"] ["1", "e1", "e2", "e12"] {},
      .step 0 (.vector [.number 3, .input "x"]), .step 0 (.unary .inverse (.result 1)),
      .step 0 (.binary .reflect (.result 1) (.result 1))]
    let start : Session (Monitored (Program ℚ) ℚ Handle Slot) ℚ Handle Slot :=
      { workspace := { target := { target := {} } } }
    let session := start.run (numericInputs fun _ => some 2) actions
    (∀ action ∈ actions, action.Quiet) ∧ session.workspace.target.calls = [] ∧
      ∀ f ∈ session.factors, ∃ x, f = .number x := by
  intro actions
  have hactions : ∀ action ∈ actions, action.Quiet := by simp [actions, Action.Quiet]
  have hrun := numeric_run (fun _ => some (2 : ℚ)) ({} : Program ℚ) actions
  exact ⟨hactions, hrun.2.1 hactions, hrun.2.2⟩

end Session

end Clifford
