import Clifford.Proofs.Script.Membership
import Clifford.Proofs.Target.Framing
import Mathlib.Data.List.Perm.Basic

/-!
# Sessions

A session is everything that may be done with one target: algebras are created, steps are made in
any of them, and scalars and multivectors are built term by term, several at a time and with
anything else in between.

## Main definitions

- `Construction` — a scalar or a multivector that is being built
- `Action` — what may be done next
- `Session.perform`, `Session.run` — one action, and several
- `Session.Sane` — the target is in order, and everything that was made has values

## Main results

- `Session.Sane.run` — sessions stay sane, whatever is done
-/

namespace Clifford

variable {σ K S V : Type}

/-- A scalar or a multivector that is being built. -/
inductive Construction (K S V : Type) where
  /-- A scalar, whose value may be read at any time. -/
  | scalar (accumulator : Accumulator K S V)
  /-- A multivector of an algebra. -/
  | multivector (A : Algebra K S) (draft : Draft K V)
  /-- What became of a multivector once it was read. -/
  | finished

/-- What may be done next. Algebras, results and constructions are referred to by number. -/
inductive Action (K : Type) where
  /-- Creates an algebra. -/
  | algebra (metric : List (FactorRef K)) (names : List String) (settings : Settings K)
  /-- Makes a step in an algebra. -/
  | step (algebra : Nat) (step : Step K)
  /-- Begins a scalar. -/
  | scalar (name : String)
  /-- Begins a multivector. -/
  | multivector (algebra : Nat)
  /-- Adds a term to what is being built; a scalar has no blades. -/
  | add (construction : Nat) (blade : Blade) (term : List (FactorRef K)) (negate : Bool)
  /-- Reads what was built. -/
  | read (construction : Nat)
  /-- Emits a separator. -/
  | space
  /-- Emits a remark. -/
  | comment (text : String)

/-- A target with everything that was made for it. -/
structure Session (σ K S V : Type) where
  /-- The state of the target, and one result for each action. -/
  workspace : Workspace σ K S
  /-- The algebras. -/
  algebras : List (Algebra K S) := []
  /-- The scalars and multivectors that are being built. -/
  constructions : List (Construction K S V) := []

namespace Construction

variable [Number K] [Target σ K S V]

/-- Adds a term. A scalar whose value was read stays as it is, and so does a finished
multivector. -/
def add (c : Contribution K S) : Construction K S V → StateM σ (Construction K S V)
  | scalar accumulator => do
    match ← (accumulator.add c.term c.negate).run with
    | .ok accumulator => pure (scalar accumulator)
    | .error _ => pure (scalar accumulator)
  | multivector A draft => do
    let draft ← draft.add A.cellName c
    pure (multivector A draft)
  | finished => pure finished

/-- Reads what was built. -/
def read : Construction K S V → StateM σ (StepResult K S × Construction K S V)
  | scalar accumulator => do
    let (value, accumulator) ← accumulator.value
    pure (.scalar value, scalar accumulator)
  | multivector A draft => do
    let components ← draft.close
    pure (.multivector { owner := A.id, components }, finished)
  | finished => pure (.nothing, finished)

end Construction

namespace Session

/-- Adds a result. -/
def push (session : Session σ K S V) (result : StepResult K S) : Session σ K S V :=
  { session with workspace := session.workspace.push result }

/-- Works on one of the constructions, if it is there, and keeps the result. -/
def change (session : Session σ K S V) (k : Nat)
    (action : Construction K S V → StateM σ (StepResult K S × Construction K S V)) :
    Session σ K S V :=
  match session.constructions[k]? with
  | none => session.push .nothing
  | some c =>
    let ((result, c), target) := (action c).run session.workspace.target
    { session with
      workspace := { session.workspace with target }.push result
      constructions := session.constructions.set k c }

/-- Makes something of several factors, if all of them are there. -/
def given [Number K] (session : Session σ K S V) (input : InputSource σ K S)
    (refs : List (FactorRef K)) (next : Session σ K S V → Term K S → Session σ K S V) :
    Session σ K S V :=
  match (Work.factors input refs).run.run session.workspace with
  | (.ok factors, workspace) => next { session with workspace } factors
  | (.error _, workspace) => push { session with workspace } .nothing

/-- Drives the target, and keeps no result. -/
def drive {α : Type} (session : Session σ K S V) (action : StateM σ α) : Session σ K S V :=
  { session with
    workspace := { session.workspace with target := (action.run session.workspace.target).2 } }

/-- Calls the target. -/
def emit (session : Session σ K S V) (call : StateM σ Unit) : Session σ K S V :=
  let ((), target) := call.run session.workspace.target
  push { session with workspace := { session.workspace with target } } .nothing

variable [Number K] [Ord S] [Target σ K S V]

/-- The session after an action. -/
def perform (input : InputSource σ K S) (session : Session σ K S V) :
    Action K → Session σ K S V
  | .algebra metric names settings =>
    session.given input metric fun session metric =>
      match Algebra.create session.algebras.length metric names settings with
      | .ok A => push { session with algebras := session.algebras ++ [A] } .nothing
      | .error _ => session.push .nothing
  | .step i step =>
    match session.algebras[i]? with
    | some A => { session with workspace := (session.workspace.runStep A input step).2 }
    | none => session.push .nothing
  | .scalar name =>
    push { session with constructions := session.constructions ++ [.scalar (.new name)] } .nothing
  | .multivector i =>
    match session.algebras[i]? with
    | some A => push { session with
        constructions := session.constructions ++ [.multivector A []] } .nothing
    | none => session.push .nothing
  | .add k blade term negate =>
    session.given input term fun session term =>
      session.change k fun c => do
        let c ← c.add { blade, term, negate }
        pure (.nothing, c)
  | .read k => session.change k Construction.read
  | .space => session.emit Target.space
  | .comment text => session.emit (Target.comment text)

/-- The session after several actions. -/
def run (input : InputSource σ K S) (session : Session σ K S V) (actions : List (Action K)) :
    Session σ K S V :=
  actions.foldl (fun session action => session.perform input action) session

end Session

/-! ### What guarantees depend on -/

section

variable {M M' : Reading σ K S V} {s : σ}

theorem Reading.Known.congr {f : Factor K S} (h : M.Known s f) (hsame : M'.eval? = M.eval?) :
    M'.Known s f := fun t ht => hsame ▸ h t ht

theorem Reading.Proper.congr {m : Multivector K S} (h : M.Proper s m)
    (hsame : M'.eval? = M.eval?) : M'.Proper s m :=
  ⟨h.nodup, fun c hc => .congr (h.known c hc) hsame⟩

theorem Reading.ProperCircle.congr {c : Slerp K S} (h : M.ProperCircle s c)
    (hsame : M'.eval? = M.eval?) : M'.ProperCircle s c :=
  ⟨h.first.congr hsame, h.last.congr hsame, .congr h.angle hsame, .congr h.sine hsame⟩

theorem Sandwich.Proper.congr {P : Sandwich K S} (h : P.Proper M s)
    (hsame : M'.eval? = M.eval?) : P.Proper M' s where
  operator := h.operator.congr hsame
  metric square hsquare := .congr (h.metric square hsquare) hsame
  products entry hentry := .congr (h.products entry hentry) hsame

/-- Which things have values depends on the values of symbols alone. -/
theorem Guarantees.proper_congr (hsame : M'.eval? = M.eval?) : proper M' = proper M := by
  have hm : ∀ s m, M'.Proper s m ↔ M.Proper s m :=
    fun s m => ⟨fun h => h.congr hsame.symm, fun h => h.congr hsame⟩
  have hf : ∀ s f, M'.Known s f ↔ M.Known s f :=
    fun s f => ⟨fun h => h.congr hsame.symm, fun h => h.congr hsame⟩
  have hP : ∀ s (P : Sandwich K S), P.Proper M' s ↔ P.Proper M s :=
    fun s P => ⟨fun h => h.congr hsame.symm, fun h => h.congr hsame⟩
  have hc : ∀ s c, M'.ProperCircle s c ↔ M.ProperCircle s c :=
    fun s c => ⟨fun h => h.congr hsame.symm, fun h => h.congr hsame⟩
  simp only [proper, hm, hf, hP, hc]

/-- So it does not depend on which storages are open. -/
theorem Guarantees.proper_framed (M : Reading σ K S V) (frame : List V) :
    proper (M.framed frame) = proper M := proper_congr rfl

end

/-! ### Sane sessions -/

namespace Construction

/-- The storages of what is being built. -/
def storages : Construction K S V → List V
  | scalar (.building cell) => cell.storages
  | scalar (.frozen _ _) | finished => []
  | multivector _ draft => draft.storages

/-- A value that was read is there, and no blade is listed twice. -/
def Proper (M : Reading σ K S V) (s : σ) : Construction K S V → Prop
  | scalar (.building _) | finished => True
  | scalar (.frozen _ value) => M.Known s value
  | multivector _ draft => draft.blades.Nodup

variable {M M' : Reading σ K S V} {s s' : σ} {c : Construction K S V}

theorem Proper.congr (h : c.Proper M s) (hsame : M'.eval? = M.eval?) : c.Proper M' s := by
  rcases c with (cell | ⟨name, value⟩) | ⟨A, draft⟩ | _
  · trivial
  · exact Reading.Known.congr h hsame
  · exact h
  · trivial

theorem Proper.mono (h : c.Proper M s) (hext : M.Extends s s') : c.Proper M s' := by
  rcases c with (cell | ⟨name, value⟩) | ⟨A, draft⟩ | _
  · trivial
  · exact hext.known h
  · exact h
  · trivial

variable [Number K] [Target σ K S V] {others : List V}

theorem add_yields (hM : M.Steady) {contribution : Contribution K S}
    (hopen : M.Open s (c.storages ++ others)) (hc : c.Proper M s)
    (hterm : M.KnownTerm s contribution.term) :
    Yields (c.add contribution) s fun c' s' =>
      M.Extends s s' ∧ M.Open s' (c'.storages ++ others) ∧ c'.Proper M s' := by
  rcases c with (cell | ⟨name, value⟩) | ⟨A, draft⟩ | _
  · have hadd : ((Accumulator.building cell : Accumulator K S V).add contribution.term
        contribution.negate : Emission σ K _).Gives s fun accumulator s' =>
          M.Extends s s' ∧ M.Open s' ((scalar accumulator).storages ++ others) ∧
            (scalar accumulator).Proper M s' := by
      refine .bind (.lift (Yields.mono (Cell.add_steady hM _ hopen hterm) ?_))
      rintro cell' s' ⟨hext, hopen'⟩
      exact .pure ⟨hext, hopen', trivial⟩
    refine Yields.bind (Yields.mono hadd.run ?_)
    rintro _ s' ⟨accumulator, rfl, h⟩
    exact .pure h
  · -- The value was read, so the term is refused.
    exact .pure ⟨.refl M s, hopen, hc⟩
  · refine Yields.bind (Yields.mono (Draft.add_steady hM A.cellName hopen hterm) ?_)
    rintro draft' s' ⟨hext, hopen', hblades⟩
    refine .pure ⟨hext, hopen', ?_⟩
    rw [Proper, hblades]
    exact Draft.nodup_touch hc
  · exact .pure ⟨.refl M s, hopen, hc⟩

theorem read_yields (hM : M.Steady) (hopen : M.Open s (c.storages ++ others)) (hc : c.Proper M s) :
    Yields (c.read (σ := σ)) s fun r s' =>
      M.Extends s s' ∧ M.Open s' (r.2.storages ++ others) ∧ r.2.Proper M s' ∧
        (Guarantees.proper M).Result s' r.1 := by
  rcases c with (cell | ⟨name, value⟩) | ⟨A, draft⟩ | _
  · refine Yields.bind (Yields.bind (Yields.mono (Cell.close_steady hM hopen) ?_))
    rintro value s' ⟨hext, hopen', hknown⟩
    exact .pure (.pure ⟨hext, hopen', hknown, hknown⟩)
  · exact .pure ⟨.refl M s, hopen, hc, hc⟩
  · refine Yields.bind (Yields.mono (Draft.close_steady hM hopen) ?_)
    rintro cs s' ⟨hext, hopen', hblades, hknown⟩
    refine .pure ⟨hext, hopen', trivial, ?_, hknown⟩
    rw [Multivector.blades, hblades]
    exact hc
  · exact .pure ⟨.refl M s, hopen, trivial, trivial⟩

end Construction

theorem Algebra.metric_of_create {id : Nat} {metric : Metric K S} {names : List String}
    {settings : Settings K} {A : Algebra K S}
    (h : Algebra.create id metric names settings = .ok A) : A.metric = metric := by
  unfold Algebra.create at h
  split at h
  · split at h
    · cases h
      rfl
    · cases h
  · cases h

namespace Session

/-- The storages of everything that is being built. -/
def storages (session : Session σ K S V) : List V :=
  session.constructions.flatMap Construction.storages

/-- The target is in order, with the storages of all constructions open, and everything that was
made has values. -/
structure Sane (M : Reading σ K S V) (session : Session σ K S V) : Prop where
  ready : M.Open session.workspace.target session.storages
  results : ∀ i, (Guarantees.proper M).Result session.workspace.target
    (session.workspace.results.getD i .nothing)
  metrics : ∀ A ∈ session.algebras, ∀ square ∈ A.metric,
    M.Known session.workspace.target square
  constructions : ∀ c ∈ session.constructions, c.Proper M session.workspace.target

/-- The algebra without basis vectors. -/
def point (K S : Type) : Algebra K S where
  id := 0
  metric := []
  names := #[""]
  dimension_le := Nat.zero_le _
  size_names := rfl

variable {M M' : Reading σ K S V} {A : Algebra K S} {q : Nat → K} {session : Session σ K S V}
  {w : Workspace σ K S}

namespace Sane

theorem start {s : σ} (h : M.Open s []) : Sane M { workspace := { target := s } } :=
  ⟨h, fun _ => trivial, nofun, nofun⟩

variable [Number K]

theorem holds (h : session.Sane M) (hA : ∀ square ∈ A.metric,
      M.Known session.workspace.target square) :
    (Guarantees.proper M).Holds (M.framed session.storages) A
      (M.squares session.workspace.target A.metric) session.workspace :=
  ⟨⟨h.ready, Reading.squares_spec hA⟩, h.results⟩

/-- The workspace may change while the constructions stay as they are. -/
theorem enter (h : session.Sane M) (hext : M.Extends session.workspace.target w.target)
    (hw : (Guarantees.proper M).Holds (M.framed session.storages) A q w) :
    Sane M { session with workspace := w } where
  ready := hw.ready.ready
  results := hw.results
  metrics A hA square hsquare := hext.known (h.metrics A hA square hsquare)
  constructions c hc := (h.constructions c hc).mono hext

theorem push (h : session.Sane M) {result : StepResult K S}
    (hresult : (Guarantees.proper M).Result session.workspace.target result) :
    (session.push result).Sane M :=
  h.enter (.refl M _) ((h.holds (A := point K S) nofun).push hresult)

theorem push_nothing (h : session.Sane M) : (session.push .nothing).Sane M := h.push trivial

/-- Factors are read without touching what is being built. -/
theorem given {input : InputSource σ K S} {refs : List (FactorRef K)}
    {next : Session σ K S V → Term K S → Session σ K S V} (h : session.Sane M)
    (hinput : ∀ frame, (Guarantees.proper M).Supplied (M.framed frame) input)
    (hnext : ∀ session' factors, Sane M session' →
      M.KnownTerm session'.workspace.target factors → (next session' factors).Sane M) :
    (session.given input refs next).Sane M := by
  have hlasting : (Guarantees.proper M).Lasting (M.framed session.storages) := by
    rw [← Guarantees.proper_framed M session.storages]
    exact Guarantees.lasting_proper _
  obtain ⟨hadv, hw, hfactors⟩ := Guarantees.factors_keeps hlasting (hinput session.storages)
    (h.holds (A := point K S) nofun) refs
  unfold Session.given
  rcases hrun : (Work.factors input refs).run.run session.workspace with ⟨e | factors, w⟩
  · rw [hrun] at hadv hw
    exact (h.enter hadv.symbols hw).push_nothing
  · rw [hrun] at hadv hw hfactors
    exact hnext _ factors (h.enter hadv.symbols hw) (hfactors factors rfl)

omit [Number K] in
/-- Something without any storage may be begun. -/
theorem begin (h : session.Sane M) {c : Construction K S V}
    (hc : c.Proper M session.workspace.target) (hstorages : c.storages = []) :
    Sane M { session with constructions := session.constructions ++ [c] } where
  ready := by
    have hsame : (session.constructions ++ [c]).flatMap Construction.storages =
        session.storages := by
      rw [List.flatMap_append, List.flatMap_singleton, hstorages, List.append_nil]
      rfl
    have hready := h.ready
    rw [← hsame] at hready
    exact hready
  results := h.results
  metrics := h.metrics
  constructions := List.forall_mem_append.2 ⟨h.constructions, List.forall_mem_singleton.2 hc⟩

/-- The target may be used for something else, as long as this leaves the storages of all
constructions open. Which other storages are open does not matter. -/
theorem drive {α : Type} (h : session.Sane M) (hsame : M'.eval? = M.eval?) {action : StateM σ α}
    (haction : Yields action session.workspace.target fun _ s' =>
      M.Extends session.workspace.target s' ∧ M'.Open s' session.storages) :
    (session.drive action).Sane M' := by
  obtain ⟨hext, hopen⟩ := haction
  refine ⟨hopen, fun i => ?_, fun A hA square hsquare => ?_, fun c hc => ?_⟩
  · rw [Guarantees.proper_congr hsame]
    exact (h.results i).mono (Guarantees.lasting_proper M) hext
  · exact .congr (hext.known (h.metrics A hA square hsquare)) hsame
  · exact ((h.constructions c hc).mono hext).congr hsame

/-- A call of the target that has no result. -/
theorem emit (h : session.Sane M) {call : StateM σ Unit}
    (hcall : Yields call session.workspace.target fun _ s' =>
      M.Extends session.workspace.target s' ∧ M.Open s' session.storages) :
    (session.emit call).Sane M :=
  (h.drive rfl hcall).push_nothing

variable [Target σ K S V]

/-- Work on one construction leaves the others alone. -/
theorem change (hM : M.Steady) (h : session.Sane M) (k : Nat)
    {action : Construction K S V → StateM σ (StepResult K S × Construction K S V)}
    (haction : ∀ c others, M.Open session.workspace.target (c.storages ++ others) →
      c.Proper M session.workspace.target →
      Yields (action c) session.workspace.target fun r s' =>
        M.Extends session.workspace.target s' ∧ M.Open s' (r.2.storages ++ others) ∧
          r.2.Proper M s' ∧ (Guarantees.proper M).Result s' r.1) :
    (session.change k action).Sane M := by
  unfold Session.change
  cases hc : session.constructions[k]? with
  | none => exact h.push_nothing
  | some c =>
    -- The storages of the construction are listed first, both before and after.
    obtain ⟨hk, rfl⟩ := List.getElem?_eq_some_iff.1 hc
    have hfirst := (List.getElem_cons_eraseIdx_perm hk).flatMap_right Construction.storages
    rw [List.flatMap_cons] at hfirst
    obtain ⟨hext, hopen, hproper, hresult⟩ := haction session.constructions[k] _
      (hM.perm h.ready hfirst.symm) (h.constructions _ (List.getElem_mem hk))
    dsimp only
    generalize (action session.constructions[k]).run session.workspace.target = after at *
    obtain ⟨⟨result, c'⟩, target⟩ := after
    have hlast := (List.set_perm_cons_eraseIdx hk c').flatMap_right Construction.storages
    rw [List.flatMap_cons] at hlast
    have hafter : Sane M { session with
        workspace := { session.workspace with target }
        constructions := session.constructions.set k c' } := by
      refine ⟨hM.perm hopen hlast.symm, fun i => ?_, fun A hA square hsquare => ?_, ?_⟩
      · exact (h.results i).mono (Guarantees.lasting_proper M) hext
      · exact hext.known (h.metrics A hA square hsquare)
      · intro other hother
        rcases List.mem_or_eq_of_mem_set hother with hother | rfl
        · exact (h.constructions other hother).mono hext
        · exact hproper
    exact hafter.push hresult

variable [Ord S] {input : InputSource σ K S}

/-- **An action keeps a session sane**, whether it succeeds or fails. -/
theorem perform (hM : M.Steady)
    (hinput : ∀ frame, (Guarantees.proper M).Supplied (M.framed frame) input)
    (h : session.Sane M) (action : Action K) : (session.perform input action).Sane M := by
  unfold Session.perform
  cases action with
  | algebra metric names settings =>
    refine h.given hinput fun session' metric h' hmetric => ?_
    cases hcreate : Algebra.create session'.algebras.length metric names settings with
    | error e => exact h'.push_nothing
    | ok A =>
      refine push_nothing ⟨h'.ready, h'.results, List.forall_mem_append.2 ⟨h'.metrics, ?_⟩,
        h'.constructions⟩
      rw [List.forall_mem_singleton, Algebra.metric_of_create hcreate]
      exact hmetric
  | step i step =>
    dsimp only
    cases hA : session.algebras[i]? with
    | none => exact h.push_nothing
    | some A =>
      have hwork := h.holds (h.metrics A (List.mem_of_getElem? hA))
      rw [← Guarantees.proper_framed M session.storages] at hwork
      have hinput' := hinput session.storages
      rw [← Guarantees.proper_framed M session.storages] at hinput'
      obtain ⟨hadv, hafter⟩ := hwork.runStep (Guarantees.lasting_proper _) hinput'
        (step.admits_proper (hM.framed session.storages))
      rw [Guarantees.proper_framed] at hafter
      exact h.enter hadv.symbols hafter
  | scalar name => exact (h.begin (c := .scalar (.new name)) trivial rfl).push_nothing
  | multivector i =>
    dsimp only
    cases session.algebras[i]? with
    | none => exact h.push_nothing
    | some A => exact (h.begin (c := .multivector A []) List.nodup_nil rfl).push_nothing
  | add k blade term negate =>
    refine h.given hinput fun session' term h' hterm => ?_
    refine h'.change hM k fun c others hopen hc => ?_
    refine Yields.bind (Yields.mono (Construction.add_yields hM hopen hc hterm) ?_)
    rintro c' s' ⟨hext, hopen', hc'⟩
    exact .pure ⟨hext, hopen', hc', trivial⟩
  | read k => exact h.change hM k fun c others hopen hc => Construction.read_yields hM hopen hc
  | space => exact h.emit (hM.spaces h.ready)
  | comment text => exact h.emit (hM.comments text h.ready)

/-- **A session stays sane**, whatever is done. -/
theorem run (hM : M.Steady)
    (hinput : ∀ frame, (Guarantees.proper M).Supplied (M.framed frame) input)
    (h : session.Sane M) (actions : List (Action K)) : (session.run input actions).Sane M := by
  induction actions generalizing session with
  | nil => exact h
  | cons action rest ih => exact ih (h.perform hM hinput action)

end Sane

end Session

end Clifford
