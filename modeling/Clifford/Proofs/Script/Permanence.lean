import Clifford.Proofs.Number.Rational
import Clifford.Proofs.Program.Growth
import Clifford.Proofs.Script.Compilation
import Clifford.Proofs.Script.Session
import Mathlib.Logic.Relation

/-!
# Results never change their meaning

A program that records a session only grows: whatever is done next, also where it fails halfway,
the expressions, statements, names and definitions that are there stay as they are. So a factor
that some operation has returned has the same value for ever, or none for ever, whatever values the
inputs are given. Nothing here depends on the numbers.

## Main definitions

- `Session.factors` — the factors of everything that was made in a session
- `Program.answers` — the values that an evaluator gives to some factors
- `Recording` — a session that a program records, and components that are built beside it
- `Recording.Next` — one more call, and `Recording.Reachable` — the recordings that calls lead to

## Main results

- `Recording.Sane.next` — every call continues the program, and what is made is stored
- `Recording.Reachable.sane` — in every recording that can be reached all factors are stored
- `Recording.Reachable.permanent` — programs grow, and answers stay the same
-/

namespace Clifford

/-! ### Factors of results -/

section

variable {σ K S V : Type}

/-- The coefficients of a multivector. -/
def Multivector.factors (m : Multivector K S) : Term K S := m.components.map Prod.snd

/-- The factors of a prepared operator: its coefficients, the entries of the metric and the products
found so far. -/
def Sandwich.factors (P : Sandwich K S) : Term K S :=
  P.operator.factors ++ P.algebra.metric ++ P.products.map Prod.snd

/-- The factors of a great circle. -/
def Slerp.factors (c : Slerp K S) : Term K S :=
  c.first.factors ++ c.last.factors ++ [c.angle, c.sine]

/-- The factors of what a step makes. -/
def StepResult.factors : StepResult K S → Term K S
  | .nothing => []
  | .multivector m => m.factors
  | .multivectors ms => ms.flatMap Multivector.factors
  | .scalar f => [f]
  | .sandwich P => P.factors
  | .points circle found =>
    circle.factors ++ (found.filterMap Except.toOption).flatMap Multivector.factors

/-- The value of a scalar that was read. -/
def Construction.factors : Construction K S V → Term K S
  | scalar (.frozen _ value) => [value]
  | scalar (.building _) | multivector _ _ | finished => []

/-- The factors of everything that was made in a session. -/
def Session.factors (session : Session σ K S V) : Term K S :=
  session.workspace.results.toList.flatMap StepResult.factors ++
    session.algebras.flatMap Algebra.metric ++ session.constructions.flatMap Construction.factors

variable {M : Reading σ K S V} {s : σ}

theorem Reading.Proper.knownTerm_factors {m : Multivector K S} (h : M.Proper s m) :
    M.KnownTerm s m.factors := by
  intro f hf
  obtain ⟨c, hc, rfl⟩ := List.mem_map.1 hf
  exact h.known c hc

theorem StepResult.knownTerm_factors {result : StepResult K S}
    (h : (Guarantees.proper M).Result s result) : M.KnownTerm s result.factors := by
  cases result with
  | nothing => exact .nil
  | multivector m => exact Reading.Proper.knownTerm_factors h
  | multivectors ms =>
    intro f hf
    obtain ⟨m, hm, hf⟩ := List.mem_flatMap.1 hf
    exact (h m hm).knownTerm_factors f hf
  | scalar f => exact .cons h .nil
  | sandwich P =>
    have hP : P.Proper M s := h
    refine .append (.append hP.operator.knownTerm_factors hP.metric) fun f hf => ?_
    obtain ⟨entry, hentry, rfl⟩ := List.mem_map.1 hf
    exact hP.products entry hentry
  | points circle found =>
    have hcircle : M.ProperCircle s circle := h.1
    refine .append (.append (.append hcircle.first.knownTerm_factors
      hcircle.last.knownTerm_factors) (.cons hcircle.angle (.cons hcircle.sine .nil))) ?_
    intro f hf
    obtain ⟨m, hm, hf⟩ := List.mem_flatMap.1 hf
    obtain ⟨point, hpoint, hm⟩ := List.mem_filterMap.1 hm
    cases point with
    | error e => cases hm
    | ok point =>
      obtain rfl := Option.some.inj hm
      exact (h.2 point hpoint).knownTerm_factors f hf

theorem Construction.knownTerm_factors {c : Construction K S V} (h : c.Proper M s) :
    M.KnownTerm s c.factors := by
  rcases c with (cell | ⟨name, value⟩) | ⟨A, draft⟩ | _
  · exact .nil
  · exact .cons h .nil
  · exact .nil
  · exact .nil

/-- Everything that was made in a sane session has values. -/
theorem Session.Sane.knownTerm_factors {session : Session σ K S V} (h : session.Sane M) :
    M.KnownTerm session.workspace.target session.factors := by
  refine .append (.append (fun f hf => ?_) fun f hf => ?_) fun f hf => ?_
  · obtain ⟨result, hresult, hf⟩ := List.mem_flatMap.1 hf
    obtain ⟨i, hi⟩ := List.mem_iff_getElem?.1 hresult
    have hthere := h.results i
    rw [Array.getD_eq_getD_getElem?, ← Array.getElem?_toList, hi] at hthere
    exact StepResult.knownTerm_factors hthere f hf
  · obtain ⟨A, hA, hf⟩ := List.mem_flatMap.1 hf
    exact h.metrics A hA f hf
  · obtain ⟨c, hc, hf⟩ := List.mem_flatMap.1 hf
    exact Construction.knownTerm_factors (h.constructions c hc) f hf

end

/-! ### Answers -/

variable {K : Type} [Number K]

namespace Program

/-- The values that an evaluator gives to some factors, after some inputs were bound and it was
asked for the values of other factors. -/
def answers (program : Program K) (values : List (String × K)) (earlier factors : Term K Handle) :
    List (Except EvaluationError K) :=
  let bound := ({ program } : Evaluator K).bindAll values
  let asked := ((Evaluator.factorValues earlier).run bound).2
  ((Evaluator.factorValues factors).run asked).1

variable {program program' : Program K} {valueOf : String → Option K}

/-- What an evaluator was asked before does not matter. -/
theorem WellFormed.answers_eq (h : program.WellFormed) (values : List (String × K))
    (earlier factors : Term K Handle) :
    program.answers values earlier factors =
      factors.map
        (program.factorValue (({ program := {} } : Evaluator K).bindAll values).valueOf) := by
  have hbound : (({ program } : Evaluator K).bindAll values).Right program
      (({ program := {} } : Evaluator K).bindAll values).valueOf :=
    Evaluator.right_bindAll { program } values
  exact (Evaluator.factorValues_yields h
    (Evaluator.factorValues_yields h hbound earlier).2 factors).1

theorem Extends.factorValue_eq (hext : program.Extends program') (h : program.WellFormed)
    (h' : program'.WellFormed) {f : Factor K Handle} (hf : program.HoldsFactor f) :
    program'.factorValue valueOf f = program.factorValue valueOf f := by
  cases f with
  | number x => rfl
  | symbol handle => exact hext.evaluate_eq h h' (hf handle rfl)

end Program

/-! ### Recordings -/

/-- A session that a program records, and the components that are built beside it by calling the
program directly. -/
structure Recording (K : Type) [Number K] where
  /-- The session. -/
  session : Session (Program K) K Handle Slot := { workspace := { target := {} } }
  /-- The components. -/
  slots : List Slot := []

namespace Recording

/-- The program that has been recorded. -/
def program (recording : Recording K) : Program K := recording.session.workspace.target

/-- Calls the program, and keeps no result in the session. -/
def drive {α : Type} (recording : Recording K) (action : StateM (Program K) α)
    (slots : List Slot) : Recording K :=
  { session := recording.session.drive action, slots }

/-- One more call, whether it fails or not. -/
inductive Next : Recording K → Recording K → Prop where
  /-- An action of the session. -/
  | perform (recording : Recording K) (action : Action K) :
      Next recording { recording with
        session := recording.session.perform Program.inputs action }
  /-- An input is created. -/
  | input (recording : Recording K) (name : String) :
      Next recording (recording.drive (Program.input name) recording.slots)
  /-- An expression of stored operands is built. It may read complete variables. -/
  | expression {recording : Recording K} {node : Node K} : recording.program.Admits node →
      Next recording (recording.drive (Program.onArena (Arena.store node)) recording.slots)
  /-- A function is applied. -/
  | call {recording : Recording K} (f : ScalarFunction) {args : Term K Handle} :
      (∀ g ∈ args, recording.program.HoldsFactor g) →
      Next recording (recording.drive (Program.applyFunction f args) recording.slots)
  /-- An operator is applied. -/
  | combine {recording : Recording K} (op : Operator) {l r : Factor K Handle} :
      recording.program.HoldsFactor l → recording.program.HoldsFactor r →
      Next recording (recording.drive (Program.applyOperator op l r) recording.slots)
  /-- A component is opened. -/
  | opens (recording : Recording K) (hint : String) :
      Next recording (recording.drive (Program.openSlot hint)
        (((Program.openSlot hint).run recording.program).1 :: recording.slots))
  /-- A term is added to one of the components. -/
  | augments {recording : Recording K} {slot : Slot} {others : List Slot} {term : Term K Handle}
      (negate init : Bool) : recording.slots.Perm (slot :: others) →
      (∀ f ∈ term, recording.program.HoldsFactor f) →
      Next recording (recording.drive (Program.emitTerm slot term negate init)
        (((Program.emitTerm slot term negate init).run recording.program).1 :: others))
  /-- One of the components is closed. -/
  | closes {recording : Recording K} {slot : Slot} {others : List Slot} :
      recording.slots.Perm (slot :: others) →
      Next recording (recording.drive (Program.closeSlot slot) others)

/-- The recordings that calls lead to. The statements may be forgotten on the way. -/
inductive Reachable : Recording K → Prop where
  | start : Reachable {}
  | next {recording recording' : Recording K} :
      Reachable recording → Next recording recording' → Reachable recording'
  | forget {recording : Recording K} : Reachable recording →
      Reachable (recording.drive (modify Program.clearStatements) recording.slots)

/-- The program continues an earlier one, and everything that was made is stored. -/
def Sane (start : Program K) (recording : Recording K) : Prop :=
  recording.session.Sane ((Program.heldReading start).framed recording.slots)

variable {recording recording' : Recording K} {start : Program K} {slots : List Slot}

/-- Inputs are stored, also while components are open. -/
theorem supplied_inputs (frame : List Slot) :
    (Guarantees.proper ((Program.heldReading start).framed slots)).Supplied
      (((Program.heldReading start).framed slots).framed frame) Program.inputs := by
  rintro name _ ⟨⟩ program ⟨hcont, hintact⟩
  refine Yields.bind (Yields.mono (Program.input_adds hintact.wellFormed name) ?_)
  rintro handle program' ⟨hadds, hheld⟩
  have hext : (Program.heldReading start).Extends program program' :=
    hadds.continues.extends_heldReading start
  refine .pure ⟨⟨hext, hcont.trans hadds.continues, hintact.stores hadds.toStores⟩,
    (Program.known_heldReading start).2 ?_⟩
  rintro _ ⟨⟩
  exact hheld

namespace Sane

theorem wellFormed (h : recording.Sane start) : recording.program.WellFormed :=
  h.ready.2.wellFormed

/-- The program may be called directly, if it continues and the components are those listed. -/
theorem drive {α : Type} (h : recording.Sane start) {action : StateM (Program K) α}
    (haction : Yields action recording.program fun _ program' =>
      recording.program.Continues program' ∧
        program'.Intact (recording.session.storages ++ slots)) :
    (recording.drive action slots).Sane start := by
  obtain ⟨hcont, hintact⟩ := haction
  have hsame : ((Program.heldReading start).framed slots).eval? =
      ((Program.heldReading start).framed recording.slots).eval? := rfl
  exact Session.Sane.drive h hsame ⟨hcont.extends_heldReading start, h.ready.1.trans hcont, hintact⟩

/-- Storing expressions leaves all components alone. -/
theorem drive_adds {α : Type} (h : recording.Sane start) {action : StateM (Program K) α}
    (haction : Yields action recording.program fun _ program' => recording.program.Adds program') :
    (recording.drive action recording.slots).Sane start :=
  h.drive (Yields.mono haction fun _ _ hadds =>
    ⟨hadds.continues, h.ready.2.stores hadds.toStores⟩)

end Sane

/-- One of the components is listed first. -/
theorem Sane.intact_cons (h : recording.Sane start) {slot : Slot} {others : List Slot}
    (hslot : recording.slots.Perm (slot :: others)) :
    recording.program.Intact (slot :: (recording.session.storages ++ others)) := by
  have hperm : (recording.session.storages ++ recording.slots).Perm
      (slot :: (recording.session.storages ++ others)) :=
    (hslot.append_left _).trans List.perm_middle
  exact h.ready.2.perm hperm

/-- **Every call continues the program, and what is made is stored.** -/
theorem Sane.next (h : recording.Sane start) (hnext : Next recording recording') :
    recording'.Sane start := by
  have hintact := h.ready.2
  cases hnext with
  | perform action =>
    exact Session.Sane.perform ((Program.steady_heldReading start).framed recording.slots)
      supplied_inputs h action
  | input name =>
    refine h.drive_adds (Yields.bind (Yields.mono (Program.input_adds h.wellFormed name) ?_))
    exact fun _ _ hinput => .pure hinput.1
  | expression hnode =>
    exact h.drive_adds (Yields.mono (Program.node_adds h.wellFormed hnode) fun _ _ h => h.1)
  | call f hargs =>
    exact h.drive (Yields.mono (Program.applyFunction_continues hintact f hargs)
      fun _ _ h => ⟨h.1, h.2.1⟩)
  | combine op hl hr =>
    exact h.drive (Yields.mono (Program.applyOperator_continues hintact op hl hr)
      fun _ _ h => ⟨h.1, h.2.1⟩)
  | opens hint =>
    obtain ⟨hcont, hopened⟩ := Program.openSlot_continues hintact hint
    exact h.drive ⟨hcont, hopened.perm List.perm_middle.symm⟩
  | augments negate init hslot hterm =>
    obtain ⟨hcont, haugmented⟩ :=
      Program.emitTerm_continues (h.intact_cons hslot) hterm negate init
    exact h.drive ⟨hcont, haugmented.perm List.perm_middle.symm⟩
  | closes hslot =>
    exact h.drive (Yields.mono (Program.closeSlot_continues (h.intact_cons hslot))
      fun _ _ h => ⟨h.1, h.2.1⟩)

theorem Sane.run_next (h : recording.Sane start)
    (hnext : Relation.ReflTransGen Next recording recording') : recording'.Sane start := by
  induction hnext with
  | refl => exact h
  | tail _ hlast ih => exact ih.next hlast

/-- What is stored does not depend on the program that is continued. -/
theorem Sane.restart {start' : Program K} (h : recording.Sane start)
    (hcont : start'.Continues recording.program) : recording.Sane start' := by
  have hsame : ((Program.heldReading start').framed recording.slots).eval? =
      ((Program.heldReading start).framed recording.slots).eval? := rfl
  have hnothing : Yields (pure () : StateM (Program K) Unit) recording.program fun _ program' =>
      ((Program.heldReading start).framed recording.slots).Extends recording.program program' ∧
        ((Program.heldReading start').framed recording.slots).Open program'
          recording.session.storages := .pure ⟨fun _ _ hx => hx, hcont, h.ready.2⟩
  exact Session.Sane.drive h hsame hnothing

/-- **In everything that can be recorded all factors are stored.** -/
theorem Reachable.sane (h : recording.Reachable) : recording.Sane {} := by
  induction h with
  | start => exact Session.Sane.start ⟨.refl _, .empty⟩
  | next _ hnext ih => exact ih.next hnext
  | forget _ ih =>
    obtain ⟨-, hintact⟩ := ih.ready
    have hopen := fun slot hslot => hintact.isOpen slot hslot
    refine Session.Sane.drive ih rfl
      (Yields.modify ⟨fun _ _ hx => hx, Program.continues_empty _, ?_⟩)
    exact ⟨⟨hintact.wellFormed.arena, hintact.wellFormed.reads, hintact.wellFormed.temporaries⟩,
      hintact.nodup, fun slot hslot => ⟨(hopen slot hslot).id_lt,
        (hopen slot hslot).definition?_eq_none⟩, hintact.held⟩

/-- **Earlier results never change their meaning.** In every recording that can be reached, whatever
calls are made next and whether or not they fail: the program keeps all expressions, statements,
names and definitions; whatever was made has stored factors; and to all stored factors an evaluator
gives the same values as before, or the same errors, whatever inputs are bound and whatever it was
asked before. -/
theorem Reachable.permanent (h : recording.Reachable)
    (hnext : Relation.ReflTransGen Next recording recording') :
    let before := recording.program
    let after := recording'.program
    before.Continues after ∧ (∀ f ∈ recording.session.factors, before.HoldsFactor f) ∧
      ∀ factors : Term K Handle, (∀ f ∈ factors, before.HoldsFactor f) →
        ∀ (values : List (String × K)) (earlier later : Term K Handle),
          after.answers values later factors = before.answers values earlier factors := by
  intro before after
  -- The invariant starts anew here: what follows continues the program as it stands now.
  have hsane : recording.Sane before := h.sane.restart (.refl before)
  have hsane' : recording'.Sane before := hsane.run_next hnext
  have hcont : before.Continues after := hsane'.ready.1
  have hheld : ∀ f ∈ recording.session.factors, before.HoldsFactor f :=
    fun f hf => (Program.known_heldReading before).1 (Session.Sane.knownTerm_factors hsane f hf)
  refine ⟨hcont, hheld, fun factors hfactors values earlier later => ?_⟩
  rw [hsane'.wellFormed.answers_eq, hsane.wellFormed.answers_eq]
  exact List.map_congr_left fun f hf =>
    hcont.toExtends.factorValue_eq hsane.wellFormed hsane'.wellFormed (hfactors f hf)

/-- Several actions of the session, one after the other. -/
theorem next_run (recording : Recording K) (actions : List (Action K)) :
    Relation.ReflTransGen Next recording
      { recording with session := recording.session.run Program.inputs actions } := by
  induction actions generalizing recording with
  | nil => exact .refl
  | cons action rest ih => exact .head (.perform recording action) (ih _)

theorem Reachable.run_next (h : recording.Reachable)
    (hnext : Relation.ReflTransGen Next recording recording') : recording'.Reachable := by
  induction hnext with
  | refl => exact h
  | tail _ hlast ih => exact ih.next hlast

/-- A recording in which a scalar is still being built, and a multivector was given up halfway
because it names a blade that is not there. -/
def interrupted : Recording ℚ where
  session := Session.run Program.inputs { workspace := { target := {} } }
    [.algebra [.number 1, .input "s"] ["1", "e1", "e2", "e12"] {}, .scalar "x",
      .add 0 0 [.input "a", .input "b"] false,
      .step 0 (.named [("e1", .input "a"), ("e3", .input "b")])]

theorem permanent_interrupted :
    let after : Recording ℚ := { interrupted with
      session := interrupted.session.run Program.inputs
        [.read 0, .step 0 (.named [("e2", .input "b"), ("e3", .input "a")])] }
    interrupted.Reachable ∧ Relation.ReflTransGen Next interrupted after ∧
      interrupted.program.Continues after.program ∧
      (∀ f ∈ interrupted.session.factors, interrupted.program.HoldsFactor f) ∧
        ∀ factors : Term ℚ Handle, (∀ f ∈ factors, interrupted.program.HoldsFactor f) →
          ∀ (values : List (String × ℚ)) (earlier later : Term ℚ Handle),
            after.program.answers values later factors =
              interrupted.program.answers values earlier factors := by
  intro after
  have hreachable : interrupted.Reachable := by
    unfold interrupted
    exact Reachable.start.run_next (next_run {} _)
  have hnext : Relation.ReflTransGen Next interrupted after := next_run interrupted _
  exact ⟨hreachable, hnext, Reachable.permanent hreachable hnext⟩

end Recording

end Clifford
