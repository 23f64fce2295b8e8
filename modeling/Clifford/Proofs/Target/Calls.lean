import Clifford.Proofs.Multivector
import Clifford.Proofs.Target.Outcome

/-!
# Calls to a target

What a computation asks of its target, as a list of calls. A computation sends calls of a kind if
the state that it leaves is the one that some such calls leave. As this is stated for every
target, also for one that only writes down what it is told, the calls of a computation are
described by it and not only their effect.

## Main definitions

- `TargetCall` — one call, with its arguments
- `TargetCall.performAll` — the state that calls leave
- `TargetCall.Adds` — calls for components that get certain terms
- `Sends` — a computation makes only calls of a kind, and what holds of its result

## Main results

- `Cell.add_sends`, `Cell.close_sends`, `Draft.add_sends`, `Draft.close_sends` — the calls for a
  component
-/

namespace Clifford

variable {σ K S V α β : Type}

/-- A call to a target. -/
inductive TargetCall (K S V : Type) where
  /-- Storage of a component is opened. -/
  | makeVar (h : Nonempty S) (name : String)
  /-- A term is added to a component. -/
  | emitTerm (v : V) (term : Term K S) (negate init : Bool)
  /-- A component is closed. -/
  | finishVar (v : V)
  /-- A function is applied. -/
  | applyFunction (h : Nonempty S) (f : ScalarFunction) (args : Term K S)
  /-- An operator is applied. -/
  | applyOperator (h : Nonempty S) (op : Operator) (l r : Factor K S)
  /-- What follows is separated. -/
  | space
  /-- A remark is noted. -/
  | comment (text : String)

namespace TargetCall

/-- Components are opened, get terms that satisfy `terms`, and are closed; remarks are noted. No
function and no operator is applied. -/
def Adds (terms : Term K S → Prop) : TargetCall K S V → Prop
  | emitTerm _ term _ _ => terms term
  | applyFunction _ _ _ => False
  | applyOperator _ _ _ _ => False
  | _ => True

variable [Target σ K S V]

/-- The state of a target after a call. -/
def perform (s : σ) : TargetCall K S V → σ
  | makeVar h name => ((Target.makeVar h name : StateM σ V).run s).2
  | emitTerm v term negate init => ((Target.emitTerm v term negate init : StateM σ V).run s).2
  | finishVar v => ((Target.finishVar v : StateM σ S).run s).2
  | applyFunction h f args => ((Target.applyFunction h f args : StateM σ S).run s).2
  | applyOperator h op l r => ((Target.applyOperator h op l r : StateM σ S).run s).2
  | space => ((Target.space : StateM σ Unit).run s).2
  | comment text => ((Target.comment text : StateM σ Unit).run s).2

/-- The state of a target after several calls, in this order. -/
def performAll (calls : List (TargetCall K S V)) (s : σ) : σ := calls.foldl perform s

end TargetCall

section Sends

variable [Target σ K S V] {allowed : TargetCall K S V → Prop} {c : StateM σ α}
  {k : α → StateM σ β} {s : σ} {a : α}

/-- The computation makes only calls that are allowed, and its result satisfies `Q`. -/
def Sends (allowed : TargetCall K S V → Prop) (c : StateM σ α) (s : σ) (Q : α → Prop) : Prop :=
  ∃ calls, (∀ call ∈ calls, allowed call) ∧ (c.run s).2 = TargetCall.performAll calls s ∧
    Q (c.run s).1

namespace Sends

theorem pure {Q : α → Prop} (h : Q a) : Sends allowed (Pure.pure a) s Q :=
  ⟨[], nofun, rfl, h⟩

/-- A computation whose effect is that of one call. -/
theorem single (call : TargetCall K S V) (hcall : allowed call)
    (hstate : (c.run s).2 = call.perform s) : Sends allowed c s fun _ => True := by
  refine ⟨[call], ?_, hstate, trivial⟩
  intro other hother
  rwa [List.mem_singleton.1 hother]

theorem bind {P : α → Prop} {Q : β → Prop} (hc : Sends allowed c s P)
    (hk : ∀ a s', P a → Sends allowed (k a) s' Q) : Sends allowed (c >>= k) s Q := by
  obtain ⟨front, hfront, hstate, hP⟩ := hc
  obtain ⟨rest, hrest, hstate', hQ⟩ := hk _ (c.run s).2 hP
  refine ⟨front ++ rest, fun call hcall => ?_, ?_, hQ⟩
  · exact (List.mem_append.1 hcall).elim (hfront call) (hrest call)
  · rw [hstate] at hstate'
    rw [TargetCall.performAll, List.foldl_append]
    exact Eq.trans (congrArg (fun t => ((k (c.run s).1).run t).2) hstate) hstate'

theorem mono {P Q : α → Prop} (h : Sends allowed c s P) (hPQ : ∀ a, P a → Q a) :
    Sends allowed c s Q := by
  obtain ⟨calls, hcalls, hstate, hP⟩ := h
  exact ⟨calls, hcalls, hstate, hPQ _ hP⟩

theorem bind_pure {P : α → Prop} {Q : β → Prop} (hc : Sends allowed c s P) {f : α → β}
    (hf : ∀ a, P a → Q (f a)) : Sends allowed (do let a ← c; Pure.pure (f a)) s Q :=
  hc.bind fun a _ hP => .pure (hf a hP)

end Sends

/-- The computation makes only calls that are allowed, and its result satisfies `Q` if there is
one. -/
def Emission.Sends (allowed : TargetCall K S V → Prop) (c : Emission σ K α) (s : σ)
    (Q : α → Prop) : Prop :=
  Clifford.Sends allowed c.run s fun r => ∀ a, r = .ok a → Q a

namespace Emission.Sends

variable {c : Emission σ K α} {k : α → Emission σ K β} {e : AlgebraError K}

theorem pure {Q : α → Prop} (h : Q a) :
    Emission.Sends allowed (Pure.pure a : Emission σ K α) s Q :=
  Clifford.Sends.pure fun _ ha => Except.ok.inj ha ▸ h

theorem throw {Q : α → Prop} :
    Emission.Sends allowed (MonadExcept.throw e : Emission σ K α) s Q :=
  Clifford.Sends.pure nofun

theorem lift {c : StateM σ α} {Q : α → Prop} (h : Clifford.Sends allowed c s Q) :
    Emission.Sends allowed (ExceptT.lift c : Emission σ K α) s Q := by
  obtain ⟨calls, hcalls, hstate, hQ⟩ := h
  exact ⟨calls, hcalls, hstate, fun a ha => Except.ok.inj ha ▸ hQ⟩

theorem bind {P : α → Prop} {Q : β → Prop} (hc : Emission.Sends allowed c s P)
    (hk : ∀ a s', P a → Emission.Sends allowed (k a) s' Q) :
    Emission.Sends allowed (c >>= k) s Q := by
  refine Clifford.Sends.bind (k := ExceptT.bindCont k) hc fun r s' hP => ?_
  cases r with
  | error e => exact Clifford.Sends.pure nofun
  | ok a => exact hk a s' (hP a rfl)

end Emission.Sends

end Sends

/-! ### Components -/

variable [Number K] [Target σ K S V] {terms : Term K S → Prop} {s : σ}

namespace Cell

omit [Number K] in
theorem storage_sends (h : Nonempty S) (cell : Cell K V) :
    Sends (TargetCall.Adds terms) (cell.storage h) s fun _ => True := by
  rw [storage]
  split
  · exact .pure trivial
  · exact (Sends.single (.makeVar h cell.name) trivial rfl).bind_pure fun _ _ => trivial

/-- Adding a term to a component sends at most this term. -/
theorem add_sends (cell : Cell K V) {term : Term K S} (hterm : terms term) (negate : Bool) :
    Sends (TargetCall.Adds terms) (cell.add term negate) s fun _ => True := by
  unfold add
  split
  · exact .pure trivial
  · split
    · exact .pure trivial
    · refine (cell.storage_sends _).bind fun storage s' _ => ?_
      obtain ⟨v, init⟩ := storage
      exact (Sends.single (.emitTerm v term negate init) hterm rfl).bind_pure fun _ _ => trivial

/-- Closing a component sends at most a bare number. -/
theorem close_sends (cell : Cell K V) (hnumber : ∀ x, terms [.number x]) :
    Sends (TargetCall.Adds terms) cell.close s fun _ => True := by
  rw [close]
  split
  · exact .pure trivial
  · have hfinish : ∀ (v : V) (s : σ), Sends (TargetCall.Adds terms)
        (do let t ← Target.finishVar v; pure (.symbol t) : StateM σ (Factor K S)) s
          fun _ => True :=
      fun v s => (Sends.single (.finishVar v) trivial rfl).bind_pure fun _ _ => trivial
    dsimp only
    split
    · exact hfinish _ s
    · exact (Sends.single (.emitTerm _ [.number cell.total] false false) (hnumber _) rfl).bind
        fun v s' _ => hfinish v s'

end Cell

namespace Draft

/-- A contribution sends at most its term, and touches its blade. -/
theorem add_sends (nameOf : Blade → String) {c : Contribution K S} (hterm : terms c.term)
    (draft : Draft K V) :
    Sends (TargetCall.Adds terms) (add nameOf c draft) s fun draft' =>
      draft'.blades = touch c.blade draft.blades := by
  induction draft generalizing s with
  | nil => exact (Cell.add_sends _ hterm _).bind_pure fun _ _ => rfl
  | cons head rest ih =>
    obtain ⟨blade, cell⟩ := head
    unfold add
    split
    · rename_i hblade
      refine (Cell.add_sends _ hterm _).bind_pure fun _ _ => ?_
      simp [blades, touch, hblade]
    · rename_i hblade
      refine ih.bind_pure fun rest' hrest => ?_
      rw [blades, List.map_cons, ← blades, hrest, blades, blades, List.map_cons,
        touch_cons_of_ne hblade]

/-- Reading all coefficients sends at most bare numbers. -/
theorem close_sends (hnumber : ∀ x, terms [.number x]) (draft : Draft K V) :
    Sends (TargetCall.Adds terms) draft.close s fun components =>
      components.map Prod.fst = draft.blades := by
  rw [close]
  induction draft generalizing s with
  | nil => exact .pure rfl
  | cons head rest ih =>
    obtain ⟨blade, cell⟩ := head
    rw [List.mapM_cons]
    refine Sends.bind ((cell.close_sends hnumber).bind_pure (Q := fun r => r.1 = blade)
      fun _ _ => rfl) fun first s' hfirst => ?_
    refine ih.bind_pure fun others hothers => ?_
    rw [List.map_cons, hfirst, hothers]
    rfl

end Draft

end Clifford
