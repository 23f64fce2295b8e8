import Clifford.Accumulator

/-!
# Outcomes of computations

Rules for reasoning about computations that drive a target. A computation yields a result and a
new state; one that may fail gives a result or fails, and the state after it is kept in both
cases.

## Main definitions

- `Yields` — what holds of the result and the state after a computation
- `Emission.Gives` — the computation succeeds, and what holds afterwards
- `Emission.Fails` — the computation fails with a given error, and what holds afterwards
-/

namespace Clifford

variable {σ K α β : Type}

/-- The result of a computation and the state after it satisfy `Q`. -/
def Yields (c : StateM σ α) (s : σ) (Q : α → σ → Prop) : Prop := Q (c.run s).1 (c.run s).2

namespace Yields

variable {c : StateM σ α} {k : α → StateM σ β} {s : σ} {a : α}

theorem pure {Q : α → σ → Prop} (h : Q a s) : Yields (Pure.pure a) s Q := h

theorem get {Q : σ → σ → Prop} (h : Q s s) : Yields MonadState.get s Q := h

theorem modify {f : σ → σ} {Q : PUnit → σ → Prop} (h : Q ⟨⟩ (f s)) :
    Yields (modify f) s Q := h

theorem bind {Q : β → σ → Prop} (h : Yields c s fun a s' => Yields (k a) s' Q) :
    Yields (c >>= k) s Q := h

theorem run_bind {τ : Type} {c : StateT τ (StateM σ) α} {k : α → StateT τ (StateM σ) β} {t : τ}
    {Q : β × τ → σ → Prop}
    (h : Yields (c.run t) s fun r s' => Yields ((k r.1).run r.2) s' Q) :
    Yields ((c >>= k).run t) s Q := h

theorem mono {P Q : α → σ → Prop} (h : Yields c s P) (hPQ : ∀ a s', P a s' → Q a s') :
    Yields c s Q :=
  hPQ _ _ h

theorem and {P Q : α → σ → Prop} (hP : Yields c s P) (hQ : Yields c s Q) :
    Yields c s fun a s' => P a s' ∧ Q a s' :=
  ⟨hP, hQ⟩

end Yields

namespace Emission

/-- The result or the error of a computation, and the state after it. -/
def outcome (c : Emission σ K α) (s : σ) : Except (AlgebraError K) α × σ := c.run.run s

/-- The computation succeeds; its result and the state after it satisfy `Q`. -/
def Gives (c : Emission σ K α) (s : σ) (Q : α → σ → Prop) : Prop :=
  ∃ a s', c.outcome s = (.ok a, s') ∧ Q a s'

/-- The computation fails with the error `e`; the state after it satisfies `Q`. -/
def Fails (c : Emission σ K α) (s : σ) (e : AlgebraError K) (Q : σ → Prop) : Prop :=
  ∃ s', c.outcome s = (.error e, s') ∧ Q s'

variable {c : Emission σ K α} {k : α → Emission σ K β} {s : σ} {a : α} {e : AlgebraError K}

theorem outcome_bind (c : Emission σ K α) (k : α → Emission σ K β) (s : σ) :
    (c >>= k).outcome s =
      match c.outcome s with
      | (.ok a, s') => (k a).outcome s'
      | (.error e, s') => (.error e, s') := by
  have hrun : (c >>= k).outcome s =
      (ExceptT.bindCont k (c.outcome s).1).run (c.outcome s).2 := rfl
  rw [hrun]
  rcases c.outcome s with ⟨_ | a, s'⟩ <;> rfl

theorem Gives.pure {Q : α → σ → Prop} (h : Q a s) : Gives (Pure.pure a : Emission σ K α) s Q :=
  ⟨a, s, rfl, h⟩

theorem Gives.lift {c : StateM σ α} {Q : α → σ → Prop} (h : Yields c s Q) :
    Gives (ExceptT.lift c : Emission σ K α) s Q :=
  ⟨_, _, rfl, h⟩

theorem Gives.bind {Q : β → σ → Prop} (h : Gives c s fun a s' => Gives (k a) s' Q) :
    Gives (c >>= k) s Q := by
  obtain ⟨a, s', hc, b, s'', hk, hQ⟩ := h
  refine ⟨b, s'', ?_, hQ⟩
  rw [outcome_bind, hc]
  exact hk

theorem Gives.mono {P Q : α → σ → Prop} (h : Gives c s P) (hPQ : ∀ a s', P a s' → Q a s') :
    Gives c s Q := by
  obtain ⟨a, s', hc, hP⟩ := h
  exact ⟨a, s', hc, hPQ a s' hP⟩

/-- Two things that hold of what a computation gives hold of it together. -/
theorem Gives.and {P Q : α → σ → Prop} (hP : Gives c s P) (hQ : Gives c s Q) :
    Gives c s fun a s' => P a s' ∧ Q a s' := by
  obtain ⟨a, s', hc, hPa⟩ := hP
  obtain ⟨b, s'', hc', hQb⟩ := hQ
  obtain ⟨ha, hs⟩ := Prod.mk.inj (hc.symm.trans hc')
  obtain rfl := Except.ok.inj ha
  exact ⟨a, s', hc, hPa, hs ▸ hQb⟩

/-- A computation that gives something, seen as one that cannot fail and returns an outcome. -/
theorem Gives.run {Q : α → σ → Prop} (h : Gives c s Q) :
    Yields c.run s fun r s' => ∃ a, r = .ok a ∧ Q a s' := by
  obtain ⟨a, s', hc, hQ⟩ := h
  have hrun : StateT.run c.run s = (.ok a, s') := hc
  unfold Yields
  rw [hrun]
  exact ⟨a, rfl, hQ⟩

theorem Fails.run {Q : σ → Prop} (h : Fails c s e Q) :
    Yields c.run s fun r s' => r = .error e ∧ Q s' := by
  obtain ⟨s', hc, hQ⟩ := h
  have hrun : StateT.run c.run s = (.error e, s') := hc
  unfold Yields
  rw [hrun]
  exact ⟨rfl, hQ⟩

theorem Fails.throw {Q : σ → Prop} (h : Q s) : Fails (MonadExcept.throw e : Emission σ K α) s e Q :=
  ⟨s, rfl, h⟩

theorem Fails.bind {Q : σ → Prop} (h : Fails c s e Q) : Fails (c >>= k) s e Q := by
  obtain ⟨s', hc, hQ⟩ := h
  refine ⟨s', ?_, hQ⟩
  rw [outcome_bind, hc]

theorem Gives.bind_fails {Q : σ → Prop} (h : Gives c s fun a s' => Fails (k a) s' e Q) :
    Fails (c >>= k) s e Q := by
  obtain ⟨a, s', hc, s'', hk, hQ⟩ := h
  refine ⟨s'', ?_, hQ⟩
  rw [outcome_bind, hc]
  exact hk

theorem Fails.mono {P Q : σ → Prop} (h : Fails c s e P) (hPQ : ∀ s', P s' → Q s') :
    Fails c s e Q := by
  obtain ⟨s', hc, hP⟩ := h
  exact ⟨s', hc, hPQ s' hP⟩

/-- Renaming errors leaves results as they are. -/
theorem Gives.adapt {Q : α → σ → Prop} (h : Gives c s Q) (f : AlgebraError K → AlgebraError K) :
    Gives (ExceptT.adapt f c) s Q := by
  obtain ⟨a, s', hc, hQ⟩ := h
  have hrun : outcome (ExceptT.adapt f c) s = ((c.outcome s).1.mapError f, (c.outcome s).2) := rfl
  refine ⟨a, s', ?_, hQ⟩
  rw [hrun, hc]
  rfl

theorem Fails.adapt {Q : σ → Prop} (h : Fails c s e Q) (f : AlgebraError K → AlgebraError K) :
    Fails (ExceptT.adapt f c) s (f e) Q := by
  obtain ⟨s', hc, hQ⟩ := h
  have hrun : outcome (ExceptT.adapt f c) s = ((c.outcome s).1.mapError f, (c.outcome s).2) := rfl
  refine ⟨s', ?_, hQ⟩
  rw [hrun, hc]
  rfl

end Emission

end Clifford
