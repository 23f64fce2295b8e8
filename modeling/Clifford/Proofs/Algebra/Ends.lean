import Clifford.Proofs.Algebra.Building

/-!
# Computations that may fail

Verification of a unit norm and division by a literal zero can end a computation. Whether or not
it succeeds, it leaves the target in order, and what had a value keeps it.

## Main definitions

- `Reading.Ends` — the target stays in order, there is only a failure if there may be one, and what
  holds of the result

## Main results

- `Reading.Ends.bind`, `Reading.Ends.of_gives` — rules for sequences
- `Algebra.markUnit_ends` — stating a unit norm fails only if norms are verified
-/

namespace Clifford

variable {σ K S V α β : Type}

namespace Reading

/-- The computation leaves the target in order. It fails only if `mayFail` holds, and otherwise its
result and the state after it satisfy `Q`. -/
def Ends (M : Reading σ K S V) (mayFail : Prop) (c : Emission σ K α) (s : σ)
    (Q : α → σ → Prop) : Prop :=
  Yields c.run s fun r s' => M.Advances s s' ∧
    match r with
    | .ok a => Q a s'
    | .error _ => mayFail

namespace Ends

variable {M : Reading σ K S V} {p p' : Prop} {c : Emission σ K α} {k : α → Emission σ K β} {s : σ}
  {a : α} {e : AlgebraError K} {P Q : α → σ → Prop}

theorem pure (hopen : M.Open s []) (h : Q a s) : M.Ends p (Pure.pure a) s Q := ⟨.refl hopen, h⟩

theorem throw (hopen : M.Open s []) (h : p) :
    M.Ends p (MonadExcept.throw e : Emission σ K α) s Q :=
  ⟨.refl hopen, h⟩

theorem of_gives (h : c.Gives s fun a s' => M.Advances s s' ∧ Q a s') : M.Ends p c s Q := by
  obtain ⟨a, s', hc, hadv, hQ⟩ := h
  have hrun : StateT.run c.run s = (.ok a, s') := hc
  unfold Ends Yields
  rw [hrun]
  exact ⟨hadv, hQ⟩

theorem of_fails (h : c.Fails s e fun s' => M.Advances s s') (hp : p) : M.Ends p c s Q := by
  obtain ⟨s', hc, hadv⟩ := h
  have hrun : StateT.run c.run s = (.error e, s') := hc
  unfold Ends Yields
  rw [hrun]
  exact ⟨hadv, hp⟩

/-- Where there may be no failure, the computation succeeds. -/
theorem gives (h : M.Ends p c s Q) (hp : ¬ p) : c.Gives s fun a s' => M.Advances s s' ∧ Q a s' := by
  unfold Ends Yields at h
  rcases hrun : c.run.run s with ⟨_ | a, s'⟩
  · rw [hrun] at h
    exact absurd h.2 hp
  · rw [hrun] at h
    exact ⟨a, s', hrun, h⟩

theorem mono (h : M.Ends p c s P) (hp : p → p')
    (hPQ : ∀ a s', M.Advances s s' → P a s' → Q a s') : M.Ends p' c s Q := by
  refine Yields.mono h ?_
  rintro (e | a) s' ⟨hadv, h⟩
  · exact ⟨hadv, hp h⟩
  · exact ⟨hadv, hPQ a s' hadv h⟩

theorem bind {Q : β → σ → Prop} (hc : M.Ends p c s P)
    (hk : ∀ a s', M.Advances s s' → P a s' → M.Ends p (k a) s' Q) : M.Ends p (c >>= k) s Q := by
  have hrun : (c >>= k).run.run s = (ExceptT.bindCont k (c.run.run s).1).run (c.run.run s).2 := rfl
  unfold Ends Yields
  rw [hrun]
  obtain ⟨hadv, hresult⟩ := hc
  generalize (c.run.run s).1 = r at hresult ⊢
  cases r with
  | error e => exact ⟨hadv, hresult⟩
  | ok a =>
    obtain ⟨hadv', h⟩ := hk a _ hadv hresult
    exact ⟨hadv.trans hadv', h⟩

/-- After a failure nothing else is done. -/
theorem throw_bind {Q : β → σ → Prop} (hopen : M.Open s []) (hp : p) :
    M.Ends p ((MonadExcept.throw e : Emission σ K α) >>= k) s Q :=
  .bind (P := fun _ _ => False) (.throw hopen hp) fun _ _ _ h => h.elim

/-- A first step that always succeeds. -/
theorem gives_bind {Q : β → σ → Prop} (hc : c.Gives s fun a s' => M.Advances s s' ∧ P a s')
    (hk : ∀ a s', M.Advances s s' → P a s' → M.Ends p (k a) s' Q) : M.Ends p (c >>= k) s Q :=
  .bind (.of_gives hc) hk

/-- Renaming errors does not change when there is one. -/
theorem adapt (h : M.Ends p c s Q) (f : AlgebraError K → AlgebraError K) :
    M.Ends p (ExceptT.adapt f c) s Q := by
  have hrun : (ExceptT.adapt f c).run.run s = ((c.run.run s).1.mapError f, (c.run.run s).2) := rfl
  unfold Ends Yields
  rw [hrun]
  obtain ⟨hadv, hresult⟩ := h
  generalize (c.run.run s).1 = r at hresult ⊢
  cases r with
  | error e => exact ⟨hadv, hresult⟩
  | ok a => exact ⟨hadv, hresult⟩

end Ends

end Reading

namespace Algebra

variable {M : Reading σ K S V} {A : Algebra K S} {s : σ} {m : Multivector K S}

/-- A multivector of another algebra is refused. -/
theorem check_ends {p : Prop} {Q : Unit → σ → Prop} (hopen : M.Open s []) (hp : p)
    (hQ : m.owner = A.id → Q () s) : M.Ends p (A.check m) s Q := by
  by_cases howner : m.owner = A.id
  · exact .of_gives (check_gives howner ⟨.refl hopen, hQ howner⟩)
  · exact .of_fails (check_fails howner (.refl hopen)) hp

/-- Stating a unit norm fails only if norms are verified. Otherwise only the statement is added. -/
theorem markUnit_ends [Number K] {Q : Multivector K S → σ → Prop} (hopen : M.Open s [])
    (hQ : Q (m.withKnownUnit true) s) :
    M.Ends (A.settings.unitTolerance?.isSome = true) (A.markUnit m) s Q := by
  unfold markUnit
  split
  · rename_i tolerance norm htolerance hnorm
    rw [htolerance]
    split
    · exact .throw hopen rfl
    · exact .pure hopen hQ
  · exact .pure hopen hQ

end Algebra

end Clifford
