import Clifford.Proofs.Target.Steady

/-!
# Targets that are only given numbers

Read such that no symbol has a value, every target is steady: whatever is computed from numbers is
folded, and the target is not asked. What has a value in this reading is a number.

## Main definitions

- `Reading.numeric` — the reading in which no symbol has a value

## Main results

- `Reading.known_numeric` — what has a value is a number
- `Reading.steady_numeric` — calls are only made for the sake of symbols, so there are none
-/

namespace Clifford

variable {σ K S V : Type} [Number K]

namespace Reading

/-- The reading in which no symbol has a value and no storage is ever open. The target is in order
if its state satisfies `ordered`. -/
def numeric (ordered : σ → Prop) : Reading σ K S V where
  eval? _ _ := none
  stored _ _ := 0
  Open s vs := vs = [] ∧ ordered s

variable {ordered : σ → Prop} {s : σ}

theorem known_numeric {f : Factor K S} :
    (numeric ordered : Reading σ K S V).Known s f ↔ ∃ x, f = .number x := by
  constructor
  · intro h
    cases f with
    | number x => exact ⟨x, rfl⟩
    | symbol t =>
      obtain ⟨x, hx⟩ := h t rfl
      cases hx
  · rintro ⟨x, rfl⟩
    exact known_number x

/-- No term with a symbol has a value. -/
theorem not_knownTerm_numeric {term : Term K S} (h : term.Symbolic) :
    ¬ (numeric ordered : Reading σ K S V).KnownTerm s term := by
  obtain ⟨t, ht⟩ := h
  intro hterm
  obtain ⟨x, hx⟩ := known_numeric.1 (hterm _ ht)
  cases hx

variable [Target σ K S V]

/-- **Calls are made for the sake of symbols only**, so remarks are all that is left. -/
theorem steady_numeric
    (hspace : ∀ s, ordered s → Yields (Target.space : StateM σ Unit) s fun _ s' => ordered s')
    (hcomment : ∀ text s, ordered s →
      Yields (Target.comment text : StateM σ Unit) s fun _ s' => ordered s') :
    (numeric ordered : Reading σ K S V).Steady where
  perm h hperm := ⟨List.nil_perm.1 (h.1 ▸ hperm), h.2⟩
  abandon h := ⟨(List.append_eq_nil_iff.1 h.1).2, h.2⟩
  opens _ _ _ _ _ hterm hsymbolic := (not_knownTerm_numeric hsymbolic hterm).elim
  augments _ h _ := (List.cons_ne_nil _ _ h.1).elim
  closes h := (List.cons_ne_nil _ _ h.1).elim
  calls _ _ _ _ hargs hsymbolic := (not_knownTerm_numeric hsymbolic hargs).elim
  combines _ _ _ _ _ hargs hsymbolic := (not_knownTerm_numeric hsymbolic hargs).elim
  spaces h := Yields.mono (hspace _ h.2) fun _ _ h' => ⟨.refl _ _, h.1, h'⟩
  comments text h := Yields.mono (hcomment text _ h.2) fun _ _ h' => ⟨.refl _ _, h.1, h'⟩

end Reading

end Clifford
