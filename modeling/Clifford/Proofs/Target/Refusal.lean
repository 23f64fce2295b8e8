import Clifford.Proofs.Target.Outcome

/-!
# Refusals

An operation refuses its arguments if a multivector belongs to another algebra, a name belongs to
no blade, or a list does not fit the dimension. Most operations find this out before they call the
target; the rules here say so of computations, and of those that first do something else.

## Main definitions

- `AlgebraError.isRefusal` — the failures that are refusals
- `Emission.Accepts` — a computation that does not refuse anything
- `Emission.Screens` — a computation that refuses at once unless its arguments are accepted
- `Emission.RefusesAfter` — where a computation has refused, all it did is a given prelude
-/

namespace Clifford

variable {σ K α β γ : Type}

/-- Whether a failure is due to the arguments alone: a multivector of another algebra, the name of
no blade, or a list or matrix of the wrong size. -/
def AlgebraError.isRefusal : AlgebraError K → Bool
  | foreignOperand | unknownBlade _ | dimensionMismatch _ _ => true
  | _ => false

namespace Emission

/-- What a computation does to the target, whether or not it fails. -/
def effect (c : Emission σ K α) : StateM σ Unit := do
  let _ ← c.run
  pure ()

/-- The computation does not refuse its arguments, and if it succeeds, `Q` holds of its result. -/
def Accepts (c : Emission σ K α) (Q : α → Prop) : Prop :=
  ∀ s, match (c.outcome s).1 with
    | .ok a => Q a
    | .error e => e.isRefusal = false

/-- The computation accepts its arguments where `guard` holds; otherwise it fails without having
called the target. -/
structure Screens (guard : Prop) (c : Emission σ K α) (Q : α → Prop) : Prop where
  /-- Where the guard holds, nothing is refused. -/
  accepts : guard → c.Accepts Q
  /-- Where it does not, the target stays as it was. -/
  refuses : ¬ guard → ∀ s, ∃ e, c.outcome s = (.error e, s)

/-- Whenever the computation refuses its arguments, the target is as the prelude leaves it. -/
def RefusesAfter (c : Emission σ K α) (prelude : StateM σ Unit) : Prop :=
  ∀ s e s', c.outcome s = (.error e, s') → e.isRefusal = true → s' = (prelude.run s).2

variable {c : Emission σ K α} {k : α → Emission σ K β} {P Q : α → Prop} {R : β → Prop}
  {guard guard' : Prop} {e : AlgebraError K} {prelude : StateM σ Unit}

/-! ### Computations that refuse nothing -/

namespace Accepts

theorem pure {a : α} (h : Q a) : (Pure.pure a : Emission σ K α).Accepts Q := fun _ => h

theorem throw (h : e.isRefusal = false) :
    (MonadExcept.throw e : Emission σ K α).Accepts Q :=
  fun _ => h

theorem lift {c : StateM σ α} (h : ∀ s, Q (c.run s).1) :
    Accepts (ExceptT.lift c : Emission σ K α) Q :=
  h

theorem bind (hc : c.Accepts P) (hk : ∀ a, P a → (k a).Accepts R) : (c >>= k).Accepts R := by
  intro s
  rw [outcome_bind]
  have h := hc s
  rcases hrun : c.outcome s with ⟨e | a, s'⟩
  · rwa [hrun] at h
  · rw [hrun] at h
    exact hk a h s'

/-- A first step of which only the success matters. -/
theorem then_accepts (hc : c.Accepts P) (hk : ∀ a, (k a).Accepts R) : (c >>= k).Accepts R :=
  hc.bind fun a _ => hk a

/-- After a failure that is no refusal nothing else is done. -/
theorem throw_bind (h : e.isRefusal = false) :
    ((MonadExcept.throw e : Emission σ K α) >>= k).Accepts R :=
  (throw (Q := fun _ => False) h).bind fun _ hfalse => hfalse.elim

theorem mono (h : c.Accepts P) (hPQ : ∀ a, P a → Q a) : c.Accepts Q := by
  intro s
  have hs := h s
  rcases hrun : c.outcome s with ⟨e | a, s'⟩
  · rwa [hrun] at hs
  · rw [hrun] at hs
    exact hPQ a hs

/-- Renaming failures refuses nothing where the new names are no refusals. -/
theorem adapt (f : AlgebraError K → AlgebraError K) (h : c.Accepts Q)
    (hf : ∀ e : AlgebraError K, e.isRefusal = false → (f e).isRefusal = false) :
    Accepts (ExceptT.adapt f c) Q := by
  intro s
  have hrun : outcome (ExceptT.adapt f c) s =
      ((c.outcome s).1.mapError f, (c.outcome s).2) := rfl
  rw [hrun]
  have hs := h s
  generalize c.outcome s = r at hs ⊢
  rcases r with ⟨e | a, s'⟩
  · exact hf e hs
  · exact hs

theorem mapM {f : α → Emission σ K β} (l : List α) (hf : ∀ a ∈ l, (f a).Accepts fun _ => True) :
    (l.mapM f).Accepts fun _ => True := by
  induction l with
  | nil => exact .pure trivial
  | cons a l ih =>
    rw [List.mapM_cons]
    refine (hf a List.mem_cons_self).then_accepts fun _ => ?_
    exact (ih fun b hb => hf b (List.mem_cons_of_mem a hb)).then_accepts fun _ => .pure trivial

theorem screens (h : c.Accepts Q) : c.Screens True Q :=
  ⟨fun _ => h, fun hfalse => absurd trivial hfalse⟩

end Accepts

/-! ### Computations that refuse at once -/

namespace Screens

theorem iff (h : c.Screens guard Q) (hguard : guard ↔ guard') : c.Screens guard' Q :=
  propext hguard ▸ h

theorem bind (hc : c.Screens guard P) (hk : guard → ∀ a, P a → (k a).Accepts R) :
    (c >>= k).Screens guard R where
  accepts hguard := (hc.accepts hguard).bind (hk hguard)
  refuses hguard s := by
    obtain ⟨e, he⟩ := hc.refuses hguard s
    exact ⟨e, by rw [outcome_bind, he]⟩

/-- Two screens, one after the other, with nothing else before the second one. -/
theorem and {check : Emission σ K Unit} (hcheck : ∀ s, guard → check.outcome s = (.ok (), s))
    (hrefuse : ¬ guard → ∀ s, ∃ e, check.outcome s = (.error e, s))
    {k : Unit → Emission σ K β} (hk : guard → (k ()).Screens guard' R) :
    (check >>= k).Screens (guard ∧ guard') R where
  accepts hguards s := by
    rw [outcome_bind, hcheck s hguards.1]
    exact (hk hguards.1).accepts hguards.2 s
  refuses hguards s := by
    rw [outcome_bind]
    by_cases hguard : guard
    · rw [hcheck s hguard]
      exact (hk hguard).refuses (fun hguard' => hguards ⟨hguard, hguard'⟩) s
    · obtain ⟨e, he⟩ := hrefuse hguard s
      exact ⟨e, by rw [he]⟩

/-- What refuses at once leaves the target as it was. -/
theorem refusesAfter (h : c.Screens guard Q) : c.RefusesAfter (pure ()) := by
  intro s e s' hrun he
  by_cases hguard : guard
  · have haccepts := h.accepts hguard s
    rw [hrun] at haccepts
    exact absurd he (by rw [haccepts]; exact Bool.false_ne_true)
  · obtain ⟨e', he'⟩ := h.refuses hguard s
    rw [hrun] at he'
    exact (Prod.mk.inj he').2

end Screens

/-! ### Computations that refuse late -/

namespace RefusesAfter

theorem of_accepts (h : c.Accepts Q) : c.RefusesAfter prelude := by
  intro s e s' hrun he
  have hs := h s
  rw [hrun] at hs
  exact absurd he (by rw [hs]; exact Bool.false_ne_true)

/-- A computation that is refused in its first step. -/
theorem of_refuses (h : ∀ s, ∃ e, c.outcome s = (.error e, s)) :
    (c >>= k).RefusesAfter (pure ()) := by
  intro s e s' hrun _
  obtain ⟨e', he'⟩ := h s
  rw [outcome_bind, he'] at hrun
  exact (Prod.mk.inj hrun).2.symm

/-- What is done before anything can be refused belongs to the prelude. -/
theorem bind {k' : α → Emission σ K γ} (hc : c.Accepts P)
    (hk : ∀ a, P a → (k a).RefusesAfter (k' a).effect) :
    (c >>= k).RefusesAfter (c >>= k').effect := by
  intro s e s' hrun he
  have heffect : ((c >>= k').effect.run s).2 = ((c >>= k').outcome s).2 := rfl
  rw [heffect, outcome_bind]
  rw [outcome_bind] at hrun
  have hs := hc s
  rcases hfirst : c.outcome s with ⟨e' | a, s''⟩
  · rw [hfirst] at hrun
    exact (congrArg Prod.snd hrun).symm
  · rw [hfirst] at hrun hs
    exact hk a hs s'' e s' hrun he

/-- A first step that refuses nothing, before steps that refuse at once. -/
theorem bind_refuses (hc : c.Accepts P) (hk : ∀ a, P a → (k a).RefusesAfter (pure ())) :
    (c >>= k).RefusesAfter c.effect := by
  have h : (c >>= k).RefusesAfter (c >>= fun a => (Pure.pure a : Emission σ K α)).effect :=
    bind hc hk
  rwa [bind_pure] at h

theorem map (f : α → β) (h : c.RefusesAfter prelude) : (f <$> c).RefusesAfter prelude := by
  intro s e s' hrun he
  rw [map_eq_pure_bind, outcome_bind] at hrun
  rcases hfirst : c.outcome s with ⟨e' | a, s''⟩
  · rw [hfirst] at hrun
    obtain ⟨hfailure, hstate⟩ := Prod.mk.inj hrun
    exact h s e s' (by rw [hfirst, Except.error.inj hfailure, hstate]) he
  · rw [hfirst] at hrun
    cases hrun

end RefusesAfter

end Emission

end Clifford
