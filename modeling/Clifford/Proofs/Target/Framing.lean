import Clifford.Proofs.Target.Reading

/-!
# Readings with a frame

Two ways to say more of the storages of a target: an invariant that all calls keep, and a frame of
storages that stay open while calls are made on others.

## Main definitions

- `Reading.strengthen` — open storages satisfy an invariant
- `Reading.Preserves` — every call keeps an invariant
- `Reading.framed` — some more storages are open

## Main results

- `Reading.Sound.strengthen` — a strengthened reading is sound
-/

namespace Clifford

namespace Reading

variable {σ K S V : Type}

/-- The same reading, where open storages satisfy an invariant. -/
def strengthen (M : Reading σ K S V) (I : σ → List V → Prop) : Reading σ K S V :=
  { M with Open := fun s vs => M.Open s vs ∧ I s vs }

/-- The same reading, while the storages of the frame are open as well. -/
def framed (M : Reading σ K S V) (frame : List V) : Reading σ K S V :=
  { M with Open := fun s vs => M.Open s (vs ++ frame) }

variable {M : Reading σ K S V} {I : σ → List V → Prop} {s s' : σ} {others : List V}

theorem Keeps.strengthen (h : M.Keeps s s' others) : (M.strengthen I).Keeps s s' others :=
  ⟨h.symbols, h.storages⟩

variable [Number K] [Target σ K S V]

/-- Every call of the target keeps the invariant. -/
structure Preserves (M : Reading σ K S V) (I : σ → List V → Prop) : Prop where
  sublist {s : σ} {vs ws : List V} : M.Open s vs → I s vs → (∀ w ∈ ws, w ∈ vs) → I s ws
  opens {s : σ} {others : List V} (h : Nonempty S) (name : String) {term : Term K S}
      (negate : Bool) : M.Open s others → I s others → M.KnownTerm s term →
    Yields (do let v ← Target.makeVar h name; Target.emitTerm v term negate true) s
      fun v s' => I s' (v :: others)
  augments {s : σ} {v : V} {others : List V} {term : Term K S} (negate : Bool) :
    M.Open s (v :: others) → I s (v :: others) → M.KnownTerm s term →
    Yields (Target.emitTerm v term negate false) s fun v' s' => I s' (v' :: others)
  closes {s : σ} {v : V} {others : List V} : M.Open s (v :: others) → I s (v :: others) →
    Yields (Target.finishVar v) s fun _ s' => I s' others
  calls {s : σ} {others : List V} (h : Nonempty S) (f : ScalarFunction) {args : Term K S} :
    M.Open s others → I s others → M.KnownTerm s args →
    Yields (Target.applyFunction h f args) s fun _ s' => I s' others
  combines {s : σ} {others : List V} (h : Nonempty S) (op : Operator) {l r : Factor K S} :
    M.Open s others → I s others → M.Known s l → M.Known s r →
    Yields (Target.applyOperator h op l r) s fun _ s' => I s' others
  spaces {s : σ} {others : List V} : M.Open s others → I s others →
    Yields (Target.space : StateM σ Unit) s fun _ s' => I s' others
  comments {s : σ} {others : List V} (text : String) : M.Open s others → I s others →
    Yields (Target.comment text : StateM σ Unit) s fun _ s' => I s' others

/-- **A sound reading may be strengthened** by an invariant that all calls keep. -/
theorem Sound.strengthen (hM : M.Sound) (hI : M.Preserves I) : (M.strengthen I).Sound where
  perm h hperm := ⟨hM.perm h.1 hperm, hI.sublist h.1 h.2 fun _ hw => hperm.mem_iff.2 hw⟩
  abandon {_ vs _} h :=
    ⟨hM.abandon h.1, hI.sublist h.1 h.2 fun _ hw => List.mem_append_right vs hw⟩
  opens h name _ negate hopen hterm := by
    obtain ⟨hkeeps, hopen', hstored⟩ := hM.opens h name negate hopen.1 hterm
    exact ⟨hkeeps.strengthen, ⟨hopen', hI.opens h name negate hopen.1 hopen.2 hterm⟩, hstored⟩
  augments negate hopen hterm := by
    obtain ⟨hkeeps, hopen', hstored⟩ := hM.augments negate hopen.1 hterm
    exact ⟨hkeeps.strengthen, ⟨hopen', hI.augments negate hopen.1 hopen.2 hterm⟩, hstored⟩
  closes hopen := by
    obtain ⟨hkeeps, hopen', heval⟩ := hM.closes hopen.1
    exact ⟨hkeeps.strengthen, ⟨hopen', hI.closes hopen.1 hopen.2⟩, heval⟩
  calls h f _ hopen hargs := by
    obtain ⟨hkeeps, hopen', heval⟩ := hM.calls h f hopen.1 hargs
    exact ⟨hkeeps.strengthen, ⟨hopen', hI.calls h f hopen.1 hopen.2 hargs⟩, heval⟩
  combines h op _ _ hopen hl hr := by
    obtain ⟨hkeeps, hopen', heval⟩ := hM.combines h op hopen.1 hl hr
    exact ⟨hkeeps.strengthen, ⟨hopen', hI.combines h op hopen.1 hopen.2 hl hr⟩, heval⟩
  spaces hopen := by
    obtain ⟨hkeeps, hopen'⟩ := hM.spaces hopen.1
    exact ⟨hkeeps.strengthen, hopen', hI.spaces hopen.1 hopen.2⟩
  comments text hopen := by
    obtain ⟨hkeeps, hopen'⟩ := hM.comments text hopen.1
    exact ⟨hkeeps.strengthen, hopen', hI.comments text hopen.1 hopen.2⟩

end Reading

end Clifford
