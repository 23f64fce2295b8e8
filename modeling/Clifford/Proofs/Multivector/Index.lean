import Clifford.Proofs.Algebra.Blades

/-!
# Indexed multivectors

Components can be found by their blades in two ways: by a scan of the list, or by an index from
blades to positions that is kept beside it. Here the index is maintained while a multivector is
built, one entry with every new component, and handed on when it is finished. It maps just the
listed blades to their positions, so looking a blade up by the index is the scan of the list.

## Main definitions

- `IndexedDraft`, `IndexedDraft.add` — components under construction with an index
- `IndexedMultivector`, `IndexedMultivector.get?` — blades with coefficients, looked up by an index
- `IndexedMultivector.build` — what is built from contributions

## Main results

- `IndexedDraft.add_refines` — an indexed draft grows like a draft
- `IndexedMultivector.build_refines` — what is built is the multivector with an exact index
- `IndexedMultivector.Exact.get?` — the index finds what the list holds
-/

namespace Clifford

variable {σ K S V : Type}

/-! ### Drafts -/

/-- Components under construction, in the order in which their blades were touched, with an index
of their positions. -/
structure IndexedDraft (K V : Type) where
  /-- The blades with their cells. -/
  slots : Draft K V := []
  /-- The position of each blade. -/
  index : Std.HashMap Blade Nat := ∅

namespace Draft

theorem blades_set {draft : Draft K V} {i : Nat} {b : Blade} {cell : Cell K V}
    (h : draft[i]? = some (b, cell)) (cell' : Cell K V) :
    Draft.blades (draft.set i (b, cell')) = draft.blades := by
  obtain ⟨hi, hget⟩ := List.getElem?_eq_some_iff.1 h
  have hlt : i < (draft.map Prod.fst).length := by rwa [List.length_map]
  have hb : b = (draft.map Prod.fst)[i] := by rw [List.getElem_map, hget]
  rw [blades, List.map_set, hb, List.set_getElem_self, blades]

variable [Number K] [Target σ K S V]

/-- A contribution for a touched blade goes to its cell. -/
theorem add_of_getElem? (nameOf : Blade → String) (c : Contribution K S) {draft : Draft K V}
    {i : Nat} {cell : Cell K V} (hi : draft[i]? = some (c.blade, cell))
    (hnodup : draft.blades.Nodup) :
    (add nameOf c draft : StateM σ (Draft K V)) =
      (do let cell ← cell.add c.term c.negate
          pure (draft.set i (c.blade, cell))) := by
  induction draft generalizing i with
  | nil => simp at hi
  | cons head rest ih =>
    obtain ⟨blade, first⟩ := head
    obtain ⟨hblade, hrest⟩ := List.nodup_cons.1 hnodup
    cases i with
    | zero =>
      obtain ⟨rfl, rfl⟩ := Prod.mk.inj (Option.some.inj hi)
      rw [add, if_pos rfl]
      rfl
    | succ i =>
      have hmem : c.blade ∈ blades rest :=
        List.mem_map.2 ⟨_, List.mem_of_getElem? hi, rfl⟩
      have hne : blade ≠ c.blade := fun heq => hblade (heq ▸ hmem)
      rw [add, if_neg hne, ih hi hrest]
      simp

/-- A contribution for another blade makes a cell behind the others. -/
theorem add_of_notMem (nameOf : Blade → String) (c : Contribution K S) {draft : Draft K V}
    (h : c.blade ∉ draft.blades) :
    (add nameOf c draft : StateM σ (Draft K V)) =
      (do let cell ← Cell.add (.empty (nameOf c.blade)) c.term c.negate
          pure (draft ++ [(c.blade, cell)])) := by
  induction draft with
  | nil => rfl
  | cons head rest ih =>
    obtain ⟨blade, first⟩ := head
    obtain ⟨hblade, hrest⟩ := not_or.1 (mt List.mem_cons.2 h)
    rw [add, if_neg (Ne.symm hblade), ih hrest]
    simp

end Draft

namespace IndexedDraft

variable [Number K] [Target σ K S V]

/-- Adds a contribution. The first one for a blade creates its cell and its entry of the index. -/
def add (nameOf : Blade → String) (c : Contribution K S) (draft : IndexedDraft K V) :
    StateM σ (IndexedDraft K V) :=
  match draft.index[c.blade]? with
  | some i =>
    match draft.slots[i]? with
    | some (blade, cell) => do
      let cell ← cell.add c.term c.negate
      pure { draft with slots := draft.slots.set i (blade, cell) }
    | none => pure draft
  | none => do
    let cell ← Cell.add (.empty (nameOf c.blade)) c.term c.negate
    pure { slots := draft.slots ++ [(c.blade, cell)]
           index := draft.index.insert c.blade draft.slots.length }

/-- Adds several contributions, in this order. -/
def addAll (nameOf : Blade → String) (draft : IndexedDraft K V) (cs : List (Contribution K S)) :
    StateM σ (IndexedDraft K V) :=
  cs.foldlM (fun draft c => add nameOf c draft) draft

omit [Number K] in
/-- The index of a draft is exact. -/
def Exact (draft : IndexedDraft K V) : Prop := Indexes draft.index draft.slots.blades

variable {draft : IndexedDraft K V} {s : σ}

omit [Number K] in
theorem Exact.empty : ({} : IndexedDraft K V).Exact := Indexes.empty

/-- **An indexed draft grows like a draft**, and its index stays exact. -/
theorem add_refines (h : draft.Exact) (nameOf : Blade → String) (c : Contribution K S) :
    Yields (draft.add nameOf c) s fun draft' s' => draft'.Exact ∧
      (Draft.add nameOf c draft.slots).run s = (draft'.slots, s') := by
  unfold add
  split
  · rename_i i hi
    obtain ⟨cell, hcell⟩ : ∃ cell, draft.slots[i]? = some (c.blade, cell) := by
      have hblade := (h c.blade i).1 hi
      rw [Draft.blades, List.getElem?_map, Option.map_eq_some_iff] at hblade
      obtain ⟨⟨blade, cell⟩, hslot, rfl⟩ := hblade
      exact ⟨cell, hslot⟩
    rw [hcell, Draft.add_of_getElem? nameOf c hcell h.nodup]
    refine .bind (.pure ⟨?_, rfl⟩)
    change Indexes draft.index (Draft.blades (draft.slots.set i (c.blade, _)))
    rw [Draft.blades_set hcell]
    exact h
  · rename_i hnone
    have hblade := h.getElem?_eq_none.1 hnone
    rw [Draft.add_of_notMem nameOf c hblade]
    refine .bind (.pure ⟨?_, rfl⟩)
    have hexact := h.insert hblade
    rw [Draft.blades, List.length_map] at hexact
    change Indexes _ (List.map Prod.fst (draft.slots ++ [(c.blade, _)]))
    rw [List.map_append]
    exact hexact

theorem addAll_refines (h : draft.Exact) (nameOf : Blade → String) (cs : List (Contribution K S)) :
    Yields (draft.addAll nameOf cs) s fun draft' s' => draft'.Exact ∧
      (draft.slots.addAll nameOf cs).run s = (draft'.slots, s') := by
  induction cs generalizing draft s with
  | nil => exact .pure ⟨h, rfl⟩
  | cons c rest ih =>
    rw [addAll, List.foldlM_cons, Draft.addAll, List.foldlM_cons]
    refine .bind (Yields.mono (add_refines h nameOf c) fun draft' s' h' => ?_)
    obtain ⟨hexact, hrun⟩ := h'
    refine Yields.mono (ih hexact) fun draft'' s'' h'' => ⟨h''.1, ?_⟩
    rw [← h''.2, StateT.run_bind, hrun]
    rfl

end IndexedDraft

/-! ### Multivectors -/

namespace Multivector

variable {m : Multivector K S} {b : Blade} {f : Factor K S}

/-- The coefficients are those of the list. -/
theorem get?_eq_some_iff (h : m.blades.Nodup) : m.get? b = some f ↔ (b, f) ∈ m.components := by
  refine ⟨mem_of_lookup, fun hmem => ?_⟩
  unfold blades at h
  unfold get?
  generalize m.components = components at *
  induction components with
  | nil => cases hmem
  | cons head rest ih =>
    obtain ⟨hhead, hrest⟩ := List.nodup_cons.1 h
    obtain rfl | hmem := List.mem_cons.1 hmem
    · simp
    · have hne : b ≠ head.1 := fun heq => hhead (heq ▸ List.mem_map_of_mem hmem)
      rw [List.lookup_cons, beq_false_of_ne hne]
      exact ih hrest hmem

theorem get?_eq_none_iff : m.get? b = none ↔ b ∉ m.blades := by
  refine ⟨fun h hb => ?_, lookup_eq_none_of_notMem⟩
  obtain ⟨⟨c, f⟩, hmem, rfl⟩ := List.mem_map.1 hb
  unfold get? at h
  clear hb
  generalize m.components = components at *
  induction components with
  | nil => cases hmem
  | cons head rest ih =>
    rw [List.lookup_cons] at h
    split at h
    · cases h
    · rename_i hne
      obtain rfl | hmem := List.mem_cons.1 hmem
      · simp at hne
      · exact ih hmem h

end Multivector

/-- Blades with coefficients, and an index of their positions. -/
structure IndexedMultivector (K S : Type) where
  /-- The identity of the algebra that it belongs to. -/
  owner : Nat
  /-- The touched blades, in the order of their first contribution. -/
  components : List (Blade × Factor K S) := []
  /-- The position of each blade. -/
  index : Std.HashMap Blade Nat := ∅
  /-- Whether an operation has established that the norm is one. -/
  knownUnit : Bool := false

namespace IndexedMultivector

/-- The multivector without its index. -/
def plain (m : IndexedMultivector K S) : Multivector K S :=
  { owner := m.owner, components := m.components, knownUnit := m.knownUnit }

/-- The coefficient of a touched blade, found by the index. -/
def get? (m : IndexedMultivector K S) (b : Blade) : Option (Factor K S) :=
  match m.index[b]? with
  | some i => (m.components[i]?).map Prod.snd
  | none => none

/-- The coefficient of a blade, found by the index. -/
def value [Number K] (m : IndexedMultivector K S) (b : Blade) : Factor K S :=
  (m.get? b).getD (.number 0)

/-- The index of a multivector is exact. -/
def Exact (m : IndexedMultivector K S) : Prop := Indexes m.index m.plain.blades

variable {m : IndexedMultivector K S}

/-- **The index finds what the list holds.** -/
theorem Exact.get? (h : m.Exact) (b : Blade) : m.get? b = m.plain.get? b := by
  unfold IndexedMultivector.get?
  split
  · rename_i i hi
    have hblade := (h b i).1 hi
    rw [Multivector.blades, List.getElem?_map, Option.map_eq_some_iff] at hblade
    obtain ⟨⟨c, f⟩, hcomponent, rfl⟩ := hblade
    have hmem : (c, f) ∈ m.plain.components := List.mem_of_getElem? hcomponent
    rw [(Multivector.get?_eq_some_iff h.nodup).2 hmem]
    exact congrArg (Option.map Prod.snd) hcomponent
  · rename_i hnone
    exact (Multivector.get?_eq_none_iff.2 (h.getElem?_eq_none.1 hnone)).symm

theorem Exact.value [Number K] (h : m.Exact) (b : Blade) : m.value b = m.plain.value b := by
  rw [IndexedMultivector.value, h.get?, Multivector.value]

variable [Number K] [Target σ K S V] {A : Algebra K S} {s : σ}

/-- The multivector of a draft, which keeps the index. -/
def finish (A : Algebra K S) (draft : IndexedDraft K V) : StateM σ (IndexedMultivector K S) := do
  let components ← draft.slots.close
  pure { owner := A.id, components, index := draft.index }

/-- The multivector with the given contributions, which are emitted in this order. -/
def build (A : Algebra K S) (cs : List (Contribution K S)) :
    StateM σ (IndexedMultivector K S) := do
  let draft ← IndexedDraft.addAll A.cellName {} cs
  finish A draft

/-- The finished multivector has the index of its draft. -/
theorem finish_refines {draft : IndexedDraft K V} (h : draft.Exact) :
    Yields (finish A draft) s fun m s' => m.Exact ∧
      (A.finish draft.slots).outcome s = (.ok m.plain, s') := by
  refine .bind (.pure ⟨?_, rfl⟩)
  change Indexes draft.index (((draft.slots.close (S := S)).run s).1.map Prod.fst)
  rw [Draft.blades_close]
  exact h

/-- **What is built is the multivector, with an exact index.** -/
theorem build_refines (A : Algebra K S) (cs : List (Contribution K S)) (s : σ) :
    Yields (build A cs) s fun m s' => m.Exact ∧ (A.build cs).outcome s = (.ok m.plain, s') := by
  refine .bind (Yields.mono (IndexedDraft.addAll_refines .empty A.cellName cs) ?_)
  intro draft s' h
  obtain ⟨hexact, hrun⟩ := h
  refine Yields.mono (finish_refines (A := A) hexact) fun m s'' hm => ⟨hm.1, ?_⟩
  have hextend : (A.extend [] cs).outcome s = (.ok draft.slots, s') := by
    have hslots : (Draft.addAll A.cellName [] cs).run s = (draft.slots, s') := hrun
    exact congrArg (fun r : Draft K V × σ => (Except.ok r.1, r.2)) hslots
  rw [Algebra.build, Emission.outcome_bind, hextend]
  exact hm.2

end IndexedMultivector

end Clifford
