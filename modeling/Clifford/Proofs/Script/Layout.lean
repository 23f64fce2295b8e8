import Clifford.Proofs.Script.Representation

/-!
# The layout of multivectors

What is built term by term in a session lists its blades as they were first added to it, whatever
else is done in between. Together with what operations list, with the index that is kept beside the
components, and with the algebras that multivectors fit, this is all that a multivector consists of
besides its coefficients.

## Main definitions

- `Session.added` — the blades that several actions add to a construction
- `Session.indexed` — what several actions make of an indexed draft that follows a construction
- `Session.Tracks` — an indexed draft follows a draft of a session

## Main results

- `Session.Tracks.run` — a draft lists the blades that were added to it, and its index follows
- `Session.indexed_run` — the index that follows a draft is that of the multivector that is read
- `Session.run_layout` — how the multivectors of a session are laid out
-/

namespace Clifford

variable {σ K S V : Type}

namespace Session

/-! ### Constructions -/

section

variable {session : Session σ K S V} {k j : Nat} {c : Construction K S V}

theorem constructions_change_of_ne (hjk : j ≠ k)
    (action : Construction K S V → StateM σ (StepResult K S × Construction K S V)) :
    (session.change j action).constructions[k]? = session.constructions[k]? := by
  unfold change
  split
  · rfl
  · exact List.getElem?_set_ne hjk

theorem constructions_change_self (hc : session.constructions[k]? = some c)
    (action : Construction K S V → StateM σ (StepResult K S × Construction K S V)) :
    (session.change k action).constructions[k]? =
      some ((action c).run session.workspace.target).1.2 := by
  obtain ⟨hk, -⟩ := List.getElem?_eq_some_iff.1 hc
  unfold change
  rw [hc]
  exact List.getElem?_set_self hk

end

variable [Number K] [Ord S] [Target σ K S V]

/-- The blade that an action adds to a construction. Nothing is added where a factor is missing. -/
def addedBy (input : InputSource σ K S) (session : Session σ K S V) (k : Nat) :
    Action K → List Blade
  | .add j blade term _ =>
    match ((Work.factors input term).run.run session.workspace).1 with
    | .ok _ => if j = k then [blade] else []
    | .error _ => []
  | .algebra _ _ _ | .step _ _ | .scalar _ | .multivector _ | .read _ | .space | .comment _ => []

/-- The blades that several actions add to a construction, in this order. -/
def added (input : InputSource σ K S) (session : Session σ K S V) (k : Nat) :
    List (Action K) → List Blade
  | [] => []
  | action :: rest =>
    session.addedBy input k action ++ (session.perform input action).added input k rest

/-- What an action makes of an indexed draft that follows a construction: it gets the same
contribution, in the same state of the target. -/
def indexedBy (input : InputSource σ K S) (session : Session σ K S V) (k : Nat) (A : Algebra K S)
    (draft : IndexedDraft K V) : Action K → IndexedDraft K V
  | .add j blade term negate =>
    match (Work.factors input term).run.run session.workspace with
    | (.ok term, workspace) =>
      if j = k then ((draft.add A.cellName { blade, term, negate }).run workspace.target).1
      else draft
    | (.error _, _) => draft
  | .algebra _ _ _ | .step _ _ | .scalar _ | .multivector _ | .read _ | .space | .comment _ => draft

/-- What several actions make of an indexed draft that follows a construction. -/
def indexed (input : InputSource σ K S) (session : Session σ K S V) (k : Nat) (A : Algebra K S)
    (draft : IndexedDraft K V) : List (Action K) → IndexedDraft K V
  | [] => draft
  | action :: rest =>
    (session.perform input action).indexed input k A (session.indexedBy input k A draft action) rest

variable {input : InputSource σ K S} {session : Session σ K S V} {k : Nat} {A : Algebra K S}
  {bs : List Blade}

/-- An indexed draft follows a draft of a session, which lists the blades that were added to it, or
whose multivector was read. -/
structure Tracks (session : Session σ K S V) (k : Nat) (A : Algebra K S) (bs : List Blade)
    (draft : IndexedDraft K V) : Prop where
  /-- The index is exact. -/
  exact : draft.Exact
  /-- The blades are listed in the order of their first additions. -/
  blades : draft.slots.blades = bs.eraseDups
  /-- The draft of the session has the same slots. -/
  slots : session.constructions[k]? = some (.multivector A draft.slots) ∨
    session.constructions[k]? = some .finished

section Drafts

variable {draft : IndexedDraft K V}

omit [Ord S] in
theorem Tracks.add (h : session.Tracks k A bs draft) (c : Contribution K S) :
    (session.change k fun construction => do
      let construction ← construction.add c
      pure (.nothing, construction)).Tracks k A (bs ++ [c.blade])
        ((draft.add A.cellName c).run session.workspace.target).1 := by
  obtain ⟨hexact, hrun⟩ : Yields (draft.add A.cellName c) session.workspace.target _ :=
    IndexedDraft.add_refines h.exact A.cellName c
  have hslots : ((Draft.add A.cellName c draft.slots).run session.workspace.target).1 =
      ((draft.add A.cellName c).run session.workspace.target).1.slots := congrArg Prod.fst hrun
  refine ⟨hexact, ?_, ?_⟩
  · rw [← Draft.touch_eraseDups, ← h.blades]
    exact (congrArg Draft.blades hslots).symm.trans (Draft.blades_add A.cellName c draft.slots _)
  · rcases h.slots with hdraft | hfinished
    · exact .inl ((constructions_change_self hdraft _).trans
        (congrArg (fun slots => some (Construction.multivector A slots)) hslots))
    · exact .inr (constructions_change_self hfinished _)

omit [Ord S] in
/-- What was read is finished. -/
theorem Tracks.read (h : session.Tracks k A bs draft) :
    (session.change k Construction.read).Tracks k A bs draft := by
  refine ⟨h.exact, h.blades, .inr ?_⟩
  rcases h.slots with hdraft | hfinished
  · exact constructions_change_self hdraft _
  · exact constructions_change_self hfinished _

omit [Number K] [Ord S] [Target σ K S V] in
theorem Tracks.congr {session' : Session σ K S V} (h : session.Tracks k A bs draft)
    (hsame : session'.constructions[k]? = session.constructions[k]?) :
    session'.Tracks k A bs draft :=
  ⟨h.exact, h.blades, hsame ▸ h.slots⟩

omit [Number K] [Ord S] [Target σ K S V] in
theorem Tracks.lt (h : session.Tracks k A bs draft) : k < session.constructions.length := by
  rcases h.slots with hdraft | hfinished
  · exact (List.getElem?_eq_some_iff.1 hdraft).1
  · exact (List.getElem?_eq_some_iff.1 hfinished).1

/-- **One action adds its blade to a draft**, or none, and the index follows. -/
theorem Tracks.perform (h : session.Tracks k A bs draft) (action : Action K) :
    (session.perform input action).Tracks k A (bs ++ session.addedBy input k action)
      (session.indexedBy input k A draft action) := by
  have hbegin : ∀ c : Construction K S V,
      (session.constructions ++ [c])[k]? = session.constructions[k]? :=
    fun c => List.getElem?_append_left h.lt
  cases action with
  | algebra metric names settings =>
    rw [addedBy, List.append_nil]
    refine h.congr ?_
    rw [Session.perform, given]
    split
    · dsimp only
      split <;> rfl
    · rfl
  | step i step =>
    rw [addedBy, List.append_nil]
    refine h.congr ?_
    rw [Session.perform]
    split <;> rfl
  | scalar name =>
    rw [addedBy, List.append_nil]
    exact h.congr (hbegin _)
  | multivector i =>
    rw [addedBy, List.append_nil]
    refine h.congr ?_
    rw [Session.perform]
    split
    · exact hbegin _
    · rfl
  | add j blade term negate =>
    rw [Session.perform, given, addedBy, indexedBy]
    rcases hrun : (Work.factors input term).run.run session.workspace with ⟨e | factors, w⟩
    · rw [List.append_nil]
      exact h.congr rfl
    · have hentered : Tracks { session with workspace := w } k A bs draft := h.congr rfl
      by_cases hj : j = k
      · subst hj
        simp only [if_pos]
        exact hentered.add { blade, term := factors, negate }
      · simp only [if_neg hj, List.append_nil]
        exact hentered.congr (constructions_change_of_ne hj _)
  | read j =>
    rw [addedBy, List.append_nil]
    by_cases hj : j = k
    · subst hj
      exact h.read
    · exact h.congr (constructions_change_of_ne hj _)
  | space =>
    rw [addedBy, List.append_nil]
    exact h.congr rfl
  | comment text =>
    rw [addedBy, List.append_nil]
    exact h.congr rfl

/-- **A draft lists the blades that were added to it**, until it is read, and the index follows. -/
theorem Tracks.run (h : session.Tracks k A bs draft) (input : InputSource σ K S)
    (actions : List (Action K)) :
    (session.run input actions).Tracks k A (bs ++ session.added input k actions)
      (session.indexed input k A draft actions) := by
  induction actions generalizing session bs draft with
  | nil => rwa [added, List.append_nil]
  | cons action rest ih =>
    rw [added, ← List.append_assoc]
    exact ih (h.perform action)

/-- **The index that follows a draft stays exact**, whatever is done in between, and is the index of
the multivector that is read. -/
theorem indexed_run (hexact : draft.Exact)
    (hdraft : session.constructions[k]? = some (.multivector A draft.slots))
    (more : List (Action K)) {B : Algebra K S} {draft' : Draft K V}
    (hdraft' : (session.run input more).constructions[k]? = some (.multivector B draft')) :
    let last := session.indexed input k A draft more
    let after := session.run input more
    last.Exact ∧ last.slots = draft' ∧
      Yields (IndexedMultivector.finish A last) after.workspace.target fun m s' => m.Exact ∧
        (after.perform input (.read k)).workspace =
          { after.workspace with target := s' }.push (.multivector m.plain) := by
  intro last after
  have htracks : session.Tracks k A draft.slots.blades draft :=
    ⟨hexact, (eraseDups_of_nodup hexact.nodup).symm, .inl hdraft⟩
  obtain ⟨hlast, -, hslots | hfinished⟩ := htracks.run input more
  · rw [hdraft'] at hslots
    obtain ⟨rfl, rfl⟩ := Construction.multivector.inj (Option.some.inj hslots)
    refine ⟨hlast, rfl, .bind (.pure ⟨(IndexedMultivector.finish_refines hlast).1, ?_⟩)⟩
    change (after.change k Construction.read).workspace = _
    rw [change, hdraft']
    rfl
  · rw [hfinished] at hdraft'
    cases hdraft'

end Drafts

variable {draft : Draft K V}

omit [Ord S] in
/-- The multivector that is read lists the blades of its draft. -/
theorem read_lists (hdraft : session.constructions[k]? = some (.multivector A draft))
    (hblades : draft.blades = bs.eraseDups) :
    ∃ m, A.Lists bs m ∧ (session.change k Construction.read).workspace.results =
      session.workspace.results.push (.multivector m) := by
  refine ⟨{ owner := A.id, components := (draft.close.run session.workspace.target).1 },
    ⟨rfl, ?_⟩, ?_⟩
  · rw [← hblades]
    exact Draft.blades_close draft _
  · unfold change
    rw [hdraft]
    rfl

/-! ### What a session makes -/

omit [Number K] [Ord S] [Target σ K S V] in
/-- Whatever was made in a session fits one of its algebras. -/
theorem Regular.fits {inRange : Prop} (h : session.Regular inRange) {result : StepResult K S}
    (hresult : result ∈ session.workspace.results) {m : Multivector K S} (hm : m ∈ result.made) :
    ∃ A ∈ session.algebras, A.Fits inRange m := by
  obtain ⟨i, hi⟩ := Array.mem_iff_getElem?.1 hresult
  have hplaced := h.results i
  rw [Array.getD_eq_getD_getElem?, hi] at hplaced
  exact hplaced.placed hm

/-- A draft that was not read lists what was added to it meanwhile, and so does the multivector
that is read from it. -/
theorem Regular.draft_run {inRange : Prop} (h : session.Regular inRange)
    (hdraft : session.constructions[k]? = some (.multivector A draft)) (more : List (Action K))
    {B : Algebra K S} {draft' : Draft K V}
    (hdraft' : (session.run input more).constructions[k]? = some (.multivector B draft')) :
    B = A ∧ draft'.blades = (draft.blades ++ session.added input k more).eraseDups ∧
      ∃ m, A.Lists (draft.blades ++ session.added input k more) m ∧
        ((session.run input more).perform input (.read k)).workspace.results =
          (session.run input more).workspace.results.push (.multivector m) := by
  have hnodup : draft.blades.Nodup := (h.constructions _ (List.mem_of_getElem? hdraft)).2.1
  obtain ⟨index, hindex⟩ := Indexes.exists_of_nodup hnodup
  have htracks : session.Tracks k A draft.blades { slots := draft, index } :=
    ⟨hindex, (eraseDups_of_nodup hnodup).symm, .inl hdraft⟩
  obtain ⟨-, hblades, hslots | hfinished⟩ := htracks.run input more
  · rw [hdraft'] at hslots
    obtain ⟨rfl, rfl⟩ := Construction.multivector.inj (Option.some.inj hslots)
    exact ⟨rfl, hblades, read_lists hdraft' hblades⟩
  · rw [hfinished] at hdraft'
    cases hdraft'

/-- **How the multivectors of a session are laid out**, whatever is done and for every target and
every kind of numbers.

Each belongs to one of the algebras and lists no blade twice; if all blades that the session was
given are of the algebras that they are for, all its blades are of its algebra. A draft lists the
blades that were added to it, in the order of their first additions, and so does the multivector
that is read from it. An operation lists the blades that it adds components for, in their order.

An index that is kept while a multivector is built, at once or by the actions of a session with
whatever comes between them, maps just the listed blades to their positions, and so does that of the
finished multivector. What it finds is what the list holds, and zero for other blades. No blade of
an algebra has a name or a square outside of its tables. -/
theorem run_layout (input : InputSource σ K S) (s : σ) (actions : List (Action K)) :
    let start : Session σ K S V := { workspace := { target := s } }
    let session := start.run input actions
    (∀ result ∈ session.workspace.results, ∀ m ∈ result.made,
        ∃ A ∈ session.algebras, A.Fits (start.Supplies input actions) m) ∧
      (∀ (k : Nat) (A : Algebra K S) (draft : Draft K V) (more : List (Action K)),
        session.constructions[k]? = some (.multivector A draft) →
          ∀ (B : Algebra K S) (draft' : Draft K V),
            (session.run input more).constructions[k]? = some (.multivector B draft') →
              B = A ∧ draft'.blades = (draft.blades ++ session.added input k more).eraseDups ∧
                ∃ m, A.Lists (draft.blades ++ session.added input k more) m ∧
                  ((session.run input more).perform input (.read k)).workspace.results =
                    (session.run input more).workspace.results.push (.multivector m)) ∧
      (∀ (A : Algebra K S) (op : Operation K S) (s s' : σ) (result : StepResult K S),
        (∀ m ∈ op.operands, m.blades.Nodup) → (op.run A).outcome s = (.ok result, s') →
          (∀ m ∈ op.checked, m.owner = (op.algebra A).id) ∧
            ∀ m ∈ result.built, ∃ bs, op.Adds A bs ∧ (op.algebra A).Lists bs m ∧
              ((∀ m ∈ op.operands, ∀ b ∈ m.blades, (op.algebra A).Contains b) →
                ∀ b ∈ m.blades, (op.algebra A).Contains b)) ∧
      (({} : IndexedDraft K V).Exact ∧
        (∀ (A : Algebra K S) (draft : IndexedDraft K V), draft.Exact → ∀ s : σ,
          (∀ cs : List (Contribution K S), Yields (draft.addAll A.cellName cs) s fun draft' s' =>
            draft'.Exact ∧ (draft.slots.addAll A.cellName cs).run s = (draft'.slots, s')) ∧
          Yields (IndexedMultivector.finish (S := S) A draft) s fun m s' =>
            m.Exact ∧ (A.finish draft.slots).outcome s = (.ok m.plain, s')) ∧
        (∀ (A : Algebra K S) (cs : List (Contribution K S)) (s : σ),
          Yields (IndexedMultivector.build A cs) s fun m s' =>
            m.Exact ∧ (A.build cs).outcome s = (.ok m.plain, s')) ∧
        ∀ (k : Nat) (A : Algebra K S) (draft : IndexedDraft K V) (more : List (Action K)),
          draft.Exact → session.constructions[k]? = some (.multivector A draft.slots) →
            ∀ (B : Algebra K S) (draft' : Draft K V),
              (session.run input more).constructions[k]? = some (.multivector B draft') →
                let last := session.indexed input k A draft more
                let after := session.run input more
                last.Exact ∧ last.slots = draft' ∧
                  Yields (IndexedMultivector.finish A last) after.workspace.target fun m s' =>
                    m.Exact ∧ (after.perform input (.read k)).workspace =
                      { after.workspace with target := s' }.push (.multivector m.plain)) ∧
      (∀ m : IndexedMultivector K S, m.Exact → m.plain.blades.Nodup ∧ ∀ b,
        (∀ f, m.get? b = some f ↔ (b, f) ∈ m.components) ∧ m.get? b = m.plain.get? b ∧
          m.value b = m.plain.value b ∧ (b ∉ m.plain.blades → m.value b = .number 0)) ∧
      ∀ (A : Algebra K S) (b : Blade), A.Contains b → A.names[b.toNat]? = some (A.bladeName b) ∧
        ∀ i ∈ b.positions, i < A.metric.length := by
  intro start session
  have hregular : session.Regular (start.Supplies input actions) := (Regular.start s).run fun h => h
  refine ⟨?_, ?_, ?_, ⟨.empty, ?_, ?_, ?_⟩, ?_, ?_⟩
  · exact fun result hresult m hm => hregular.fits hresult hm
  · exact fun k A draft more hdraft B draft' hdraft' => hregular.draft_run hdraft more hdraft'
  · intro A op s s' result hnodup hrun
    have hresult : (((op.run A).outcome s).1) = .ok result := by rw [hrun]
    refine ⟨fun m hm => ?_, fun m hm => ?_⟩
    · simpa [Algebra.owns] using op.run_owned s result hresult m hm
    · obtain ⟨bs, hadds, hlists⟩ := op.run_lists hnodup s result hresult m hm
      exact ⟨bs, hadds, hlists, fun hoperands b hb =>
        hadds.contains hoperands b (hlists.mem.1 hb)⟩
  · intro A draft hexact s
    exact ⟨IndexedDraft.addAll_refines hexact A.cellName, IndexedMultivector.finish_refines hexact⟩
  · exact IndexedMultivector.build_refines
  · exact fun k A draft more hexact hdraft B draft' hdraft' =>
      indexed_run hexact hdraft more hdraft'
  · intro m hexact
    refine ⟨hexact.nodup, fun b => ⟨fun f => ?_, hexact.get? b, hexact.value b, fun hb => ?_⟩⟩
    · rw [hexact.get?]
      exact Multivector.get?_eq_some_iff hexact.nodup
    · rw [hexact.value, Multivector.value, Multivector.get?_eq_none_iff.2 hb]
      rfl
  · intro A b hb
    exact ⟨hb.bladeName, fun i hi => hb.position hi⟩

/-- Two blades, of which the greater one is added first and once more at the end. -/
theorem run_layout_twoBlades :
    let begun : List (Action ℚ) :=
      [.algebra [.number 1, .number 1] ["1", "e1", "e2", "e12"] {}, .multivector 0]
    let more : List (Action ℚ) :=
      [.add 0 3 [.number 2] false, .add 0 1 [.number 5] true, .add 0 3 [.number 1] false]
    let start : Session (Program ℚ) ℚ Handle Slot := { workspace := { target := {} } }
    let session := start.run (fun _ => none) begun
    start.Supplies (fun _ => none) (begun ++ more) ∧
      ∃ A draft, (session.run (fun _ => none) more).constructions[0]? =
        some (.multivector A draft) ∧ draft.blades = [3, 1] := by
  intro begun more start session
  obtain ⟨-, hdrafts, -⟩ := run_layout (V := Slot) (fun _ => none) ({} : Program ℚ) begun
  obtain ⟨-, hblades, -⟩ := hdrafts 0 _ _ more rfl _ _ rfl
  refine ⟨⟨trivial, trivial, ?_, ?_, ?_, trivial⟩, _, _, rfl, hblades.trans (by decide)⟩
  all_goals
    intro A draft hdraft
    obtain ⟨rfl, -⟩ := Construction.multivector.inj (Option.some.inj hdraft)
    decide

end Session

end Clifford
