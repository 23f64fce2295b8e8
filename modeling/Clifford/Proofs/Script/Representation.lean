import Clifford.Proofs.Algebra.Closure
import Clifford.Proofs.Multivector.Index
import Clifford.Proofs.Script.Session
import Clifford.Proofs.Script.UnitHints

/-!
# Representation of multivectors

Whatever is done in a session, no multivector lists a blade twice, each belongs to the algebra that
made it, and its blades are of that algebra if all blades that the session was given are. What is
built term by term lists its blades as they were first added. None of this depends on the target
or on the numbers.

## Main definitions

- `Algebra.Fits` — a multivector of the algebra without repeated blades
- `Session.Supplies` — all blades that a session is given are of the algebras that they are for

## Main results

- `Session.Regular.run` — every multivector of a session fits its algebra
-/

namespace Clifford

variable {σ K S V : Type}

/-! ### Fitting multivectors -/

/-- A multivector of the algebra that lists no blade twice. If `inRange` holds, its blades are of
the algebra. -/
structure Algebra.Fits (A : Algebra K S) (inRange : Prop) (m : Multivector K S) : Prop where
  /-- It carries the identity of the algebra. -/
  owner : m.owner = A.id
  /-- No blade is listed twice. -/
  nodup : m.blades.Nodup
  /-- Its blades are made of basis vectors of the algebra. -/
  contains : inRange → ∀ b ∈ m.blades, A.Contains b

/-- No two algebras have the same identity. -/
def Algebra.Distinct (algebras : List (Algebra K S)) : Prop :=
  ∀ A ∈ algebras, ∀ B ∈ algebras, A.id = B.id → A = B

/-- A multivector that fits one of several algebras. -/
def Multivector.Placed (m : Multivector K S) (algebras : List (Algebra K S)) (inRange : Prop) :
    Prop :=
  ∃ A ∈ algebras, A.Fits inRange m

variable {algebras : List (Algebra K S)} {inRange : Prop} {A : Algebra K S} {m : Multivector K S}

theorem Algebra.Fits.withKnownUnit (h : A.Fits inRange m) (knownUnit : Bool) :
    A.Fits inRange (m.withKnownUnit knownUnit) :=
  ⟨h.owner, h.nodup, h.contains⟩

theorem Algebra.fits_zero : A.Fits inRange A.zero := ⟨rfl, List.nodup_nil, fun _ => nofun⟩

namespace Multivector.Placed

theorem nodup (h : m.Placed algebras inRange) : m.blades.Nodup := by
  obtain ⟨A, -, hfits⟩ := h
  exact hfits.nodup

theorem withKnownUnit (h : m.Placed algebras inRange) (knownUnit : Bool) :
    (m.withKnownUnit knownUnit).Placed algebras inRange := by
  obtain ⟨A, hA, hfits⟩ := h
  exact ⟨A, hA, hfits.withKnownUnit knownUnit⟩

theorem append (h : m.Placed algebras inRange) (others : List (Algebra K S)) :
    m.Placed (algebras ++ others) inRange := by
  obtain ⟨A, hA, hfits⟩ := h
  exact ⟨A, List.mem_append_left _ hA, hfits⟩

/-- A multivector fits the algebra that owns it. -/
theorem fits (h : m.Placed algebras inRange)
    (hids : Algebra.Distinct algebras) (hA : A ∈ algebras)
    (howner : m.owner = A.id) : A.Fits inRange m := by
  obtain ⟨B, hB, hfits⟩ := h
  obtain rfl := hids B hB A hA (hfits.owner.symm.trans howner)
  exact hfits

end Multivector.Placed

section Operations

variable [Number K] [Ord S] [Target σ K S V]

/-- **What an operation makes fits its algebra**, if its operands do wherever the algebra owns
them. -/
theorem Operation.run_fits (op : Operation K S) (hnodup : ∀ m ∈ op.operands, m.blades.Nodup)
    (hoperands : (∀ m ∈ op.checked, (op.algebra A).owns m = true) → inRange →
      ∀ m ∈ op.operands, ∀ b ∈ m.blades, (op.algebra A).Contains b) :
    (op.run A : Emission σ K (StepResult K S)).Returns fun result =>
      ∀ m ∈ result.built, (op.algebra A).Fits inRange m := by
  intro s result hresult m hm
  obtain ⟨bs, hadds, hlists⟩ := op.run_lists hnodup s result hresult m hm
  refine ⟨hlists.owner, hlists.nodup, fun hinRange b hb => ?_⟩
  have hchecked := op.run_owned s result hresult
  exact hadds.contains (hoperands hchecked hinRange) b (hlists.mem.1 hb)

end Operations

/-! ### A reading of any target -/

section Blank

variable [Number K] {α : Type} {s s' : σ}

/-- A reading that fits every target, as it takes all symbols for zero. -/
def Reading.blank (σ K S V : Type) [Number K] : Reading σ K S V where
  eval? _ _ := some 0
  stored _ _ := 0
  Open _ _ := True

namespace Reading

theorem advances_blank : (blank σ K S V).Advances s s' := ⟨fun _ _ h => h, trivial⟩

theorem ready_blank (A : Algebra K S) (s : σ) :
    (blank σ K S V).Ready A s ((blank σ K S V).squares s A.metric) :=
  ⟨trivial, squares_spec fun _ _ _ _ => ⟨0, rfl⟩⟩

/-- What holds of whatever a computation returns holds of how it ends. -/
theorem Ends.of_returns {c : Emission σ K α} {Q : α → Prop} (h : c.Returns Q) (s : σ) :
    (blank σ K S V).Ends True c s fun a _ => Q a := by
  refine ⟨advances_blank, ?_⟩
  have hreturns := h s
  unfold Emission.outcome at hreturns
  generalize (c.run.run s).1 = r at hreturns ⊢
  cases r with
  | error e => trivial
  | ok a => exact hreturns a rfl

end Reading

end Blank

/-! ### Steps -/

/-- Multivectors fit one of the algebras, and prepared operators fit their own. -/
def Guarantees.placed (σ : Type) (algebras : List (Algebra K S)) (inRange : Prop) :
    Guarantees σ K S where
  multivector _ m := m.Placed algebras inRange
  factor _ _ := True
  sandwich _ P := P.algebra ∈ algebras ∧ P.algebra.Fits inRange P.operator
  circle _ _ := True

namespace Guarantees

/-- What was made fits one of the algebras, also as a prepared operator. -/
theorem Result.placed {s : σ} {result : StepResult K S}
    (h : (placed σ algebras inRange).Result s result) (hm : m ∈ result.made) :
    m.Placed algebras inRange := by
  cases result with
  | nothing => cases hm
  | multivector m' => exact List.mem_singleton.1 hm ▸ h
  | multivectors ms => exact h m hm
  | scalar f => cases hm
  | sandwich P => exact List.mem_singleton.1 hm ▸ ⟨P.algebra, h.1, h.2⟩
  | points circle items =>
    refine h.2 m ?_
    obtain ⟨item, hitem, hm⟩ := List.mem_filterMap.1 hm
    cases item with
    | error e => cases hm
    | ok m' => exact Option.some.inj hm ▸ hitem

theorem lasting_placed [Number K] (M : Reading σ K S V) :
    (placed σ algebras inRange).Lasting M where
  multivector _ h := h
  factor _ h := h
  sandwich _ h := h
  circle _ h := h
  number _ := trivial
  value _ _ := trivial

/-- The same, and circles lie in an algebra. This holds while the points of a circle are
computed. -/
def arcs (σ : Type) (algebras : List (Algebra K S)) (inRange : Prop) (A : Algebra K S) :
    Guarantees σ K S :=
  { placed σ algebras inRange with
    circle := fun _ c => A.Fits inRange c.first ∧ A.Fits inRange c.last }

theorem lasting_arcs [Number K] (M : Reading σ K S V) :
    (arcs σ algebras inRange A).Lasting M where
  multivector _ h := h
  factor _ h := h
  sandwich _ h := h
  circle _ h := h
  number _ := trivial
  value _ _ := trivial

theorem supplied_placed [Number K] (input : InputSource σ K S) :
    (placed σ algebras inRange).Supplied (Reading.blank σ K S V) input :=
  fun _ _ _ _ _ => ⟨Reading.advances_blank, trivial⟩

end Guarantees

section Steps

variable [Number K] [Ord S] [Target σ K S V] {q : Nat → K} {input : InputSource σ K S}
  {w : Workspace σ K S} {a b : Multivector K S}

/-- An operation that compares all its operands with its algebra makes what fits it. -/
theorem Operation.built_placed (hids : Algebra.Distinct algebras)
    (hA : A ∈ algebras) {op : Operation K S} (halgebra : op.algebra A = A)
    (hchecked : op.checked = op.operands) (hop : ∀ m ∈ op.operands, m.Placed algebras inRange) :
    (op.run A : Emission σ K (StepResult K S)).Returns fun result =>
      ∀ m ∈ result.built, m.Placed algebras inRange := by
  have hfits : (op.run A : Emission σ K (StepResult K S)).Returns fun result =>
      ∀ m ∈ result.built, (op.algebra A).Fits inRange m := by
    refine op.run_fits (fun m hm => (hop m hm).nodup) ?_
    rw [halgebra, hchecked]
    intro howned hinRange m hm
    have howner : m.owner = A.id := by simpa [Algebra.owns] using howned m hm
    exact ((hop m hm).fits hids hA howner).contains hinRange
  exact hfits.mono fun result h m hm => ⟨A, hA, halgebra ▸ h m hm⟩

/-- The same of the computation that the operation consists of. -/
theorem Operation.made_placed (hids : Algebra.Distinct algebras)
    (hA : A ∈ algebras) (op : Operation K S) {c : Emission σ K (Multivector K S)}
    (hc : op.run A = StepResult.multivector <$> c) (halgebra : op.algebra A = A)
    (hchecked : op.checked = op.operands) (hop : ∀ m ∈ op.operands, m.Placed algebras inRange)
    (s : σ) : (Reading.blank σ K S V).Ends True c s fun r _ => r.Placed algebras inRange := by
  have hbuilt := built_placed (σ := σ) (V := V) hids hA halgebra hchecked hop
  rw [hc] at hbuilt
  exact .of_returns (hbuilt.of_map.mono fun r hr => hr r List.mem_cons_self) s

omit [Ord S] in
/-- The circle of two vectors goes from the one to the other, and the algebra owns both. -/
theorem Algebra.slerp_returns :
    (A.slerp a b : Emission σ K (Slerp K S)).Returns fun circle =>
      (circle.first = a ∧ circle.last = b) ∧ A.owns a = true ∧ A.owns b = true := by
  intro s circle hcircle
  refine ⟨?_, Algebra.slerp_screens.returns s circle hcircle⟩
  have hends : (A.slerp a b : Emission σ K (Slerp K S)).Returns fun circle =>
      circle.first = a ∧ circle.last = b := .after fun _ => .after fun _ => .pure ⟨rfl, rfl⟩
  exact hends s circle hcircle

/-- The points between two vectors fit the algebra. No step refers to a circle later on, so nothing
has to be kept of it. -/
theorem Step.slerp_placed (hids : Algebra.Distinct algebras) (hA : A ∈ algebras)
    (hw : (Guarantees.placed σ algebras inRange).Holds (.blank σ K S V) A q w) (a b : MvRef)
    (ts : List (FactorRef K)) :
    (Guarantees.placed σ algebras inRange).Keeps (.blank σ K S V) A q
      ((Step.slerp a b ts).perform A input) w (Guarantees.placed σ algebras inRange).Result := by
  have hG : (Guarantees.placed σ algebras inRange).Lasting (Reading.blank σ K S V) :=
    Guarantees.lasting_placed _
  refine .bind (Guarantees.factors_keeps hG (Guarantees.supplied_placed input) hw ts) ?_
  intro ts w₁ hw₁ _ _
  refine .bind (Guarantees.multivector_keeps hw₁ a) fun a w₂ hw₂ _ ha => ?_
  refine .bind (Guarantees.multivector_keeps hw₂ b) fun b w₃ hw₃ _ hb => ?_
  refine .bind (.emission hG hw₃ (.of_returns Algebra.slerp_returns w₃.target)) ?_
  intro circle w₄ hw₄ _ hcircle
  obtain ⟨⟨hfirst, hlast⟩, hownsa, hownsb⟩ := hcircle
  have hfits : A.Fits inRange circle.first ∧ A.Fits inRange circle.last := by
    rw [hfirst, hlast]
    exact ⟨ha.fits hids hA (by simpa [Algebra.owns] using hownsa),
      hb.fits hids hA (by simpa [Algebra.owns] using hownsb)⟩
  have hpoint : ∀ s c t, (Reading.blank σ K S V).Ready A s q →
      (Guarantees.arcs σ algebras inRange A).circle s c → True →
        (Reading.blank σ K S V).Ends True (A.slerpAt c t) s fun r _ =>
          r.Placed algebras inRange := by
    intro s c t _ hc _
    have hends : ∀ m ∈ [c.first, c.last], A.Fits inRange m :=
      List.forall_mem_cons.2 ⟨hc.1, List.forall_mem_singleton.2 hc.2⟩
    have hbuilt : ((Operation.slerpAt c t).run A : Emission σ K (StepResult K S)).Returns
        fun result => ∀ m ∈ result.built, A.Fits inRange m :=
      Operation.run_fits _ (fun m hm => (hends m hm).nodup)
        fun _ hinRange m hm => (hends m hm).contains hinRange
    exact .of_returns (hbuilt.of_map.mono fun r hr => ⟨A, hA, hr r List.mem_cons_self⟩) s
  refine .bind (.onTarget hG hw₄ (Guarantees.points_yields (Guarantees.lasting_arcs _) hw₄.ready
    hpoint hfits fun _ _ => trivial)) ?_
  exact fun points w₅ hw₅ _ hpoints => .pure hw₅ ⟨trivial, hpoints⟩

/-- **What a step makes fits one of the algebras.** -/
theorem Step.perform_placed (hids : Algebra.Distinct algebras) (hA : A ∈ algebras)
    (hw : (Guarantees.placed σ algebras inRange).Holds (.blank σ K S V) A q w) (step : Step K) :
    (Guarantees.placed σ algebras inRange).Keeps (.blank σ K S V) A q (step.perform A input) w
      (Guarantees.placed σ algebras inRange).Result := by
  have hG : (Guarantees.placed σ algebras inRange).Lasting (Reading.blank σ K S V) :=
    Guarantees.lasting_placed _
  have hinput : (Guarantees.placed σ algebras inRange).Supplied (Reading.blank σ K S V) input :=
    Guarantees.supplied_placed input
  -- A scalar may be anything.
  have hscalar : ∀ (c : Emission σ K (Factor K S)) (s : σ),
      (Reading.blank σ K S V).Ends True c s fun _ _ => True :=
    fun c s => .of_returns (fun _ _ _ => trivial) s
  have hmade : ∀ (op : Operation K S) (c : Emission σ K (Multivector K S)),
      op.run A = StepResult.multivector <$> c → op.algebra A = A → op.checked = op.operands →
        (∀ m ∈ op.operands, m.Placed algebras inRange) → ∀ s,
          (Reading.blank σ K S V).Ends True c s fun r _ => r.Placed algebras inRange :=
    fun op _ => Operation.made_placed hids hA op
  have hpair : ∀ {a b : Multivector K S}, a.Placed algebras inRange →
      b.Placed algebras inRange → ∀ m ∈ [a, b], m.Placed algebras inRange :=
    fun ha hb => List.forall_mem_cons.2 ⟨ha, List.forall_mem_singleton.2 hb⟩
  have hsingle : ∀ {m : Multivector K S}, m.Placed algebras inRange →
      ∀ m' ∈ [m], m'.Placed algebras inRange := fun h => List.forall_mem_singleton.2 h
  by_cases hslerp : ∃ a b ts, step = .slerp a b ts
  · obtain ⟨a, b, ts, rfl⟩ := hslerp
    exact slerp_placed hids hA hw a b ts
  refine Guarantees.Admits.perform hG hinput hw ?_
  cases step with
  | zero => exact fun s => ⟨A, hA, Algebra.fits_zero⟩
  | one => exact fun s _ => hmade .one _ rfl rfl rfl nofun s
  | pseudoscalar => exact fun s _ => hmade .pseudoscalar _ rfl rfl rfl nofun s
  | basisVectors =>
    have hbuilt : (Operation.basisVectors.run A : Emission σ K (StepResult K S)).Returns
        fun result => ∀ m ∈ result.built, m.Placed algebras inRange :=
      Operation.built_placed hids hA rfl rfl nofun
    exact fun s _ => .of_returns hbuilt.of_map s
  | scalar x => exact fun s x _ _ => hmade (.scalar x) _ rfl rfl rfl nofun s
  | vector xs => exact fun s xs _ _ => hmade (.vector xs) _ rfl rfl rfl nofun s
  | named components => exact fun s cs _ _ => hmade (.named cs) _ rfl rfl rfl nofun s
  | call f args => exact fun s xs _ _ => hscalar _ s
  | combine op l r => exact fun s x y _ _ _ => hscalar _ s
  | coefficient m b => trivial
  | scale x m => exact fun s x m _ _ hm => hmade (.scale x m) _ rfl rfl rfl (hsingle hm) s
  | withKnownUnit m knownUnit => exact fun s m hm => hm.withKnownUnit knownUnit
  | unary op m => exact fun s m _ hm => hmade (.unary op m) _ rfl rfl rfl (hsingle hm) s
  | binary op a b =>
    exact fun s a b _ ha hb => hmade (.binary op a b) _ rfl rfl rfl (hpair ha hb) s
  | measure op m => exact fun s m _ _ => hscalar _ s
  | compare op a b => exact fun s a b _ _ _ => hscalar _ s
  | plus ms => exact fun s ms _ hms => hmade (.plus ms) _ rfl rfl rfl hms s
  | mulAll kind ms => exact fun s ms _ hms => hmade (.mulAll kind ms) _ rfl rfl rfl hms s
  | outermorphism m rows =>
    exact fun s m matrix _ hm _ => hmade (.outermorphism m matrix) _ rfl rfl rfl (hsingle hm) s
  | slerp a b ts => exact absurd ⟨a, b, ts, rfl⟩ hslerp
  | sandwich operator =>
    intro s m _ hm
    have hprepared : (A.sandwich m : Emission σ K (Sandwich K S)).Returns fun P =>
        P.algebra ∈ algebras ∧ P.algebra.Fits inRange P.operator :=
      .bind Algebra.check_returns fun _ howner => .pure ⟨hA, hm.fits hids hA howner⟩
    exact .of_returns hprepared s
  | apply step x options =>
    intro s P x _ hP hx
    refine Yields.mono (P.applyWith_lists x options) fun r s' hr => ?_
    obtain ⟨hsame, hresult⟩ := hr
    refine ⟨Reading.advances_blank, ?_, fun m hm => ?_⟩
    · change r.2.algebra ∈ algebras ∧ r.2.algebra.Fits inRange r.2.operator
      rw [hsame.1, hsame.2]
      exact hP
    · obtain ⟨howner, hlists⟩ := hresult _ hm
      have hlists := hlists m rfl
      refine ⟨P.algebra, hP.1, hlists.owner, hlists.nodup, fun hinRange b hb => ?_⟩
      exact Sandwich.contains_surviving (hP.2.contains hinRange)
        ((hx.fits hids hP.1 howner).contains hinRange) b (hlists.mem.1 hb)
  | force step =>
    intro s P _ hP
    refine Yields.mono Sandwich.force_same fun P' s' hsame => ⟨Reading.advances_blank, ?_⟩
    change P'.algebra ∈ algebras ∧ P'.algebra.Fits inRange P'.operator
    rw [hsame.1, hsame.2]
    exact hP
  | chain operators x =>
    exact fun s ms x _ hms hx =>
      hmade (.chain ms x) _ rfl rfl rfl (List.forall_mem_cons.2 ⟨hx, hms⟩) s

end Steps

/-! ### Sessions -/

/-- The draft of a multivector fits its algebra. -/
def Construction.Regular (algebras : List (Algebra K S)) (inRange : Prop) :
    Construction K S V → Prop
  | multivector A draft => A ∈ algebras ∧ draft.blades.Nodup ∧
    (inRange → ∀ b ∈ draft.blades, A.Contains b)
  | scalar _ | finished => True

namespace Session

/-- Every multivector of a session fits one of its algebras, and so does what is being built. -/
structure Regular (inRange : Prop) (session : Session σ K S V) : Prop where
  /-- The identity of an algebra is its number. -/
  ids : ∀ (i : Nat) (A : Algebra K S), session.algebras[i]? = some A → A.id = i
  /-- What was made fits. -/
  results : ∀ i, (Guarantees.placed σ session.algebras inRange).Result session.workspace.target
    (session.workspace.results.getD i .nothing)
  /-- What is being built fits. -/
  constructions : ∀ c ∈ session.constructions, c.Regular session.algebras inRange

/-- The blade of an action that adds a term to a multivector is of the algebra of this
multivector. -/
def Accepts (session : Session σ K S V) : Action K → Prop
  | .add k blade _ _ => ∀ A draft, session.constructions[k]? = some (.multivector A draft) →
    A.Contains blade
  | _ => True

variable [Number K] [Ord S] [Target σ K S V]

/-- Every blade that a session is given during several actions is of the algebra that it is
for. -/
def Supplies (input : InputSource σ K S) (session : Session σ K S V) : List (Action K) → Prop
  | [] => True
  | action :: rest => session.Accepts action ∧ (session.perform input action).Supplies input rest

end Session

theorem Algebra.id_of_create {id : Nat} {metric : Metric K S} {names : List String}
    {settings : Settings K} {A : Algebra K S}
    (h : Algebra.create id metric names settings = .ok A) : A.id = id := by
  unfold Algebra.create at h
  split at h
  · split at h
    · cases h
      rfl
    · cases h
  · cases h

namespace Session.Regular

variable {session : Session σ K S V} {w : Workspace σ K S}

theorem start (s : σ) : Regular inRange ({ workspace := { target := s } } : Session σ K S V) :=
  ⟨nofun, fun _ => trivial, nofun⟩

theorem distinct (h : session.Regular inRange) : Algebra.Distinct session.algebras := by
  intro A hA B hB hid
  obtain ⟨i, hi⟩ := List.mem_iff_getElem?.1 hA
  obtain ⟨j, hj⟩ := List.mem_iff_getElem?.1 hB
  obtain rfl : i = j := by rw [← h.ids i A hi, ← h.ids j B hj, hid]
  exact Option.some.inj (hi.symm.trans hj)

/-- The workspace may change while the algebras and constructions stay as they are. -/
theorem enter (h : session.Regular inRange) (hw : ∀ i,
    (Guarantees.placed σ session.algebras inRange).Result w.target (w.results.getD i .nothing)) :
    Regular inRange { session with workspace := w } :=
  ⟨h.ids, hw, h.constructions⟩

variable [Number K]

theorem holds (h : session.Regular inRange) (A : Algebra K S) :
    (Guarantees.placed σ session.algebras inRange).Holds (.blank σ K S V) A
      ((Reading.blank σ K S V).squares session.workspace.target A.metric) session.workspace :=
  ⟨Reading.ready_blank A _, h.results⟩

theorem push (h : session.Regular inRange) {result : StepResult K S}
    (hresult : (Guarantees.placed σ session.algebras inRange).Result session.workspace.target
      result) : (session.push result).Regular inRange :=
  h.enter ((h.holds (point K S)).push hresult).results

theorem push_nothing (h : session.Regular inRange) : (session.push .nothing).Regular inRange :=
  h.push trivial

theorem emit (h : session.Regular inRange) (call : StateM σ Unit) :
    (session.emit call).Regular inRange :=
  push_nothing (h.enter (w := { session.workspace with
    target := (call.run session.workspace.target).2 }) h.results)

/-- Reading factors makes nothing. -/
theorem given {input : InputSource σ K S} {refs : List (FactorRef K)}
    {next : Session σ K S V → Term K S → Session σ K S V} (h : session.Regular inRange)
    (hnext : ∀ w factors, Regular inRange { session with workspace := w } →
      (next { session with workspace := w } factors).Regular inRange) :
    (session.given input refs next).Regular inRange := by
  obtain ⟨-, hw, -⟩ := Guarantees.factors_keeps (Guarantees.lasting_placed _)
    (Guarantees.supplied_placed input) (h.holds (point K S)) refs
  unfold Session.given
  rcases hrun : (Work.factors input refs).run.run session.workspace with ⟨e | factors, w⟩
  · rw [hrun] at hw
    exact (h.enter hw.results).push_nothing
  · rw [hrun] at hw
    exact hnext w factors (h.enter hw.results)

omit [Number K]

theorem begin (h : session.Regular inRange) {c : Construction K S V}
    (hc : c.Regular session.algebras inRange) :
    Regular inRange { session with constructions := session.constructions ++ [c] } :=
  ⟨h.ids, h.results, List.forall_mem_append.2 ⟨h.constructions, List.forall_mem_singleton.2 hc⟩⟩

/-- A new algebra gets the next number. -/
theorem create (h : session.Regular inRange) {A : Algebra K S}
    (hid : A.id = session.algebras.length) :
    Regular inRange { session with algebras := session.algebras ++ [A] } where
  ids i B hB := by
    rw [List.getElem?_append] at hB
    split at hB
    · exact h.ids i B hB
    · rename_i hi
      rw [List.getElem?_singleton] at hB
      split at hB
      · obtain rfl := Option.some.inj hB
        omega
      · cases hB
  results i := by
    have hresult := h.results i
    generalize session.workspace.results.getD i .nothing = result at hresult ⊢
    cases result with
    | nothing => trivial
    | multivector m => exact hresult.append [A]
    | multivectors ms => exact fun m hm => (hresult m hm).append [A]
    | scalar f => trivial
    | sandwich P => exact ⟨List.mem_append_left _ hresult.1, hresult.2⟩
    | points circle points => exact ⟨trivial, fun m hm => (hresult.2 m hm).append [A]⟩
  constructions c hc := by
    have hregular := h.constructions c hc
    cases c with
    | scalar accumulator => trivial
    | multivector B draft => exact ⟨List.mem_append_left _ hregular.1, hregular.2⟩
    | finished => trivial

variable [Number K]

/-- Work on one construction. -/
theorem change (h : session.Regular inRange) (k : Nat)
    {action : Construction K S V → StateM σ (StepResult K S × Construction K S V)}
    (haction : ∀ c, session.constructions[k]? = some c → c.Regular session.algebras inRange →
      Yields (action c) session.workspace.target fun r s' =>
        r.2.Regular session.algebras inRange ∧
          (Guarantees.placed σ session.algebras inRange).Result s' r.1) :
    (session.change k action).Regular inRange := by
  unfold Session.change
  cases hc : session.constructions[k]? with
  | none => exact h.push_nothing
  | some c =>
    obtain ⟨hregular, hresult⟩ :=
      haction c hc (h.constructions c (List.mem_of_getElem? hc))
    dsimp only
    generalize (action c).run session.workspace.target = after at hregular hresult ⊢
    obtain ⟨⟨result, c'⟩, target⟩ := after
    have hconstructions : ∀ other ∈ session.constructions.set k c',
        other.Regular session.algebras inRange := by
      intro other hother
      obtain hother | rfl := List.mem_or_eq_of_mem_set hother
      · exact h.constructions other hother
      · exact hregular
    have hchanged : Session.Regular inRange { session with
        workspace := { session.workspace with target }
        constructions := session.constructions.set k c' } :=
      ⟨h.ids, h.results, hconstructions⟩
    exact hchanged.push hresult

variable [Target σ K S V]

theorem add_yields {c : Construction K S V} (hc : c.Regular session.algebras inRange)
    (contribution : Contribution K S) (hblade : inRange → ∀ A draft,
      c = .multivector A draft → A.Contains contribution.blade) (s : σ) :
    Yields (c.add contribution) s fun c' _ => c'.Regular session.algebras inRange := by
  cases c with
  | scalar accumulator =>
    refine .bind (Yields.mono (P := fun _ _ => True) trivial fun r _ _ => ?_)
    cases r <;> exact .pure trivial
  | multivector A draft =>
    refine .bind (Yields.mono (P := fun draft' _ =>
      Draft.blades draft' = Draft.touch contribution.blade draft.blades)
      (Draft.blades_add A.cellName contribution draft s) fun draft' _ hblades => .pure ?_)
    obtain ⟨hA, hnodup, hcontains⟩ := hc
    refine ⟨hA, ?_, fun hinRange b hb => ?_⟩
    · rw [hblades]
      exact Draft.nodup_touch hnodup
    · rw [hblades, Draft.mem_touch] at hb
      obtain rfl | hb := hb
      · exact hblade hinRange A draft rfl
      · exact hcontains hinRange b hb
  | finished => exact .pure trivial

theorem read_yields {c : Construction K S V} (hc : c.Regular session.algebras inRange) (s : σ) :
    Yields (c.read (σ := σ)) s fun r s' => r.2.Regular session.algebras inRange ∧
      (Guarantees.placed σ session.algebras inRange).Result s' r.1 := by
  cases c with
  | scalar accumulator => exact .bind (.pure ⟨trivial, trivial⟩)
  | multivector A draft =>
    obtain ⟨hA, hnodup, hcontains⟩ := hc
    refine .bind (Yields.mono
      (P := fun (components : List (Blade × Factor K S)) _ =>
        components.map Prod.fst = draft.blades)
      (Draft.blades_close draft s) fun components _ hblades => .pure ⟨trivial, A, hA, rfl, ?_, ?_⟩)
    · rw [Multivector.blades, hblades]
      exact hnodup
    · rw [Multivector.blades, hblades]
      exact hcontains
  | finished => exact .pure ⟨trivial, trivial⟩

variable [Ord S] {input : InputSource σ K S}

/-- **An action keeps a session regular**, whether it succeeds or fails. -/
theorem perform (h : session.Regular inRange) {action : Action K}
    (haccepts : inRange → session.Accepts action) :
    (session.perform input action).Regular inRange := by
  unfold Session.perform
  cases action with
  | algebra metric names settings =>
    refine h.given fun w metric h' => ?_
    dsimp only
    cases hcreate : Algebra.create session.algebras.length metric names settings with
    | error e => exact h'.push_nothing
    | ok A => exact (h'.create (Algebra.id_of_create hcreate)).push_nothing
  | step i step =>
    dsimp only
    cases hA : session.algebras[i]? with
    | none => exact h.push_nothing
    | some A =>
      have hkeeps : (Guarantees.placed σ session.algebras inRange).Keeps (.blank σ K S V) A _
          (step.perform A input) session.workspace _ :=
        Step.perform_placed h.distinct (List.mem_of_getElem? hA) (h.holds A) step
      obtain ⟨-, hafter⟩ := hkeeps.runStep
      exact h.enter hafter.results
  | scalar name => exact (h.begin (c := .scalar (.new name)) trivial).push_nothing
  | multivector i =>
    dsimp only
    cases hA : session.algebras[i]? with
    | none => exact h.push_nothing
    | some A =>
      exact (h.begin (c := .multivector A [])
        ⟨List.mem_of_getElem? hA, List.nodup_nil, fun _ => nofun⟩).push_nothing
  | add k blade term negate =>
    refine h.given fun w term h' => h'.change k fun c hc hregular => ?_
    have hblade : inRange → ∀ A draft, c = .multivector A draft → A.Contains blade :=
      fun hinRange A draft hmultivector => haccepts hinRange A draft (hmultivector ▸ hc)
    exact .bind (Yields.mono (add_yields hregular { blade, term, negate } hblade _)
      fun c' _ hc' => .pure ⟨hc', trivial⟩)
  | read k => exact h.change k fun c _ hregular => read_yields hregular _
  | space => exact h.emit Target.space
  | comment text => exact h.emit (Target.comment text)

/-- **A session stays regular**, whatever is done. -/
theorem run (h : session.Regular inRange) {actions : List (Action K)}
    (hsupplies : inRange → session.Supplies input actions) :
    (session.run input actions).Regular inRange := by
  induction actions generalizing session with
  | nil => exact h
  | cons action rest ih =>
    exact ih (h.perform fun hinRange => (hsupplies hinRange).1)
      fun hinRange => (hsupplies hinRange).2

end Session.Regular

end Clifford
