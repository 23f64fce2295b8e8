import Clifford.Algebra.Duality
import Clifford.Algebra.Rotor
import Clifford.Proofs.Algebra.Ends
import Clifford.Proofs.Algebra.Terms

/-!
# Operations stay in their algebra

Whatever multivectors and scalars with values an operation is given, it leaves the target in order,
and its result has values and belongs to the algebra, unless the operation fails. Operands of other
algebras make it fail. Which values these are does not matter, so the reading need only be steady.

## Main definitions

- `Reading.ProperCircle` — a great circle between multivectors whose coefficients have values

## Main results

- `Algebra.build_member` — what is built belongs to the algebra
- the lemmas on each operation, named after it and after `member` or `known`
-/

namespace Clifford

variable {σ K S V : Type}

namespace Reading

/-- A great circle whose end points, angle and sine have values. -/
structure ProperCircle (M : Reading σ K S V) (s : σ) (c : Slerp K S) : Prop where
  first : M.Proper s c.first
  last : M.Proper s c.last
  angle : M.Known s c.angle
  sine : M.Known s c.sine

variable {M : Reading σ K S V} {A : Algebra K S} {s s' : σ} {m a b : Multivector K S}

theorem ProperCircle.mono {c : Slerp K S} (h : M.ProperCircle s c) (hext : M.Extends s s') :
    M.ProperCircle s' c :=
  ⟨h.first.mono hext, h.last.mono hext, hext.known h.angle, hext.known h.sine⟩

/-! ### Checks -/

namespace Ends

variable {α β : Type} {p : Prop} {Q : β → σ → Prop} {k : Unit → Emission σ K β}

/-- The operand belongs to the algebra, or the operation fails. -/
theorem check (hopen : M.Open s []) :
    M.Ends True (A.check m) s fun _ s' => s = s' ∧ m.owner = A.id :=
  Algebra.check_ends hopen trivial fun howner => ⟨rfl, howner⟩

/-- The operands all belong to the algebra, or the operation fails. -/
theorem forM_check (hopen : M.Open s []) (ms : List (Multivector K S)) :
    M.Ends True (ms.forM A.check) s fun _ s' => s = s' ∧ ∀ m ∈ ms, m.owner = A.id := by
  induction ms with
  | nil => exact .pure hopen ⟨rfl, nofun⟩
  | cons m rest ih =>
    refine .bind (check hopen) ?_
    rintro - _ - ⟨rfl, howner⟩
    refine .mono ih (fun h => h) ?_
    rintro - _ - ⟨rfl, howners⟩
    exact ⟨rfl, List.forall_mem_cons.2 ⟨howner, howners⟩⟩

/-- What comes after the check of an operand. -/
theorem after_check (hopen : M.Open s []) (h : m.owner = A.id → M.Ends True (k ()) s Q) :
    M.Ends True (A.check m >>= k) s Q := by
  refine .bind (check hopen) ?_
  rintro - _ - ⟨rfl, howner⟩
  exact h howner

/-- An operation that checks an operand first. -/
theorem of_check (hopen : M.Open s []) (h : m.owner = A.id → M.Ends True (A.check m >>= k) s Q) :
    M.Ends True (A.check m >>= k) s Q := by
  by_cases howner : m.owner = A.id
  · exact h howner
  · refine .bind (P := fun _ _ => False) ?_ fun _ _ _ h => h.elim
    exact .mono (check hopen) (fun h => h) fun _ _ _ h => howner h.2

/-- An operation that checks two operands first. -/
theorem of_check₂ (hopen : M.Open s []) (h : a.owner = A.id → b.owner = A.id →
      M.Ends True (A.check a >>= fun _ => A.check b >>= k) s Q) :
    M.Ends True (A.check a >>= fun _ => A.check b >>= k) s Q := by
  refine .of_check hopen fun ha => ?_
  by_cases hb : b.owner = A.id
  · exact h ha hb
  · exact .after_check hopen fun _ => .of_check hopen fun h => absurd h hb

/-- A computation that cannot fail. -/
theorem lift {c : StateM σ α} {Q : α → σ → Prop} (h : Yields c s fun a s' =>
      M.Advances s s' ∧ Q a s') : M.Ends p (ExceptT.lift c : Emission σ K α) s Q :=
  .of_gives (.lift h)

end Ends

end Reading

theorem Reading.Drafting.abandon [Number K] [Target σ K S V] {M : Reading σ K S V} {s : σ}
    {draft : Draft K V} (h : M.Drafting s draft) (hM : M.Steady) : M.Open s [] :=
  hM.abandon h.alone

namespace Algebra

variable [Number K] {M : Reading σ K S V} {A : Algebra K S} {q : Nat → K} {s : σ}
  {m a b : Multivector K S} {ms : List (Multivector K S)} {x y : Factor K S}

open Reading

omit [Number K] in
theorem zero_member : M.Member A s A.zero := ⟨rfl, List.nodup_nil, nofun⟩

theorem markUnit_member (hopen : M.Open s []) (hm : M.Member A s m) :
    M.Ends True (A.markUnit m) s fun r s' => M.Member A s' r :=
  .mono (markUnit_ends hopen (Q := fun r s' => M.Member A s' r) (hm.withKnownUnit true))
    (fun _ => trivial) fun _ _ _ h => h

variable [Target σ K S V]

theorem annotate_ends (hM : M.Steady) (hopen : M.Open s []) (operation : String) :
    M.Ends True (A.annotate operation) s fun _ _ => True :=
  .lift (Yields.mono (announce_steady hM hopen operation) fun _ _ hadv => ⟨hadv, trivial⟩)

/-! ### Building -/

theorem extend_gives_drafting (hM : M.Steady) {draft : Draft K V} (hdraft : M.Drafting s draft)
    {cs : List (Contribution K S)} (hcs : ∀ c ∈ cs, M.KnownTerm s c.term) :
    (A.extend draft cs : Emission σ K (Draft K V)).Gives s fun draft' s' =>
      M.Extends s s' ∧ M.Drafting s' draft' := by
  refine .lift (Yields.mono (Draft.addAll_steady hM A.cellName hdraft.alone hcs hdraft.nodup) ?_)
  rintro draft' s' ⟨hext, hopen', hnodup⟩
  exact ⟨hext, by rwa [List.append_nil] at hopen', hnodup⟩

/-- A draft that is finished belongs to the algebra. -/
theorem finish_member (hM : M.Steady) {draft : Draft K V} (hdraft : M.Drafting s draft) :
    M.Ends True (A.finish draft) s fun r s' => M.Member A s' r := by
  refine .lift (Yields.bind (Yields.mono (Draft.close_steady hM hdraft.alone) ?_))
  rintro cs s' ⟨hext, hopen', hblades, hknown⟩
  refine .pure ⟨⟨hext, hopen'⟩, rfl, ?_, hknown⟩
  rw [Multivector.blades, hblades]
  exact hdraft.nodup

/-- **What is built belongs to the algebra.** -/
theorem build_member (hM : M.Steady) (hopen : M.Open s []) {cs : List (Contribution K S)}
    (hcs : ∀ c ∈ cs, M.KnownTerm s c.term) :
    M.Ends True (A.build cs) s fun r s' => M.Member A s' r := by
  have hempty : M.Drafting s ([] : Draft K V) := ⟨hopen, List.nodup_nil⟩
  refine .gives_bind (P := fun draft s' => M.Drafting s' draft)
    (.mono (extend_gives_drafting hM hempty hcs) ?_) fun _ _ _ => finish_member hM
  rintro draft s' ⟨hext, hdraft⟩
  exact ⟨⟨hext, hdraft.abandon hM⟩, hdraft⟩

/-- An operation that announces itself before it builds its result. -/
theorem annotated_build_member (hM : M.Steady) (hopen : M.Open s []) (operation : String)
    {cs : List (Contribution K S)} (hcs : ∀ c ∈ cs, M.KnownTerm s c.term) :
    M.Ends True (do A.annotate operation; A.build cs) s fun r s' => M.Member A s' r := by
  refine .bind (annotate_ends hM hopen operation) fun _ s₁ hadv _ => ?_
  exact build_member hM hadv.ready fun c hc => hadv.symbols.knownTerm (hcs c hc)

/-! ### Scalars -/

theorem call_known (hM : M.Steady) (f : ScalarFunction) (hopen : M.Open s []) {args : Term K S}
    (hargs : M.KnownTerm s args) :
    M.Ends True (call f args) s fun r s' => M.Known s' r :=
  .lift (Yields.mono (Target.call_steady hM f hopen hargs) fun _ _ h => ⟨⟨h.1, h.2.1⟩, h.2.2⟩)

theorem combine_known (hM : M.Steady) (op : Operator) (hopen : M.Open s []) (hx : M.Known s x)
    (hy : M.Known s y) : M.Ends True (combine op x y) s fun r s' => M.Known s' r :=
  .lift (Yields.mono (Target.combine_steady hM op hopen hx hy) fun _ _ h => ⟨⟨h.1, h.2.1⟩, h.2.2⟩)

theorem sum_known (hM : M.Steady) (hopen : M.Open s []) (name : String)
    {terms : List (Term K S × Bool)} (hterms : ∀ t ∈ terms, M.KnownTerm s t.1) :
    M.Ends True (sum name terms) s fun r s' => M.Known s' r :=
  .lift (Yields.mono (Cell.sum_steady hM name hopen hterms) fun _ _ h => ⟨⟨h.1, h.2.1⟩, h.2.2⟩)

theorem normSquared_known (hM : M.Steady) (hA : M.Ready A s q) (hm : M.Proper s m) :
    M.Ends True (A.normSquared m) s fun r s' => M.Known s' r := by
  refine .after_check hA.ready fun _ => ?_
  split
  · exact .pure hA.ready (known_number 1)
  · refine .bind (annotate_ends hM hA.ready "norm squared") fun _ s₁ hadv _ => ?_
    exact sum_known hM hadv.ready _
      (knownTerm_normTerms (hA.advance hadv).squares (hm.mono hadv.symbols))

theorem norm_known (hM : M.Steady) (hA : M.Ready A s q) (hm : M.Proper s m) :
    M.Ends True (A.norm m) s fun r s' => M.Known s' r := by
  refine .after_check hA.ready fun _ => ?_
  split
  · exact .pure hA.ready (known_number 1)
  split
  · exact call_known hM .abs hA.ready (.cons (hm.known_value _) .nil)
  refine .bind (normSquared_known hM hA hm) fun square s₂ hadv₂ hsquare => ?_
  have hroot : ∀ magnitude s₃, M.Advances s₂ s₃ → M.Known s₃ magnitude →
      M.Ends True (call .sqrt [magnitude]) s₃ fun r s' => M.Known s' r :=
    fun magnitude s₃ hadv₃ hknown => call_known hM .sqrt hadv₃.ready (.cons hknown .nil)
  split
  · exact .bind (call_known hM .max hadv₂.ready (.cons (known_number 0) (.cons hsquare .nil))) hroot
  · exact .bind (call_known hM .abs hadv₂.ready (.cons hsquare .nil)) hroot

theorem scalarProduct_known (hM : M.Steady) (hA : M.Ready A s q) (ha : M.Proper s a)
    (hb : M.Proper s b) : M.Ends True (A.scalarProduct a b) s fun r s' => M.Known s' r := by
  refine .after_check hA.ready fun _ => ?_
  refine .after_check hA.ready fun _ => ?_
  refine .bind (annotate_ends hM hA.ready "scalar product") fun _ s₁ hadv _ => ?_
  exact sum_known hM hadv.ready _ (knownTerm_scalarProduct (hA.advance hadv).squares
    (ha.mono hadv.symbols) (hb.mono hadv.symbols))

/-! ### Elements -/

/-- A single component, with a statement about its norm. -/
theorem component_member (hM : M.Steady) (hopen : M.Open s []) (b : Blade) (hx : M.Known s x)
    (knownUnit : Bool) :
    M.Ends True (do
      let m ← A.build [{ blade := b, term := [x] }]
      pure (m.withKnownUnit knownUnit)) s fun r s' => M.Member A s' r := by
  have hterm : M.KnownTerm s [x] := .cons hx .nil
  refine .bind (build_member hM hopen (List.forall_mem_singleton.2 hterm)) ?_
  exact fun r s' hadv hr => .pure hadv.ready (hr.withKnownUnit knownUnit)

theorem one_member (hM : M.Steady) (hA : M.Ready A s q) :
    M.Ends True A.one s fun r s' => M.Member A s' r :=
  component_member hM hA.ready 0 (known_number 1) true

theorem scalar_member (hM : M.Steady) (hA : M.Ready A s q) (hx : M.Known s x) :
    M.Ends True (A.scalar x) s fun r s' => M.Member A s' r :=
  component_member hM hA.ready 0 hx x.isOne

theorem pseudoscalar_member (hM : M.Steady) (hA : M.Ready A s q) :
    M.Ends True A.pseudoscalar s fun r s' => M.Member A s' r :=
  component_member hM hA.ready A.fullBlade (known_number 1) _

theorem basisVectors_member (hM : M.Steady) (hA : M.Ready A s q) :
    M.Ends True A.basisVectors s fun rs s' => ∀ r ∈ rs, M.Member A s' r := by
  rw [basisVectors]
  generalize A.metric.zipIdx = cs
  induction cs generalizing s with
  | nil => exact .pure hA.ready nofun
  | cons c rest ih =>
    rw [List.mapM_cons]
    refine .bind (component_member hM hA.ready (.vector c.2) (known_number 1) c.1.isOne) ?_
    intro r s₁ hadv hr
    refine .bind (ih (hA.advance hadv)) fun rs s₂ hadv₂ hrs => .pure hadv₂.ready ?_
    exact List.forall_mem_cons.2 ⟨hr.mono hadv₂.symbols, hrs⟩

theorem vector_member (hM : M.Steady) (hA : M.Ready A s q) {xs : List (Factor K S)}
    (hxs : ∀ x ∈ xs, M.Known s x) :
    M.Ends True (A.vector xs) s fun r s' => M.Member A s' r := by
  unfold vector
  split
  · exact .throw hA.ready trivial
  · refine build_member hM hA.ready fun c hc => ?_
    obtain ⟨⟨value, i⟩, hi, rfl⟩ := List.mem_map.1 hc
    exact .cons (hxs value (List.mem_zipIdx' hi |>.2 ▸ List.getElem_mem _)) .nil

/-- Naming blades adds to a draft until a name is unknown. -/
theorem extendNamed_ends (hM : M.Steady) {draft : Draft K V} (hdraft : M.Drafting s draft)
    {cs : List (String × Factor K S)} (hcs : ∀ c ∈ cs, M.Known s c.2) :
    M.Ends True (A.extendNamed draft cs) s fun draft' s' => M.Drafting s' draft' := by
  induction cs generalizing draft s with
  | nil => exact .pure (hdraft.abandon hM) hdraft
  | cons c rest ih =>
    obtain ⟨name, value⟩ := c
    obtain ⟨hvalue, hrest⟩ := List.forall_mem_cons.1 hcs
    rw [extendNamed]
    split
    · exact .throw (hdraft.abandon hM) trivial
    · have hterm : M.KnownTerm s [value] := .cons hvalue .nil
      refine .gives_bind (P := fun draft s' => M.Drafting s' draft)
        (.mono (extend_gives_drafting hM hdraft (List.forall_mem_singleton.2 hterm)) ?_) ?_
      · rintro draft' s' ⟨hext, hdraft'⟩
        exact ⟨⟨hext, hdraft'.abandon hM⟩, hdraft'⟩
      · intro draft' s' hadv hdraft'
        exact ih hdraft' fun c hc => hadv.symbols.known (hrest c hc)

theorem ofNamed_member (hM : M.Steady) (hA : M.Ready A s q) {cs : List (String × Factor K S)}
    (hcs : ∀ c ∈ cs, M.Known s c.2) :
    M.Ends True (A.ofNamed cs) s fun r s' => M.Member A s' r := by
  have hempty : M.Drafting s ([] : Draft K V) := ⟨hA.ready, List.nodup_nil⟩
  exact .bind (extendNamed_ends hM hempty hcs) fun _ _ _ => finish_member hM

/-! ### Linear operations and products -/

theorem resign_member (hM : M.Steady) (hA : M.Ready A s q) (hm : M.Proper s m)
    (operation : String) (flip : Blade → Bool) :
    M.Ends True (do A.annotate operation; A.resign flip m) s fun r s' => M.Member A s' r := by
  refine .bind (annotate_ends hM hA.ready operation) fun _ s₁ hadv₁ _ => ?_
  refine .after_check hadv₁.ready fun _ => ?_
  have hm₁ := hm.mono hadv₁.symbols
  refine .bind (build_member hM hadv₁.ready (hm₁.knownTerm_signed flip)) ?_
  exact fun r s₂ hadv₂ hr => .pure hadv₂.ready (hr.withKnownUnit _)

theorem scale_member (hM : M.Steady) (hA : M.Ready A s q) (hx : M.Known s x)
    (hm : M.Proper s m) : M.Ends True (A.scale x m) s fun r s' => M.Member A s' r := by
  refine .after_check hA.ready fun _ => ?_
  split
  · exact .pure hA.ready zero_member
  · exact annotated_build_member hM hA.ready "scale" (hm.knownTerm_scaled hx)

theorem extract_member (hM : M.Steady) (hA : M.Ready A s q) (keep : Blade → Bool)
    (hm : M.Proper s m) : M.Ends True (A.extract keep m) s fun r s' => M.Member A s' r := by
  refine .after_check hA.ready fun _ => ?_
  exact build_member hM hA.ready fun c hc => hm.knownTerm_signed _ c (List.mem_filter.1 hc).1

theorem minus_member (hM : M.Steady) (hA : M.Ready A s q) (ha : M.Proper s a)
    (hb : M.Proper s b) : M.Ends True (A.minus a b) s fun r s' => M.Member A s' r := by
  refine .after_check hA.ready fun _ => ?_
  refine .after_check hA.ready fun _ => ?_
  exact annotated_build_member hM hA.ready "minus"
    (List.forall_mem_append.2 ⟨ha.knownTerm_signed _, hb.knownTerm_signed _⟩)

theorem plus_member (hM : M.Steady) (hA : M.Ready A s q) (hms : ∀ m ∈ ms, M.Proper s m) :
    M.Ends True (A.plus ms) s fun r s' => M.Member A s' r := by
  refine .bind (.forM_check hA.ready ms) ?_
  rintro - _ - ⟨rfl, howners⟩
  split
  · exact .pure hA.ready zero_member
  · rename_i m
    have hm : m ∈ [m] := List.mem_cons_self
    exact .pure hA.ready ((hms m hm).member (howners m hm))
  · refine annotated_build_member hM hA.ready "plus" fun c hc => ?_
    obtain ⟨m, hm, hc⟩ := List.mem_flatMap.1 hc
    exact (hms m hm).knownTerm_signed _ c hc

theorem mul_member (hM : M.Steady) (hA : M.Ready A s q) (kind : ProductKind) (ha : M.Proper s a)
    (hb : M.Proper s b) : M.Ends True (A.mul kind a b) s fun r s' => M.Member A s' r := by
  refine .after_check hA.ready fun _ => ?_
  refine .after_check hA.ready fun _ => ?_
  refine .bind (annotate_ends hM hA.ready kind.title) fun _ s₁ hadv _ => ?_
  refine .bind (build_member hM hadv.ready (knownTerm_productContributions
    (hA.advance hadv).squares kind (ha.mono hadv.symbols) (hb.mono hadv.symbols))) ?_
  exact fun r s₂ hadv₂ hr => .pure hadv₂.ready (hr.withKnownUnit _)

theorem mulAll_member (hM : M.Steady) (hA : M.Ready A s q) (kind : ProductKind)
    (hms : ∀ m ∈ ms, M.Proper s m) :
    M.Ends True (A.mulAll kind ms) s fun r s' => M.Member A s' r := by
  cases ms with
  | nil => exact one_member hM hA
  | cons m rest =>
    obtain ⟨hm, hrest⟩ := List.forall_mem_cons.1 hms
    refine .after_check hA.ready fun howner => ?_
    have hmember := hm.member howner
    -- The product so far belongs to the algebra.
    clear hms hm howner
    induction rest generalizing m s with
    | nil => exact .pure hA.ready hmember
    | cons b rest ih =>
      obtain ⟨hb, hrest⟩ := List.forall_mem_cons.1 hrest
      refine .bind (mul_member hM hA kind hmember.proper hb) fun r s₁ hadv hr => ?_
      exact ih (hA.advance hadv) r (fun m hm => (hrest m hm).mono hadv.symbols) hr

theorem dist_known (hM : M.Steady) (hA : M.Ready A s q) (ha : M.Proper s a) (hb : M.Proper s b) :
    M.Ends True (A.dist a b) s fun r s' => M.Known s' r :=
  .bind (minus_member hM hA ha hb) fun _ _ hadv hr => norm_known hM (hA.advance hadv) hr.proper

theorem angle_known (hM : M.Steady) (hA : M.Ready A s q) (ha : M.Proper s a) (hb : M.Proper s b) :
    M.Ends True (A.angle a b) s fun r s' => M.Known s' r := by
  refine .bind (mul_member hM hA .wedge ha hb) fun wedge s₁ hadv₁ hwedge => ?_
  refine .bind (norm_known hM (hA.advance hadv₁) hwedge.proper) fun sine s₂ hadv₂ hsine => ?_
  have hadv := hadv₁.trans hadv₂
  refine .bind (scalarProduct_known hM (hA.advance hadv) (ha.mono hadv.symbols)
    (hb.mono hadv.symbols)) fun cosine s₃ hadv₃ hcosine => ?_
  exact call_known hM .atan2 hadv₃.ready (.cons (hadv₃.symbols.known hsine) (.cons hcosine .nil))

/-! ### Inverses and duality -/

theorem inverseByReverse_member (hM : M.Steady) (hA : M.Ready A s q) (hm : M.Proper s m)
    (hx : M.Known s x) :
    M.Ends True (A.inverseByReverse m x) s fun r s' => M.Member A s' r := by
  refine .bind (combine_known hM .div hA.ready (known_number 1) hx) fun factor s₁ hadv hfactor => ?_
  exact build_member hM hadv.ready
    ((hm.mono hadv.symbols).knownTerm_resigned hfactor fun b => isOdd b.reverseFlips)

theorem inverseComponent_member (hM : M.Steady) (hA : M.Ready A s q) (b : Blade)
    (hx : M.Known s x) (square : K) :
    M.Ends True (A.inverseComponent b x square) s fun r s' => M.Member A s' r := by
  refine .bind (combine_known hM .div hA.ready (known_number _) hx) fun c s₁ hadv hc => ?_
  have hterm : M.KnownTerm s₁ [c] := .cons hc .nil
  exact build_member hM hadv.ready (List.forall_mem_singleton.2 hterm)

theorem inverse_member (hM : M.Steady) (hA : M.Ready A s q) (hm : M.Proper s m) :
    M.Ends True (A.inverse m) s fun r s' => M.Member A s' r := by
  refine .after_check hA.ready fun _ => ?_
  by_cases hunit : m.knownUnit = true
  · rw [if_pos hunit]
    exact resign_member hM hA hm "reverse" _
  rw [if_neg hunit]
  refine .bind (normSquared_known hM hA hm) fun square s₁ hadv₁ hsquare => ?_
  by_cases hzero : square.isZero = true
  · rw [if_pos hzero]
    exact .throw_bind hadv₁.ready trivial
  rw [if_neg hzero]
  refine .bind (annotate_ends hM hadv₁.ready "inverse") fun _ s₂ hadv₂ _ => ?_
  have hA₂ := (hA.advance hadv₁).advance hadv₂
  have hm₂ := hm.mono (hadv₁.trans hadv₂).symbols
  have hreverse := inverseByReverse_member hM hA₂ hm₂ (hadv₂.symbols.known hsquare)
  split
  · rename_i b value hcomponents
    split
    · have hvalue : M.Known s₂ value := hm₂.known (b, value) (hcomponents ▸ List.mem_cons_self)
      exact inverseComponent_member hM hA₂ b hvalue _
    · exact hreverse
  · exact hreverse

theorem normalizeComponent_member (hM : M.Steady) (hA : M.Ready A s q) (b : Blade)
    (hx : M.Known s x) : M.Ends True (A.normalizeComponent b x) s fun r s' => M.Member A s' r := by
  unfold normalizeComponent
  by_cases hzero : x.isZero = true
  · rw [if_pos hzero]
    exact .throw_bind hA.ready trivial
  rw [if_neg hzero]
  refine .bind (call_known hM .sign hA.ready (.cons hx .nil)) fun sign s₁ hadv₁ hsign => ?_
  have hterm : M.KnownTerm s₁ [sign] := .cons hsign .nil
  refine .bind (build_member hM hadv₁.ready (List.forall_mem_singleton.2 hterm)) ?_
  exact fun r s₂ hadv₂ hr => markUnit_member hadv₂.ready hr

theorem normalize_member (hM : M.Steady) (hA : M.Ready A s q) (hm : M.Proper s m) :
    M.Ends True (A.normalize m) s fun r s' => M.Member A s' r := by
  refine .after_check hA.ready fun howner => ?_
  by_cases hunit : m.knownUnit = true
  · rw [if_pos hunit]
    exact .pure hA.ready (hm.member howner)
  rw [if_neg hunit]
  refine .bind (annotate_ends hM hA.ready "normalize") fun _ s₁ hadv₁ _ => ?_
  have hA₁ := hA.advance hadv₁
  have hm₁ := hm.mono hadv₁.symbols
  split
  · exact normalizeComponent_member hM hA₁ _ (hm₁.known_value _)
  refine .bind (normSquared_known hM hA₁ hm₁) fun square s₂ hadv₂ hsquare => ?_
  by_cases hzero : square.isZero = true
  · rw [if_pos hzero]
    exact .throw_bind hadv₂.ready trivial
  rw [if_neg hzero]
  refine .bind (call_known hM .abs hadv₂.ready (.cons hsquare .nil)) ?_
  intro magnitude s₃ hadv₃ hmagnitude
  refine .bind (call_known hM .sqrt hadv₃.ready (.cons hmagnitude .nil)) ?_
  intro root s₄ hadv₄ hroot
  refine .bind (combine_known hM .div hadv₄.ready (known_number 1) hroot) ?_
  intro factor s₅ hadv₅ hfactor
  have hadv := ((hadv₂.trans hadv₃).trans hadv₄).trans hadv₅
  refine .bind (scale_member hM (hA₁.advance hadv) hfactor (hm₁.mono hadv.symbols)) ?_
  exact fun r s₆ hadv₆ hr => markUnit_member hadv₆.ready hr

theorem dual_member (hM : M.Steady) (hA : M.Ready A s q) (hm : M.Proper s m) :
    M.Ends True (A.dual m) s fun r s' => M.Member A s' r := by
  refine .after_check hA.ready fun _ => ?_
  refine .bind (pseudoscalar_member hM hA) fun p s₁ hadv₁ hp => ?_
  have hA₁ := hA.advance hadv₁
  refine .bind ((inverse_member hM hA₁ hp.proper).adapt duality) fun i s₂ hadv₂ hi => ?_
  exact mul_member hM (hA₁.advance hadv₂) .leftContraction
    (hm.mono (hadv₁.trans hadv₂).symbols) hi.proper

theorem undual_member (hM : M.Steady) (hA : M.Ready A s q) (hm : M.Proper s m) :
    M.Ends True (A.undual m) s fun r s' => M.Member A s' r := by
  refine .after_check hA.ready fun _ => ?_
  refine .bind (pseudoscalar_member hM hA) fun p s₁ hadv₁ hp => ?_
  exact mul_member hM (hA.advance hadv₁) .leftContraction (hm.mono hadv₁.symbols) hp.proper

/-! ### Rotors -/

theorem exp_member (hM : M.Steady) (hA : M.Ready A s q) (hm : M.Proper s m) :
    M.Ends True (A.exp m) s fun r s' => M.Member A s' r := by
  refine .after_check hA.ready fun _ => ?_
  refine .bind (normSquared_known hM hA hm) fun square s₁ hadv₁ hsquare => ?_
  have hA₁ := hA.advance hadv₁
  split
  · refine .bind (one_member hM hA₁) fun one s₂ hadv₂ hone => ?_
    have hm₂ := hm.mono (hadv₁.trans hadv₂).symbols
    refine .bind (plus_member hM (hA₁.advance hadv₂)
      (List.forall_mem_cons.2 ⟨hone.proper, List.forall_mem_singleton.2 hm₂⟩)) ?_
    exact fun r s₃ hadv₃ hr => .pure hadv₃.ready (hr.withKnownUnit _)
  · refine .bind (annotate_ends hM hA₁.ready "exp") fun _ s₂ hadv₂ _ => ?_
    have hsquare₂ := hadv₂.symbols.known hsquare
    refine .bind (call_known hM .sqrt hadv₂.ready (.cons hsquare₂ .nil)) ?_
    intro angle s₃ hadv₃ hangle
    refine .bind (call_known hM .cos hadv₃.ready (.cons hangle .nil)) ?_
    intro cosine s₄ hadv₄ hcosine
    have hangle₄ := hadv₄.symbols.known hangle
    refine .bind (call_known hM .sin hadv₄.ready (.cons hangle₄ .nil)) ?_
    intro sine s₅ hadv₅ hsine
    refine .bind (combine_known hM .div hadv₅.ready hsine (hadv₅.symbols.known hangle₄)) ?_
    intro weight s₆ hadv₆ hweight
    have hm₆ := hm.mono
      (((((hadv₁.trans hadv₂).trans hadv₃).trans hadv₄).trans hadv₅).trans hadv₆).symbols
    have hcosine₆ := (hadv₅.trans hadv₆).symbols.known hcosine
    refine .bind (build_member hM hadv₆.ready
      (List.forall_mem_cons.2 ⟨.cons hcosine₆ .nil, hm₆.knownTerm_scaled hweight⟩)) ?_
    exact fun r s₇ hadv₇ hr => markUnit_member hadv₇.ready hr

theorem log_member (hM : M.Steady) (hA : M.Ready A s q) (hm : M.Proper s m) :
    M.Ends True (A.log m) s fun r s' => M.Member A s' r := by
  refine .after_check hA.ready fun _ => ?_
  refine .bind (extract_member hM hA (fun b => b.grade == 2) hm) fun bivector s₁ hadv₁ hb => ?_
  refine .bind (norm_known hM (hA.advance hadv₁) hb.proper) fun norm s₂ hadv₂ hnorm => ?_
  by_cases hzero : norm.isZero = true
  · rw [if_pos hzero]
    exact .throw_bind hadv₂.ready trivial
  rw [if_neg hzero]
  refine .bind (annotate_ends hM hadv₂.ready "log") fun _ s₃ hadv₃ _ => ?_
  have hadv₁₃ := (hadv₁.trans hadv₂).trans hadv₃
  have hnorm₃ := hadv₃.symbols.known hnorm
  refine .bind (call_known hM .atan2 hadv₃.ready
    (.cons hnorm₃ (.cons ((hm.mono hadv₁₃.symbols).known_value 0) .nil))) ?_
  intro angle s₄ hadv₄ hangle
  refine .bind (combine_known hM .div hadv₄.ready hangle (hadv₄.symbols.known hnorm₃)) ?_
  intro factor s₅ hadv₅ hfactor
  exact scale_member hM (hA.advance ((hadv₁₃.trans hadv₄).trans hadv₅)) hfactor
    (hb.proper.mono (((hadv₂.trans hadv₃).trans hadv₄).trans hadv₅).symbols)

theorem slerp_proper (hM : M.Steady) (hA : M.Ready A s q) (ha : M.Proper s a)
    (hb : M.Proper s b) : M.Ends True (A.slerp a b) s fun c s' => M.ProperCircle s' c := by
  refine .bind (angle_known hM hA ha hb) fun angle s₁ hadv₁ hangle => ?_
  refine .bind (call_known hM .sin hadv₁.ready (.cons hangle .nil)) fun sine s₂ hadv₂ hsine => ?_
  have hext := (hadv₁.trans hadv₂).symbols
  exact .pure hadv₂.ready ⟨ha.mono hext, hb.mono hext, hadv₂.symbols.known hangle, hsine⟩

theorem slerpWeight_known (hM : M.Steady) (hopen : M.Open s []) {c : Slerp K S}
    (hc : M.ProperCircle s c) (hx : M.Known s x) :
    M.Ends True (slerpWeight c x) s fun r s' => M.Known s' r := by
  refine .bind (combine_known hM .mul hopen hx hc.angle) fun part s₁ hadv₁ hpart => ?_
  refine .bind (call_known hM .sin hadv₁.ready (.cons hpart .nil)) fun sine s₂ hadv₂ hsine => ?_
  exact combine_known hM .div hadv₂.ready hsine ((hadv₁.trans hadv₂).symbols.known hc.sine)

theorem slerpAt_member (hM : M.Steady) (hA : M.Ready A s q) {c : Slerp K S}
    (hc : M.ProperCircle s c) (hx : M.Known s x) :
    M.Ends True (A.slerpAt c x) s fun r s' => M.Member A s' r := by
  refine .bind (annotate_ends hM hA.ready "slerp") fun _ s₁ hadv₁ _ => ?_
  have hx₁ := hadv₁.symbols.known hx
  refine .bind (combine_known hM .sub hadv₁.ready (known_number 1) hx₁) ?_
  intro rest s₂ hadv₂ hrest
  have hc₂ := hc.mono (hadv₁.trans hadv₂).symbols
  refine .bind (slerpWeight_known hM hadv₂.ready hc₂ hrest) fun first s₃ hadv₃ hfirst => ?_
  have hc₃ := hc₂.mono hadv₃.symbols
  refine .bind (slerpWeight_known hM hadv₃.ready hc₃ ((hadv₂.trans hadv₃).symbols.known hx₁)) ?_
  intro last s₄ hadv₄ hlast
  have hc₄ := hc₃.mono hadv₄.symbols
  refine .bind (build_member hM hadv₄.ready (List.forall_mem_append.2
    ⟨hc₄.first.knownTerm_scaled (hadv₄.symbols.known hfirst), hc₄.last.knownTerm_scaled hlast⟩)) ?_
  exact fun r s₅ hadv₅ hr => markUnit_member hadv₅.ready hr

/-! ### Outermorphisms and products from both sides -/

theorem outermorphism_member (hM : M.Steady) (hA : M.Ready A s q) (hm : M.Proper s m)
    {matrix : SparseMatrix K S} (hmatrix : M.KnownMatrix s matrix) :
    M.Ends True (A.outermorphism m matrix) s fun r s' => M.Member A s' r := by
  refine .after_check hA.ready fun _ => ?_
  by_cases hrows : A.dimension < matrix.length
  · rw [if_pos hrows]
    exact .throw_bind hA.ready trivial
  rw [if_neg hrows]
  refine annotated_build_member hM hA.ready "outermorphism" fun c hc => ?_
  obtain ⟨component, hcomponent, hc⟩ := List.mem_flatMap.1 hc
  exact SparseMatrix.knownTerm_placements hmatrix (hm.known component hcomponent) _ _ _ .nil c hc

theorem sandwichProduct_member (hM : M.Steady) (hA : M.Ready A s q) (ha : M.Proper s a)
    (hb : M.Proper s b) : M.Ends True (A.sandwichProduct a b) s fun r s' => M.Member A s' r := by
  refine .bind (resign_member hM hA ha "reverse" _) fun r s₁ hadv hr => ?_
  refine mulAll_member hM (hA.advance hadv) .geometric ?_
  rintro m (_ | ⟨_, _ | ⟨_, _ | ⟨_, ⟨⟩⟩⟩⟩)
  · exact ha.mono hadv.symbols
  · exact hb.mono hadv.symbols
  · exact hr.proper

end Algebra

end Clifford
