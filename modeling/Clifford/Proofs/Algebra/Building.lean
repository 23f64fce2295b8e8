import Clifford.Algebra
import Clifford.Proofs.Target.Steady

/-!
# Building multivectors

The multivector that is built from contributions stands for the sum of their components. This
file also fixes what it means for a multivector of an algebra to have values, and how the literal
zeros and ones of a metric fit the values of its entries.

## Main definitions

- `Reading.Member` — a multivector of an algebra whose coefficients all have values
- `Reading.Denotes` — such a multivector with a given coefficient function
- `Reading.Squares` — the entries of a metric have given values
- `Reading.Drafting` — a draft that grows in a state
- `Reading.Ready`, `Reading.Advances` — the states before and after an operation
- `Reading.Agree` — two multivectors have the same value at every blade
- `Reading.Contribute` — contributions that add up to given coefficients

## Main results

- `Reading.Squares.factors?_eq_some`, `Reading.Squares.factors?_eq_none` — the factors of a blade
  multiply to its weight, and a blade without factors has the weight zero
- `Algebra.build_gives` — building adds up components
-/

namespace Clifford

variable {σ K S V : Type}

namespace Reading

/-- A multivector of the algebra: its blades are listed once, and its coefficients have values. -/
structure Member (M : Reading σ K S V) (A : Algebra K S) (s : σ) (m : Multivector K S) :
    Prop where
  /-- It carries the identity of the algebra. -/
  owner : m.owner = A.id
  /-- No blade is listed twice. -/
  nodup : m.blades.Nodup
  /-- Every coefficient has a value. -/
  known : ∀ c ∈ m.components, M.Known s c.2

/-- The storages of a draft are open, and its blades are listed once. -/
structure Drafting (M : Reading σ K S V) (s : σ) (draft : Draft K V) : Prop where
  ready : M.Open s draft.storages
  nodup : draft.blades.Nodup

/-- A state between two operations. -/
structure Advances (M : Reading σ K S V) (s s' : σ) : Prop where
  /-- What had a value still has it. -/
  symbols : M.Extends s s'
  /-- The target is in order. -/
  ready : M.Open s' []

variable {M : Reading σ K S V} {A : Algebra K S} {s s' s'' : σ} {m : Multivector K S}

/-- No storages are open beside those of the draft. -/
theorem Drafting.alone {draft : Draft K V} (h : M.Drafting s draft) :
    M.Open s (draft.storages ++ []) := by
  rw [List.append_nil]
  exact h.ready

theorem Keeps.advances (h : M.Keeps s s' []) (hopen : M.Open s' []) : M.Advances s s' :=
  ⟨h.symbols, hopen⟩

namespace Advances

theorem refl (h : M.Open s []) : M.Advances s s := ⟨.refl M s, h⟩

theorem trans (h : M.Advances s s') (h' : M.Advances s' s'') : M.Advances s s'' :=
  ⟨h.symbols.trans h'.symbols, h'.ready⟩

end Advances

theorem Member.mono (h : M.Member A s m) (hext : M.Extends s s') : M.Member A s' m :=
  ⟨h.owner, h.nodup, fun c hc => hext.known (h.known c hc)⟩

theorem Member.known_value [Number K] (h : M.Member A s m) (b : Blade) :
    M.Known s (m.value b) := by
  rw [Multivector.value, Multivector.get?]
  cases hlookup : m.components.lookup b with
  | none => exact known_number _
  | some f =>
    have hmem : (b, f) ∈ m.components := by
      obtain ⟨l₁, l₂, hcs, -⟩ := List.lookup_eq_some_iff.1 hlookup
      rw [hcs]
      simp
    exact h.known _ hmem

variable [Number K]

/-- A multivector of the algebra with a given coefficient function. -/
structure Denotes (M : Reading σ K S V) (A : Algebra K S) (s : σ) (m : Multivector K S)
    (f : Values K) : Prop extends M.Member A s m where
  /-- The coefficient of every blade has the value that the function gives. -/
  values_eq : M.values s m = f

/-- Two multivectors have the same value at every blade. -/
def Agree (M : Reading σ K S V) (s : σ) (m m' : Multivector K S) : Prop :=
  ∀ b, M.Known s (m.value b) ∧ M.Known s (m'.value b) ∧
    M.value s (m.value b) = M.value s (m'.value b)

/-- The entries of a metric have the given values; positions outside the metric count for one. -/
def Squares (M : Reading σ K S V) (s : σ) (metric : Metric K S) (q : Nat → K) : Prop :=
  ∀ i, match metric[i]? with
    | some square => M.Known s square ∧ M.value s square = q i
    | none => q i = 1

/-- The values of the entries of a metric. -/
def squares (M : Reading σ K S V) (s : σ) (metric : Metric K S) (i : Nat) : K :=
  match metric[i]? with
  | some square => M.value s square
  | none => 1

/-- A target is ready for operations in an algebra whose metric has the values `q`. -/
structure Ready (M : Reading σ K S V) (A : Algebra K S) (s : σ) (q : Nat → K) : Prop where
  /-- The target is in order. -/
  ready : M.Open s []
  /-- The metric has values. -/
  squares : M.Squares s A.metric q

variable {f : Values K} {q : Nat → K} {metric : Metric K S}

theorem Member.denotes (h : M.Member A s m) : M.Denotes A s m (M.values s m) := ⟨h, rfl⟩

theorem Denotes.hasValue (h : M.Denotes A s m f) (b : Blade) : M.HasValue s (m.value b) (f b) :=
  ⟨h.known_value b, by rw [← values_apply, h.values_eq]⟩

theorem Denotes.mono (h : M.Denotes A s m f) (hext : M.Extends s s') : M.Denotes A s' m f := by
  refine ⟨h.toMember.mono hext, ?_⟩
  funext b
  rw [← h.values_eq, values_apply, values_apply, hext.value_eq (h.known_value b)]

theorem Denotes.withKnownUnit (h : M.Denotes A s m f) (knownUnit : Bool) :
    M.Denotes A s (m.withKnownUnit knownUnit) f :=
  ⟨⟨h.owner, h.nodup, h.known⟩, h.values_eq⟩

theorem Denotes.agree {m' : Multivector K S} (h : M.Denotes A s m f) (h' : M.Denotes A s m' f) :
    M.Agree s m m' := by
  intro b
  refine ⟨h.known_value b, h'.known_value b, ?_⟩
  rw [← values_apply, ← values_apply, h.values_eq, h'.values_eq]

theorem denotes_zero : M.Denotes A s A.zero 0 := ⟨⟨rfl, List.nodup_nil, nofun⟩, rfl⟩

theorem squares_spec (h : ∀ f ∈ metric, M.Known s f) :
    M.Squares s metric (M.squares s metric) := by
  intro i
  rw [squares]
  cases hi : metric[i]? with
  | none => rfl
  | some square => exact ⟨h square (List.mem_of_getElem? hi), rfl⟩

theorem Squares.mono (h : M.Squares s metric q) (hext : M.Extends s s') :
    M.Squares s' metric q := by
  intro i
  have hi := h i
  cases hget : metric[i]? with
  | none => simpa [hget] using hi
  | some square =>
    rw [hget] at hi
    exact ⟨hext.known hi.1, (hext.value_eq hi.1).trans hi.2⟩

theorem Ready.advance (h : M.Ready A s q) (hadv : M.Advances s s') : M.Ready A s' q :=
  ⟨hadv.ready, h.squares.mono hadv.symbols⟩

theorem Ready.advances (h : M.Ready A s q) : M.Advances s s := .refl h.ready

variable [ExactNumber K]

/-- The factors at some positions multiply to the product of the values there, and where they are
missing that product is zero. -/
theorem Squares.factorsAt? (h : M.Squares s metric q) (positions : List Nat) :
    match metric.factorsAt? positions with
    | some squares => M.KnownTerm s squares ∧ M.termValue s squares = (positions.map q).prod
    | none => (positions.map q).prod = 0 := by
  induction positions with
  | nil => exact ⟨nofun, rfl⟩
  | cons i rest ih =>
    have hi := h i
    rw [Metric.factorsAt?, List.map_cons, List.prod_cons]
    cases hget : metric[i]? with
    | none =>
      rw [hget] at hi
      rw [show q i = 1 from hi, one_mul]
      exact ih
    | some square =>
      rw [hget] at hi
      obtain ⟨hknown, hvalue⟩ := hi
      dsimp only
      by_cases hzero : square.isZero = true
      · rw [if_pos hzero, ← hvalue, value_of_isZero hzero, zero_mul]
      rw [if_neg hzero]
      by_cases hone : square.isOne = true
      · rw [if_pos hone, ← hvalue, value_of_isOne hone, one_mul]
        exact ih
      rw [if_neg hone]
      cases hrest : metric.factorsAt? rest with
      | none =>
        rw [hrest] at ih
        rw [Option.map_none, show (rest.map q).prod = 0 from ih, mul_zero]
      | some squares =>
        rw [hrest] at ih
        refine ⟨?_, by rw [termValue_cons, hvalue, ih.2]⟩
        intro f hf
        rcases List.mem_cons.1 hf with rfl | hf
        · exact hknown
        · exact ih.1 f hf

theorem Squares.factors?_eq_some (h : M.Squares s metric q) {b : Blade} {squares : Term K S}
    (hb : metric.factors? b = some squares) :
    M.KnownTerm s squares ∧ M.termValue s squares = b.weight q := by
  have hpos := h.factorsAt? b.positions
  rw [Metric.factors?] at hb
  rw [hb] at hpos
  rwa [Blade.weight_eq_prod_positions]

theorem Squares.factors?_eq_none (h : M.Squares s metric q) {b : Blade}
    (hb : metric.factors? b = none) : b.weight q = 0 := by
  have hpos := h.factorsAt? b.positions
  rw [Metric.factors?] at hb
  rw [hb] at hpos
  rwa [Blade.weight_eq_prod_positions]

/-- Contributions whose terms have values, and whose components add up to the given
coefficients. -/
structure Contribute (M : Reading σ K S V) (s : σ) (cs : List (Contribution K S))
    (f : Values K) : Prop where
  known : ∀ c ∈ cs, M.KnownTerm s c.term
  sum_eq : (cs.map fun c => c.values M s).sum = f

namespace Contribute

variable {c : Contribution K S} {cs cs' : List (Contribution K S)} {g : Values K}

theorem nil : M.Contribute s ([] : List (Contribution K S)) 0 := ⟨nofun, rfl⟩

theorem singleton (hterm : M.KnownTerm s c.term) (hvalues : c.values M s = f) :
    M.Contribute s [c] f where
  known := List.forall_mem_singleton.2 hterm
  sum_eq := by rw [List.map_singleton, List.sum_singleton, hvalues]

theorem append (h : M.Contribute s cs f) (h' : M.Contribute s cs' g) :
    M.Contribute s (cs ++ cs') (f + g) where
  known := List.forall_mem_append.2 ⟨h.known, h'.known⟩
  sum_eq := by rw [List.map_append, List.sum_append, h.sum_eq, h'.sum_eq]

/-- Lists of contributions are joined as their coefficients are added. -/
theorem flatMap {α β : Type} {contributions : α → List (Contribution K S)} {F : β → Values K}
    {as : List α} {bs : List β}
    (h : List.Forall₂ (fun a b => M.Contribute s (contributions a) (F b)) as bs) :
    M.Contribute s (as.flatMap contributions) (bs.map F).sum := by
  induction h with
  | nil => exact .nil
  | cons hab _ ih =>
    rw [List.flatMap_cons, List.map_cons, List.sum_cons]
    exact hab.append ih

end Contribute

end Reading

namespace Algebra

variable {M : Reading σ K S V} {A : Algebra K S} {s : σ} {m : Multivector K S}

theorem check_gives {Q : Unit → σ → Prop} (h : m.owner = A.id) (hQ : Q () s) :
    (A.check m : Emission σ K Unit).Gives s Q := by
  have howns : A.owns m = true := by rw [owns, h, beq_self_eq_true]
  rw [check, if_pos howns]
  exact .pure hQ

theorem check_fails {Q : σ → Prop} (h : m.owner ≠ A.id) (hQ : Q s) :
    (A.check m : Emission σ K Unit).Fails s .foreignOperand Q := by
  have howns : ¬ A.owns m = true := by rw [owns, beq_false_of_ne h]; exact Bool.false_ne_true
  rw [check, if_neg howns]
  exact .throw hQ

theorem nodup_foldl_touch {cs : List (Contribution K S)} {touched : List Blade}
    (h : touched.Nodup) :
    (cs.foldl (fun touched c => Draft.touch c.blade touched) touched).Nodup := by
  induction cs generalizing touched with
  | nil => exact h
  | cons c rest ih => exact ih (Draft.nodup_touch h)

variable [Number K] [Target σ K S V]

theorem announce_steady (hM : M.Steady) (hopen : M.Open s []) (operation : String) :
    Yields (A.announce operation) s fun _ s' => M.Advances s s' := by
  unfold announce
  split
  · refine Yields.bind (Yields.mono (hM.spaces hopen) ?_)
    rintro - s' ⟨hext, hopen'⟩
    refine Yields.mono (hM.comments operation hopen') ?_
    rintro - s'' ⟨hext', hopen''⟩
    exact ⟨hext.trans hext', hopen''⟩
  · exact .pure (.refl hopen)

theorem annotate_gives (hM : M.Sound) (hopen : M.Open s []) (operation : String) :
    (A.annotate operation : Emission σ K Unit).Gives s fun _ s' => M.Advances s s' :=
  .lift (announce_steady hM.steady hopen operation)

variable [ExactNumber K]

theorem finish_gives (hM : M.Sound) {draft : Draft K V} (hopen : M.Open s draft.storages)
    (hnodup : draft.blades.Nodup) :
    (A.finish draft : Emission σ K (Multivector K S)).Gives s fun r s' =>
      M.Advances s s' ∧ M.Denotes A s' r (draft.values M s) ∧ r.knownUnit = false := by
  have hopen' : M.Open s (draft.storages ++ []) := by rwa [List.append_nil]
  refine .lift (Yields.bind (Yields.mono (Draft.close_yields hM hopen') ?_))
  rintro cs s' ⟨hkeeps, hready, hblades, hknown, hvalues⟩
  refine .pure ⟨hkeeps.advances hready, ⟨⟨rfl, ?_, hknown⟩, hvalues⟩, rfl⟩
  rw [Multivector.blades, hblades]
  exact hnodup

variable {cs : List (Contribution K S)} {f : Values K}

theorem extend_gives (hM : M.Sound) {draft : Draft K V} (hopen : M.Open s draft.storages)
    (hnodup : draft.blades.Nodup) (hcs : M.Contribute s cs f) :
    (A.extend draft cs : Emission σ K (Draft K V)).Gives s fun draft' s' =>
      M.Extends s s' ∧ M.Open s' draft'.storages ∧ draft'.blades.Nodup ∧
        draft'.values M s' = draft.values M s + f := by
  have hopen' : M.Open s (draft.storages ++ []) := by rwa [List.append_nil]
  refine .lift (Yields.mono (Draft.addAll_yields hM A.cellName hopen' hcs.known) ?_)
  rintro draft' s' ⟨hkeeps, hopen'', hblades, hvalues⟩
  rw [hcs.sum_eq] at hvalues
  refine ⟨hkeeps.symbols, by rwa [List.append_nil] at hopen'', ?_, hvalues⟩
  rw [hblades]
  exact nodup_foldl_touch hnodup

/-- **The multivector of some contributions stands for the sum of their components.** -/
theorem build_gives (hM : M.Sound) (hopen : M.Open s []) (hcs : M.Contribute s cs f) :
    (A.build cs : Emission σ K (Multivector K S)).Gives s fun r s' =>
      M.Advances s s' ∧ M.Denotes A s' r f ∧ r.knownUnit = false := by
  have hnone : M.Open s (Draft.storages ([] : Draft K V)) := hopen
  refine .bind (.mono (extend_gives hM hnone List.nodup_nil hcs) ?_)
  rintro draft s' ⟨hext, hopen', hnodup, hvalues⟩
  refine .mono (finish_gives hM hopen' hnodup) ?_
  rintro r s'' ⟨hadv, hr, hunit⟩
  refine ⟨⟨hext.trans hadv.symbols, hadv.ready⟩, ?_, hunit⟩
  rw [hvalues] at hr
  have hzero : Draft.values M s ([] : Draft K V) = 0 := rfl
  rwa [hzero, zero_add] at hr

/-- An operation that announces itself first. Announcing changes no value, so the contributions
may be looked at in any later state. -/
theorem annotated_build_gives (hM : M.Sound) (hopen : M.Open s []) (operation : String)
    (hcs : ∀ s', M.Extends s s' → M.Contribute s' cs f) :
    Emission.Gives (do A.annotate operation; A.build cs) s fun r s' =>
      M.Advances s s' ∧ M.Denotes A s' r f ∧ r.knownUnit = false := by
  refine .bind (.mono (annotate_gives hM hopen operation) ?_)
  rintro - s₁ hadv
  refine .mono (build_gives hM hadv.ready (hcs s₁ hadv.symbols)) ?_
  rintro r s₂ ⟨hadv', hr, hunit⟩
  exact ⟨hadv.trans hadv', hr, hunit⟩

end Algebra

end Clifford
