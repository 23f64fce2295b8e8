import Clifford.Proofs.Accumulator
import Clifford.Proofs.Algebra.Associativity

/-!
# The protocol of an accumulator

Terms and requests for the value may reach an accumulator in any order. What it asks of its target
does not depend on how numbers and symbols alternate: it opens storage for the first term with a
symbol, adds the other ones, and at the first request for the value adds what the numbers come to
and closes the storage. Afterwards it asks for nothing. This is said by an equation of computations
that holds for every target, so it describes the calls themselves and the storage each of them is
made for.

## Main definitions

- `Accumulator.serveAll` — the answers to a list of requests
- `EmittedTerm` — a term that has to be told to the target
- `Accumulator.protocol` — the calls and answers that are to be expected

## Main results

- `Accumulator.serve_frozen` — after the first request for the value
- `Cell.add_eq_emit` — what one term makes a cell ask for
- `Accumulator.serveAll_protocol` — the calls, the answers and the value of an accumulator
-/

namespace Clifford

variable {σ K S V : Type} [Number K]

/-! ### Requests -/

namespace Accumulator

/-- What may be asked of an accumulator. -/
inductive Request (K S : Type) where
  /-- A term is to be added, or its negation. -/
  | add (term : Term K S) (negate : Bool)
  /-- The value is to be read. -/
  | value

/-- What an accumulator answers. -/
inductive Answer (K S : Type) where
  /-- The term was taken. -/
  | added
  /-- The term was refused. -/
  | refused (e : AlgebraError K)
  /-- The value. -/
  | value (f : Factor K S)

/-- The terms that are to be added before the value is read. -/
def addsBefore : List (Request K S) → List (Term K S × Bool)
  | .add term negate :: rest => (term, negate) :: addsBefore rest
  | .value :: _ | [] => []

/-- The requests after the first one for the value, if there is one. -/
def afterValue? : List (Request K S) → Option (List (Request K S))
  | .add _ _ :: rest => afterValue? rest
  | .value :: rest => some rest
  | [] => none

/-- The answer to a request after the value was read. -/
def lateAnswer (name : String) (f : Factor K S) : Request K S → Answer K S
  | .add _ _ => .refused (.frozenAccumulator name)
  | .value => .value f

variable [Target σ K S V]

/-- The answer to a request. A term that is refused leaves the accumulator as it was. -/
def serve (acc : Accumulator K S V) : Request K S → StateM σ (Answer K S × Accumulator K S V)
  | .add term negate => do
    match ← (acc.add term negate : Emission σ K (Accumulator K S V)).run with
    | .ok acc => pure (.added, acc)
    | .error e => pure (.refused e, acc)
  | .value => do
    let (f, acc) ← acc.value
    pure (.value f, acc)

/-- The answers to some requests, in their order. -/
def serveAll (acc : Accumulator K S V) :
    List (Request K S) → StateM σ (List (Answer K S) × Accumulator K S V)
  | [] => pure ([], acc)
  | request :: rest => do
    let (answer, acc) ← acc.serve request
    let (answers, acc) ← acc.serveAll rest
    pure (answer :: answers, acc)

end Accumulator

/-! ### What a target is told -/

/-- A signed term that has to be told to a target: it has a symbol and no literal zero. -/
structure EmittedTerm (K S : Type) [Number K] where
  /-- The factors. -/
  term : Term K S
  /-- Whether it is subtracted. -/
  negate : Bool
  /-- No factor is a literal zero. -/
  hasZero_eq_false : term.hasZero = false
  /-- One of the factors is a symbol. -/
  product?_eq_none : term.product? = none

namespace EmittedTerm

theorem nonempty (t : EmittedTerm K S) : Nonempty S :=
  Term.nonempty_of_product?_eq_none t.product?_eq_none

/-- A signed term, if it has to be told. -/
def of? (t : Term K S × Bool) : Option (EmittedTerm K S) :=
  if h : t.1.hasZero = false ∧ t.1.product? = none then some ⟨t.1, t.2, h.1, h.2⟩ else none

/-- Those of some signed terms that have to be told. -/
def ofAll (terms : List (Term K S × Bool)) : List (EmittedTerm K S) := terms.filterMap of?

variable [Target σ K S V]

/-- Adds terms to a storage that is open. -/
def emitRest (v : V) (terms : List (EmittedTerm K S)) : StateM σ V :=
  terms.foldlM (fun v t => Target.emitTerm v t.term t.negate false) v

/-- Opens a storage for the first of some terms, if there is one, and adds the others. -/
def emitAll (name : String) : List (EmittedTerm K S) → StateM σ (Option V)
  | [] => pure none
  | first :: rest => do
    let v ← Target.makeVar first.nonempty name
    let v ← Target.emitTerm v first.term first.negate true
    let v ← emitRest v rest
    pure (some v)

/-- Adds terms to a storage, which is opened for the first of them if there is none yet. -/
def emitInto (name : String) : Option V → List (EmittedTerm K S) → StateM σ (Option V)
  | none, terms => emitAll name terms
  | some v, terms => do
    let v ← emitRest v terms
    pure (some v)

theorem emitRest_append (v : V) (front rest : List (EmittedTerm K S)) :
    (emitRest v (front ++ rest) : StateM σ V) =
      (do let v ← emitRest v front; emitRest v rest) := by
  rw [emitRest, List.foldlM_append]
  rfl

@[simp] theorem emitInto_nil (name : String) (var? : Option V) :
    (emitInto name var? ([] : List (EmittedTerm K S)) : StateM σ (Option V)) = pure var? := by
  cases var? <;> simp [emitInto, emitAll, emitRest]

theorem emitInto_append (name : String) (var? : Option V) (front rest : List (EmittedTerm K S)) :
    (emitInto name var? (front ++ rest) : StateM σ (Option V)) =
      (do let var? ← emitInto name var? front; emitInto name var? rest) := by
  cases var? with
  | some v => simp [emitInto, emitRest_append]
  | none =>
    cases front with
    | nil => simp [emitInto, emitAll]
    | cons first others => simp [emitInto, emitAll, emitRest_append]

end EmittedTerm

/-- The sum of the numbers with one more term, if this has a numeric product. -/
def Cell.addNumber (total : K) (t : Term K S × Bool) : K :=
  if t.1.hasZero then total
  else match t.1.product? with
    | some p => if t.2 then total - p else total + p
    | none => total

namespace Cell

variable [Target σ K S V]

theorem add_of_hasZero {term : Term K S} (h : term.hasZero = true) (cell : Cell K V)
    (negate : Bool) : (cell.add term negate : StateM σ (Cell K V)) = pure cell := by
  unfold add
  rw [if_pos h]

theorem add_of_product?_eq_some {term : Term K S} {p : K} (hzero : ¬ term.hasZero = true)
    (h : term.product? = some p) (cell : Cell K V) (negate : Bool) :
    (cell.add term negate : StateM σ (Cell K V)) =
      pure { cell with total := if negate then cell.total - p else cell.total + p } := by
  unfold add
  rw [if_neg hzero]
  split <;> simp_all

theorem add_of_product?_eq_none {term : Term K S} (hzero : ¬ term.hasZero = true)
    (h : term.product? = none) (cell : Cell K V) (negate : Bool) :
    (cell.add term negate : StateM σ (Cell K V)) = (do
      let (v, init) ← cell.storage (Term.nonempty_of_product?_eq_none h)
      let v ← Target.emitTerm v term negate init
      pure { cell with var? := some v }) := by
  unfold add
  rw [if_neg hzero]
  split
  · simp_all
  · rfl

/-- **A cell tells its target of a term that has a symbol and no literal zero**, and adds up the
numbers by itself. -/
theorem add_eq_emit (cell : Cell K V) (t : Term K S × Bool) :
    (cell.add t.1 t.2 : StateM σ (Cell K V)) = (do
      let var? ← EmittedTerm.emitInto cell.name cell.var? (EmittedTerm.of? t).toList
      pure { cell with total := addNumber cell.total t, var? }) := by
  obtain ⟨term, negate⟩ := t
  obtain ⟨name, total, var?⟩ := cell
  by_cases hzero : term.hasZero = true
  · rw [add_of_hasZero hzero]
    simp [EmittedTerm.of?, addNumber, hzero]
  cases hproduct : term.product? with
  | some p =>
    rw [add_of_product?_eq_some hzero hproduct]
    simp [EmittedTerm.of?, addNumber, hzero, hproduct]
  | none =>
    rw [add_of_product?_eq_none hzero hproduct]
    cases var? <;>
      simp [EmittedTerm.of?, EmittedTerm.emitInto, EmittedTerm.emitAll, EmittedTerm.emitRest,
        addNumber, storage, hzero, hproduct]

/-- What a cell asks for while terms are added: the terms that have to be told, in a row. -/
theorem addAll_eq_emit (cell : Cell K V) (terms : List (Term K S × Bool)) :
    (terms.foldlM (fun cell t => cell.add t.1 t.2) cell : StateM σ (Cell K V)) = (do
      let var? ← EmittedTerm.emitInto cell.name cell.var? (EmittedTerm.ofAll terms)
      pure { cell with total := terms.foldl addNumber cell.total, var? }) := by
  induction terms generalizing cell with
  | nil => simp [EmittedTerm.ofAll]
  | cons t rest ih =>
    have happend : EmittedTerm.ofAll (t :: rest) =
        (EmittedTerm.of? t).toList ++ EmittedTerm.ofAll rest := by
      cases h : EmittedTerm.of? t <;> simp [EmittedTerm.ofAll, h]
    rw [List.foldlM_cons, add_eq_emit, happend, EmittedTerm.emitInto_append]
    simp [ih]

end Cell

/-! ### The protocol -/

namespace Accumulator

variable [Target σ K S V]

/-- The value of some storage and a number: without storage it is the number; otherwise the number
is added unless it is zero, and the storage is closed. -/
def settle (total : K) : Option V → StateM σ (Factor K S)
  | none => pure (.number total)
  | some v => do
    let v ←
      if Number.isZero total then pure v
      else Target.emitTerm v [.number total] false false
    let t ← Target.finishVar v
    pure (.symbol t)

/-- The calls and the answers of an accumulator to some requests. Terms that have to be told are
told while the value has not been read; the rest is settled when it is first read; and nothing is
asked of the target later. -/
def protocol (name : String) (requests : List (Request K S)) :
    StateM σ (List (Answer K S) × Accumulator K S V) := do
  let adds := addsBefore requests
  let total := adds.foldl Cell.addNumber 0
  let added := List.replicate adds.length .added
  let var? ← EmittedTerm.emitAll name (EmittedTerm.ofAll adds)
  match afterValue? requests with
  | none => pure (added, .building ⟨name, total, var?⟩)
  | some later => do
    let f ← settle total var?
    pure (added ++ .value f :: later.map (lateAnswer name f), .frozen name f)

theorem close_eq_settle (cell : Cell K V) :
    (cell.close : StateM σ (Factor K S)) = settle cell.total cell.var? := by
  obtain ⟨name, total, var?⟩ := cell
  cases var? <;> rfl

/-! ### Step by step -/

theorem serve_building_add (cell : Cell K V) (term : Term K S) (negate : Bool) :
    ((building cell).serve (.add term negate) :
      StateM σ (Answer K S × Accumulator K S V)) = (do
        let cell ← (cell.add term negate : StateM σ (Cell K V))
        pure (.added, .building cell)) := rfl

theorem serve_building_value (cell : Cell K V) :
    ((building cell).serve .value : StateM σ (Answer K S × Accumulator K S V)) = (do
      let f ← (cell.close : StateM σ (Factor K S))
      pure (.value f, .frozen cell.name f)) := rfl

/-- After the value was read a request asks nothing of the target and changes nothing. -/
theorem serve_frozen (name : String) (f : Factor K S) (request : Request K S) :
    ((frozen name f).serve request : StateM σ (Answer K S × Accumulator K S V)) =
      pure (lateAnswer name f request, .frozen name f) := by
  cases request <;> rfl

theorem serveAll_frozen (name : String) (f : Factor K S) (requests : List (Request K S)) :
    ((frozen name f).serveAll requests :
      StateM σ (List (Answer K S) × Accumulator K S V)) =
        pure (requests.map (lateAnswer name f), .frozen name f) := by
  induction requests with
  | nil => rfl
  | cons request rest ih => simp [serveAll, serve_frozen, ih]

/-- All terms are added before the value is read, and what follows is answered without the
target. -/
theorem serveAll_building (cell : Cell K V) (requests : List (Request K S)) :
    ((building cell).serveAll requests :
      StateM σ (List (Answer K S) × Accumulator K S V)) = (do
        let cell ← (addsBefore requests).foldlM (fun cell t => cell.add t.1 t.2) cell
        let added := List.replicate (addsBefore requests).length .added
        match afterValue? requests with
        | none => pure (added, .building cell)
        | some later => do
          let f ← cell.close
          pure (added ++ .value f :: later.map (lateAnswer cell.name f),
            .frozen cell.name f)) := by
  induction requests generalizing cell with
  | nil => simp [serveAll, addsBefore, afterValue?]
  | cons request rest ih =>
    cases request with
    | value => simp [serveAll, serve_building_value, serveAll_frozen, addsBefore, afterValue?]
    | add term negate =>
      simp only [serveAll, serve_building_add, addsBefore, afterValue?, List.foldlM_cons]
      cases hafter : afterValue? rest <;> simp [ih, hafter, List.replicate_succ]

theorem serveAll_new (name : String) (requests : List (Request K S)) :
    ((new name).serveAll requests : StateM σ (List (Answer K S) × Accumulator K S V)) =
      protocol name requests := by
  rw [new, serveAll_building, Cell.addAll_eq_emit]
  simp only [bind_assoc, pure_bind, close_eq_settle]
  rfl

/-! ### The value -/

section Value

variable [ExactNumber K] {M : Reading σ K S V} {s : σ} {others : List V}

/-- Every value that is read is the sum of the terms that were added before. -/
theorem serveAll_new_yields (hM : M.Sound) (name : String) (requests : List (Request K S))
    (hopen : M.Open s others) (hterms : ∀ t ∈ addsBefore requests, M.KnownTerm s t.1) :
    Yields ((new name).serveAll requests) s fun (answers, _) s' =>
      M.Keeps s s' others ∧ ∀ f, .value f ∈ answers →
        M.HasValue s' f
          ((addsBefore requests).map fun t => signed t.2 (M.termValue s t.1)).sum := by
  rw [new, serveAll_building]
  have hempty : M.Open s ((Cell.empty name : Cell K V).storages ++ others) := hopen
  refine Yields.bind (Yields.mono (Cell.addAll_yields hM _ hempty hterms) ?_)
  intro cell s₁ ⟨hkeeps, hopen₁, hvalue⟩
  rw [Cell.value_empty, zero_add] at hvalue
  cases afterValue? requests with
  | none => exact .pure ⟨hkeeps, fun f hf => by simp at hf⟩
  | some later =>
    refine Yields.bind (Yields.mono (Cell.close_yields hM hopen₁) ?_)
    rintro f s₂ ⟨hkeeps₂, -, hknown, hf⟩
    refine .pure ⟨hkeeps.trans hkeeps₂, fun f' hf' => ?_⟩
    have hsame : f' = f := by
      rcases List.mem_append.1 hf' with hadded | hlater
      · simp at hadded
      · obtain hfirst | hlate := List.mem_cons.1 hlater
        · exact Answer.value.inj hfirst
        · obtain ⟨request, -, hanswer⟩ := List.mem_map.1 hlate
          cases request with
          | add => cases hanswer
          | value => exact (Answer.value.inj hanswer).symm
    rw [hsame]
    exact ⟨hknown, hf.trans hvalue⟩

end Value

/-- **What an accumulator asks of its target, what it answers, and what its value is.** For every
target and all requests, the computation is the one that opens storage for the first term with a
symbol, adds the others of them, adds the sum of the numbers and closes the storage when the value
is first read, and afterwards refuses every term and repeats the value without a call. Under a sound
reading every value that is read is the signed sum of the terms that were added before, and storages
of others keep theirs. -/
theorem serveAll_protocol (name : String) (requests : List (Request K S)) :
    ((new name).serveAll requests : StateM σ (List (Answer K S) × Accumulator K S V)) =
      protocol name requests ∧
    ∀ [ExactNumber K] (M : Reading σ K S V) (s : σ) (others : List V), M.Sound → M.Open s others →
      (∀ t ∈ addsBefore requests, M.KnownTerm s t.1) →
        ∃ answers acc s', ((new name).serveAll requests).run s = ((answers, acc), s') ∧
          M.Keeps s s' others ∧ ∀ f, .value f ∈ answers →
            M.HasValue s' f
              ((addsBefore requests).map fun t => signed t.2 (M.termValue s t.1)).sum :=
  ⟨serveAll_new name requests, fun _ _ _ hM hopen hterms =>
    ⟨_, _, _, rfl, serveAll_new_yields hM name requests hopen hterms⟩⟩

/-- A number, an input and its square, with signs; reading the value; and one more term. -/
def inputRequests : List (Request ℚ Handle) :=
  [.add [.number 3] true, .add [Program.singleInput.1] false,
    .add [Program.singleInput.1, Program.singleInput.1] true, .value,
    .add [Program.singleInput.1] false, .value]

theorem serveAll_protocol_inputRequests :
    ((new "x").serveAll inputRequests :
      StateM (Program ℚ) (List (Answer ℚ Handle) × Accumulator ℚ Handle Slot)) =
        protocol "x" inputRequests ∧
      ∃ answers acc s',
        ((new "x").serveAll inputRequests).run Program.singleInput.2 = ((answers, acc), s') ∧
        (Program.reading fun _ => some 5).Keeps Program.singleInput.2 s' [] ∧
          ∀ f, .value f ∈ answers → (Program.reading fun _ => some 5).HasValue s' f (-23) := by
  have hq := Program.known_singleInput 5
  have hvalue := Program.value_singleInput 5
  have hterms : ∀ t ∈ addsBefore inputRequests,
      (Program.reading fun _ => some 5).KnownTerm Program.singleInput.2 t.1 := by
    simp [inputRequests, addsBefore, Reading.KnownTerm, hq]
  have hsum : ((addsBefore inputRequests).map fun t =>
      signed t.2 ((Program.reading fun _ => some 5).termValue Program.singleInput.2 t.1)).sum =
        -23 := by
    simp only [inputRequests, addsBefore, List.map_cons, List.map_nil, Reading.termValue_cons,
      Reading.termValue_nil, Reading.value_number, hvalue]
    norm_num [signed]
  obtain ⟨hprotocol, hvalues⟩ := serveAll_protocol (σ := Program ℚ) "x" inputRequests
  obtain ⟨answers, acc, s', hrun, hkeeps, hvalues⟩ :=
    hvalues _ _ [] Program.sound_reading (Program.orderly_singleInput 5) hterms
  rw [hsum] at hvalues
  exact ⟨hprotocol, answers, acc, s', hrun, hkeeps, hvalues⟩

end Accumulator

end Clifford
