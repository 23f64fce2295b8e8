import Clifford.Proofs.Number.Exact
import Clifford.Proofs.Target.Outcome
import Clifford.Target.Numeric

/-!
# Readings of targets

A target hands out symbols and keeps open storages; a reading says which numbers they stand for.
A reading is sound when every call of the target does to the numbers what its name says: terms
are added to the storage that is named and to no other one, a closed storage becomes a symbol
with its sum for a value, functions and operators are applied to the values of their arguments,
and no call changes the value of a symbol that was handed out before.

All statements about values of results are made for an arbitrary target with a sound reading.
The numeric target has one, and programs have one for each binding of their inputs.

## Main definitions

- `Reading` — the values of symbols, the sums of storages, and which storages are open
- `Reading.value`, `Reading.Known`, `Reading.HasValue` — the value of a factor, and that it has one
- `Reading.Extends`, `Reading.Keeps` — what later calls leave as it was
- `Reading.Sound` — every call respects the reading
- `NumericTarget.reading` — the reading of the target that has no symbols
-/

namespace Clifford

theorem Term.eq_map_of_numbers? {K S : Type} {term : Term K S} {xs : List K}
    (h : term.numbers? = some xs) : term = xs.map Factor.number := by
  induction term generalizing xs with
  | nil =>
    obtain rfl : xs = [] := (Option.some.inj h).symm
    rfl
  | cons f rest ih =>
    obtain ⟨x, hf, h⟩ := Option.bind_eq_some_iff.1 (List.mapM_cons.symm.trans h)
    obtain ⟨ys, hrest, hcons⟩ := Option.bind_eq_some_iff.1 h
    obtain rfl : xs = x :: ys := (Option.some.inj hcons).symm
    cases f with
    | symbol t => simp [Factor.number?] at hf
    | number y =>
      obtain rfl : y = x := Option.some.inj hf
      rw [ih hrest, List.map_cons]

/-- What the symbols and the open storages of a target stand for. -/
structure Reading (σ K S V : Type) where
  /-- The value of a symbol, if it has one. -/
  eval? : σ → S → Option K
  /-- The sum of the terms that a storage has been given. -/
  stored : σ → V → K
  /-- The target is in order, and these storages are open and apart from each other. -/
  Open : σ → List V → Prop

/-- A number, or its negation. -/
def signed {K : Type*} [Neg K] (negate : Bool) (x : K) : K := if negate then -x else x

namespace Reading

variable {σ K S V : Type}

/-- A factor has a value: it is a number, or a symbol with a value. -/
def Known (M : Reading σ K S V) (s : σ) (f : Factor K S) : Prop :=
  ∀ t, f = .symbol t → ∃ x, M.eval? s t = some x

/-- Every factor of a term has a value. -/
def KnownTerm (M : Reading σ K S V) (s : σ) (term : Term K S) : Prop :=
  ∀ f ∈ term, M.Known s f

/-- All symbols that had a value still have it. -/
def Extends (M : Reading σ K S V) (s s' : σ) : Prop :=
  ∀ t x, M.eval? s t = some x → M.eval? s' t = some x

/-- All symbols that had a value still have it, and so have the given storages. -/
structure Keeps (M : Reading σ K S V) (s s' : σ) (others : List V) : Prop where
  /-- Symbols keep their values. -/
  symbols : M.Extends s s'
  /-- Storages keep their sums. -/
  storages : ∀ v ∈ others, M.stored s' v = M.stored s v

/-- The value of a factor. Symbols without a value count for zero. -/
def value [Number K] (M : Reading σ K S V) (s : σ) : Factor K S → K
  | .number x => x
  | .symbol t => (M.eval? s t).getD 0

/-- A factor has a given value. -/
structure HasValue [Number K] (M : Reading σ K S V) (s : σ) (f : Factor K S) (x : K) : Prop where
  known : M.Known s f
  value_eq : M.value s f = x

variable {M : Reading σ K S V} {s s' s'' : σ} {f : Factor K S} {term : Term K S}

@[simp] theorem known_number (x : K) : M.Known s (.number x) := nofun

@[simp] theorem known_symbol {t : S} : M.Known s (.symbol t) ↔ ∃ x, M.eval? s t = some x := by
  refine ⟨fun h => h t rfl, fun h t' ht => ?_⟩
  cases ht
  exact h

@[simp] theorem value_number [Number K] (x : K) : M.value s (.number x) = x := rfl

theorem value_symbol [Number K] {t : S} {x : K} (h : M.eval? s t = some x) :
    M.value s (.symbol t) = x := by
  rw [value, h, Option.getD_some]

namespace KnownTerm

theorem nil : M.KnownTerm s ([] : Term K S) := nofun

theorem cons {rest : Term K S} (hf : M.Known s f) (hrest : M.KnownTerm s rest) :
    M.KnownTerm s (f :: rest) := by
  intro g hg
  cases hg with
  | head => exact hf
  | tail _ hg => exact hrest g hg

theorem append {front rest : Term K S} (hfront : M.KnownTerm s front)
    (hrest : M.KnownTerm s rest) : M.KnownTerm s (front ++ rest) := by
  intro g hg
  rcases List.mem_append.1 hg with hg | hg
  · exact hfront g hg
  · exact hrest g hg

end KnownTerm

namespace Extends

theorem refl (M : Reading σ K S V) (s : σ) : M.Extends s s := fun _ _ h => h

theorem trans (h : M.Extends s s') (h' : M.Extends s' s'') : M.Extends s s'' :=
  fun t x ht => h' t x (h t x ht)

theorem known (h : M.Extends s s') (hf : M.Known s f) : M.Known s' f := by
  intro t ht
  obtain ⟨x, hx⟩ := hf t ht
  exact ⟨x, h t x hx⟩

theorem value_eq [Number K] (h : M.Extends s s') (hf : M.Known s f) :
    M.value s' f = M.value s f := by
  cases f with
  | number x => rfl
  | symbol t =>
    obtain ⟨x, hx⟩ := hf t rfl
    rw [value_symbol hx, value_symbol (h t x hx)]

theorem hasValue [Number K] {x : K} (h : M.Extends s s') (hf : M.HasValue s f x) :
    M.HasValue s' f x :=
  ⟨h.known hf.known, (h.value_eq hf.known).trans hf.value_eq⟩

theorem knownTerm (h : M.Extends s s') (hterm : M.KnownTerm s term) : M.KnownTerm s' term :=
  fun f hf => h.known (hterm f hf)

end Extends

namespace Keeps

variable {others : List V}

theorem refl (M : Reading σ K S V) (s : σ) (others : List V) : M.Keeps s s others :=
  ⟨.refl M s, fun _ _ => rfl⟩

theorem trans (h : M.Keeps s s' others) (h' : M.Keeps s' s'' others) : M.Keeps s s'' others :=
  ⟨h.symbols.trans h'.symbols, fun v hv => (h'.storages v hv).trans (h.storages v hv)⟩

theorem mono {fewer : List V} (h : M.Keeps s s' others) (hsub : ∀ v ∈ fewer, v ∈ others) :
    M.Keeps s s' fewer :=
  ⟨h.symbols, fun v hv => h.storages v (hsub v hv)⟩

end Keeps

variable [Number K]

/-- The value of a term: the product of the values of its factors. -/
def termValue (M : Reading σ K S V) (s : σ) (term : Term K S) : K := (term.map (M.value s)).prod

@[simp] theorem termValue_nil : M.termValue s [] = 1 := rfl

@[simp] theorem termValue_cons (f : Factor K S) (rest : Term K S) :
    M.termValue s (f :: rest) = M.value s f * M.termValue s rest := by
  rw [termValue, List.map_cons, List.prod_cons, termValue]

theorem Extends.termValue_eq (h : M.Extends s s') (hterm : M.KnownTerm s term) :
    M.termValue s' term = M.termValue s term := by
  rw [termValue, termValue]
  congr 1
  exact List.map_congr_left fun f hf => h.value_eq (hterm f hf)

theorem value_of_isOne (h : f.isOne = true) : M.value s f = 1 := by
  cases f with
  | number x => exact Number.isOne_iff.1 h
  | symbol t => simp [Factor.isOne] at h

section Exact

variable [ExactNumber K]

@[simp] theorem termValue_append (front rest : Term K S) :
    M.termValue s (front ++ rest) = M.termValue s front * M.termValue s rest := by
  rw [termValue, List.map_append, List.prod_append, termValue, termValue]

theorem value_of_isZero (h : f.isZero = true) : M.value s f = 0 := by
  cases f with
  | number x => exact Number.isZero_iff.1 h
  | symbol t => simp [Factor.isZero] at h

theorem termValue_of_hasZero (h : term.hasZero = true) : M.termValue s term = 0 := by
  induction term with
  | nil => simp [Term.hasZero] at h
  | cons f rest ih =>
    rw [termValue_cons]
    rcases Bool.or_eq_true_iff.1 h with hf | hrest
    · rw [value_of_isZero hf, zero_mul]
    · rw [ih hrest, mul_zero]

theorem termValue_of_product? {p : K} (h : term.product? = some p) : M.termValue s term = p := by
  obtain ⟨xs, hxs, rfl⟩ := Option.map_eq_some_iff.1 h
  rw [Term.eq_map_of_numbers? hxs, Number.productFrom_eq, one_mul, termValue, List.map_map]
  congr 1
  exact List.map_id xs

end Exact

variable [Target σ K S V]

/-- Every call of the target respects the reading. -/
structure Sound (M : Reading σ K S V) : Prop where
  /-- The order in which storages are listed does not matter. -/
  perm {s : σ} {vs ws : List V} : M.Open s vs → vs.Perm ws → M.Open s ws
  /-- Storages may be left open for good. -/
  abandon {s : σ} {vs ws : List V} : M.Open s (vs ++ ws) → M.Open s ws
  /-- A storage is opened with its first term. -/
  opens {s : σ} {others : List V} (h : Nonempty S) (name : String) {term : Term K S}
      (negate : Bool) : M.Open s others → M.KnownTerm s term →
    Yields (do let v ← Target.makeVar h name; Target.emitTerm v term negate true) s
      fun v s' => M.Keeps s s' others ∧ M.Open s' (v :: others) ∧
        M.stored s' v = signed negate (M.termValue s term)
  /-- A further term is added to a storage. -/
  augments {s : σ} {v : V} {others : List V} {term : Term K S} (negate : Bool) :
    M.Open s (v :: others) → M.KnownTerm s term →
    Yields (Target.emitTerm v term negate false) s
      fun v' s' => M.Keeps s s' others ∧ M.Open s' (v' :: others) ∧
        M.stored s' v' = M.stored s v + signed negate (M.termValue s term)
  /-- A storage is closed, and its sum is the value of the symbol that stands for it. -/
  closes {s : σ} {v : V} {others : List V} : M.Open s (v :: others) →
    Yields (Target.finishVar v) s
      fun t s' => M.Keeps s s' others ∧ M.Open s' others ∧ M.eval? s' t = some (M.stored s v)
  /-- A function is applied to the values of its arguments. -/
  calls {s : σ} {others : List V} (h : Nonempty S) (f : ScalarFunction) {args : Term K S} :
    M.Open s others → M.KnownTerm s args →
    Yields (Target.applyFunction h f args) s
      fun t s' => M.Keeps s s' others ∧ M.Open s' others ∧
        M.eval? s' t = some (f.eval (args.map (M.value s)))
  /-- An operator is applied to the values of its operands. -/
  combines {s : σ} {others : List V} (h : Nonempty S) (op : Operator) {l r : Factor K S} :
    M.Open s others → M.Known s l → M.Known s r →
    Yields (Target.applyOperator h op l r) s
      fun t s' => M.Keeps s s' others ∧ M.Open s' others ∧
        M.eval? s' t = some (op.eval (M.value s l) (M.value s r))
  /-- Separators have no value. -/
  spaces {s : σ} {others : List V} : M.Open s others →
    Yields (Target.space : StateM σ Unit) s fun _ s' => M.Keeps s s' others ∧ M.Open s' others
  /-- Remarks have no value. -/
  comments {s : σ} {others : List V} (text : String) : M.Open s others →
    Yields (Target.comment text : StateM σ Unit) s
      fun _ s' => M.Keeps s s' others ∧ M.Open s' others

end Reading

namespace NumericTarget

variable {K : Type} [Number K]

/-- Without symbols there is nothing to read. -/
def reading (K : Type) : Reading (NumericTarget K) K Empty Empty where
  eval? _ t := t.elim
  stored _ v := v.elim
  Open _ _ := True

theorem sound_reading : (reading K).Sound where
  perm _ _ := trivial
  abandon _ := trivial
  opens h := h.elim nofun
  augments {_ v} := v.elim
  closes {_ v} := v.elim
  calls h := h.elim nofun
  combines h := h.elim nofun
  spaces _ := ⟨.refl _ _ _, trivial⟩
  comments _ _ := ⟨.refl _ _ _, trivial⟩

end NumericTarget

end Clifford
