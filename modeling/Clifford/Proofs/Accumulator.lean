import Clifford.Proofs.Target.Reading

/-!
# Sums of cells

A cell splits the sum of its terms between a number and a storage of the target. Under a sound
reading the two parts together are the sum of the values of the terms.

## Main definitions

- `Cell.storages` — the storage of a cell, if it has one
- `Cell.value` — the sum of the terms so far

## Main results

- `Cell.add_yields` — a term adds its value to the sum
- `Cell.close_yields` — closing a cell gives a factor with the sum for its value
- `Cell.sum_yields` — a sum of terms has the sum of their values
-/

namespace Clifford

theorem signed_eq_mul {K : Type} [Number K] [ExactNumber K] (negate : Bool) (x : K) :
    signed negate x = (if negate then -1 else 1) * x := by
  cases negate <;> simp [signed]

namespace Cell

variable {σ K S V : Type}

/-- The storage of a cell, if it has one. -/
def storages (cell : Cell K V) : List V := cell.var?.toList

variable [Number K]

/-- The sum of the terms so far: the numbers, and what the storage holds. -/
def value (M : Reading σ K S V) (s : σ) (cell : Cell K V) : K :=
  cell.total + (cell.var?.map (M.stored s)).getD 0

variable {M : Reading σ K S V} {s s' : σ} {cell : Cell K V} {others : List V}

theorem value_congr (h : ∀ v ∈ cell.storages, M.stored s' v = M.stored s v) :
    cell.value M s' = cell.value M s := by
  rw [value, value]
  cases hvar : cell.var? with
  | none => rfl
  | some v =>
    have hv : M.stored s' v = M.stored s v := h v (by simp [storages, hvar])
    rw [Option.map_some, Option.map_some, hv]

theorem value_of_var?_eq_some {v : V} (h : cell.var? = some v) :
    cell.value M s = cell.total + M.stored s v := by
  rw [value, h, Option.map_some, Option.getD_some]

variable [ExactNumber K]

theorem value_of_var?_eq_none (h : cell.var? = none) : cell.value M s = cell.total := by
  rw [value, h, Option.map_none, Option.getD_none, add_zero]

@[simp] theorem value_empty (name : String) : (empty name : Cell K V).value M s = 0 := by
  rw [value_of_var?_eq_none rfl]
  rfl

variable [Target σ K S V]

/-- **A term adds its value to the sum of a cell**, and no other open storage changes. -/
theorem add_yields (hM : M.Sound) {term : Term K S} (negate : Bool)
    (hopen : M.Open s (cell.storages ++ others)) (hterm : M.KnownTerm s term) :
    Yields (cell.add term negate) s fun cell' s' =>
      M.Keeps s s' others ∧ M.Open s' (cell'.storages ++ others) ∧
        cell'.value M s' = cell.value M s + signed negate (M.termValue s term) := by
  unfold add
  split
  · rename_i hzero
    refine .pure ⟨.refl M s others, hopen, ?_⟩
    rw [Reading.termValue_of_hasZero hzero, signed_eq_mul, mul_zero, add_zero]
  split
  · rename_i p hp
    refine .pure ⟨.refl M s others, hopen, ?_⟩
    rw [Reading.termValue_of_product? hp, value, value]
    cases negate
    · exact add_right_comm _ _ _
    · simp only [signed, if_true]
      rw [sub_eq_add_neg]
      exact add_right_comm _ _ _
  · rename_i hp
    cases hvar : cell.var? with
    | none =>
      have hothers : M.Open s others := by simpa [storages, hvar] using hopen
      have hcall := hM.opens (Term.nonempty_of_product?_eq_none hp) cell.name negate hothers hterm
      simp only [storage, hvar, bind_assoc, pure_bind]
      rw [← bind_assoc]
      refine Yields.bind (Yields.mono hcall ?_)
      rintro v s' ⟨hkeeps, hopen', hstored⟩
      refine .pure ⟨hkeeps, hopen', ?_⟩
      rw [value_of_var?_eq_some rfl, value_of_var?_eq_none hvar, hstored]
    | some v =>
      have hopen' : M.Open s (v :: others) := by simpa [storages, hvar] using hopen
      have hcall := hM.augments negate hopen' hterm
      simp only [storage, hvar, pure_bind]
      refine Yields.bind (Yields.mono hcall ?_)
      rintro v' s' ⟨hkeeps, hopen'', hstored⟩
      refine .pure ⟨hkeeps, hopen'', ?_⟩
      rw [value_of_var?_eq_some rfl, value_of_var?_eq_some hvar, hstored, add_assoc]

/-- **Closing a cell gives a factor with its sum for a value.** -/
theorem close_yields (hM : M.Sound) (hopen : M.Open s (cell.storages ++ others)) :
    Yields (cell.close (S := S)) s fun f s' =>
      M.Keeps s s' others ∧ M.Open s' others ∧ M.Known s' f ∧
        M.value s' f = cell.value M s := by
  unfold close
  cases hvar : cell.var? with
  | none =>
    have hothers : M.Open s others := by simpa [storages, hvar] using hopen
    refine .pure ⟨.refl M s others, hothers, Reading.known_number _, ?_⟩
    rw [Reading.value_number, value_of_var?_eq_none hvar]
  | some v =>
    have hopen' : M.Open s (v :: others) := by simpa [storages, hvar] using hopen
    rw [value_of_var?_eq_some hvar]
    have hfinish : ∀ w s', M.Keeps s s' others → M.Open s' (w :: others) →
        M.stored s' w = cell.total + M.stored s v →
        Yields (do let t ← Target.finishVar w; pure (.symbol t)) s' fun f s'' =>
          M.Keeps s s'' others ∧ M.Open s'' others ∧ M.Known s'' f ∧
            M.value s'' f = cell.total + M.stored s v := by
      intro w s' hkeeps hopen'' hstored
      refine Yields.bind (Yields.mono (hM.closes hopen'') ?_)
      rintro t s'' ⟨hkeeps', hothers, heval⟩
      refine .pure ⟨hkeeps.trans hkeeps', hothers, Reading.known_symbol.2 ⟨_, heval⟩, ?_⟩
      rw [Reading.value_symbol heval, hstored]
    dsimp only
    split
    · rename_i hzero
      refine hfinish v s (.refl M s others) hopen' ?_
      rw [Number.isZero_iff.1 hzero, zero_add]
    · have hterm : M.KnownTerm s [.number cell.total] := .cons (Reading.known_number _) .nil
      refine Yields.bind (Yields.mono (hM.augments false hopen' hterm) ?_)
      rintro w s' ⟨hkeeps, hopen'', hstored⟩
      refine hfinish w s' hkeeps hopen'' ?_
      rw [hstored, Reading.termValue_cons, Reading.termValue_nil, mul_one, add_comm]
      rfl

theorem addAll_yields (hM : M.Sound) (terms : List (Term K S × Bool))
    (hopen : M.Open s (cell.storages ++ others))
    (hterms : ∀ t ∈ terms, M.KnownTerm s t.1) :
    Yields (terms.foldlM (fun cell (term, negate) => add cell term negate) cell) s
      fun cell' s' =>
        M.Keeps s s' others ∧ M.Open s' (cell'.storages ++ others) ∧
          cell'.value M s' = cell.value M s +
            (terms.map fun t => signed t.2 (M.termValue s t.1)).sum := by
  induction terms generalizing cell s with
  | nil =>
    refine .pure ⟨.refl M s others, hopen, ?_⟩
    rw [List.map_nil, List.sum_nil, add_zero]
  | cons t rest ih =>
    obtain ⟨term, negate⟩ := t
    rw [List.foldlM_cons]
    have hfirst := add_yields hM negate hopen (hterms _ List.mem_cons_self)
    refine Yields.bind (Yields.mono hfirst ?_)
    rintro cell' s' ⟨hkeeps, hopen', hvalue⟩
    have hrest : ∀ t ∈ rest, M.KnownTerm s t.1 := fun t ht => hterms t (List.mem_cons_of_mem _ ht)
    refine Yields.mono (ih hopen' fun t ht => hkeeps.symbols.knownTerm (hrest t ht)) ?_
    rintro cell'' s'' ⟨hkeeps', hopen'', hvalue'⟩
    refine ⟨hkeeps.trans hkeeps', hopen'', ?_⟩
    have hsame : (rest.map fun t => signed t.2 (M.termValue s' t.1)) =
        rest.map fun t => signed t.2 (M.termValue s t.1) := by
      refine List.map_congr_left fun t ht => ?_
      rw [hkeeps.symbols.termValue_eq (hrest t ht)]
    rw [hvalue', hvalue, hsame, List.map_cons, List.sum_cons, add_assoc]

/-- **A sum of terms has the sum of their values**, and no open storage changes. -/
theorem sum_yields (hM : M.Sound) (name : String) {terms : List (Term K S × Bool)}
    (hopen : M.Open s others) (hterms : ∀ t ∈ terms, M.KnownTerm s t.1) :
    Yields (Cell.sum name terms) s fun f s' =>
      M.Keeps s s' others ∧ M.Open s' others ∧ M.Known s' f ∧
        M.value s' f = (terms.map fun t => signed t.2 (M.termValue s t.1)).sum := by
  have hempty : M.Open s ((empty name : Cell K V).storages ++ others) := hopen
  refine Yields.bind (Yields.mono (addAll_yields hM terms hempty hterms) ?_)
  rintro cell s' ⟨hkeeps, hopen', hvalue⟩
  refine Yields.mono (close_yields hM hopen') ?_
  rintro f s'' ⟨hkeeps', hopen'', hknown, hf⟩
  refine ⟨hkeeps.trans hkeeps', hopen'', hknown, ?_⟩
  rw [hf, hvalue, value_empty, zero_add]

end Cell

end Clifford
