import Clifford.Multivector
import Clifford.Proofs.Accumulator
import Clifford.Proofs.Values.Convolution

/-!
# Values of multivectors

A multivector stands for the function that gives each blade the value of its coefficient, and a
draft for the function that gives each blade the sum of its cell. Every contribution adds a
single component to that function, wherever its blade is in the draft.

## Main definitions

- `Reading.values` — the coefficient function of a multivector
- `Contribution.value`, `Contribution.values` — the signed value of a contribution, and the
  component that it adds
- `Draft.values` — the coefficient function of a draft
- `Draft.touch` — the blades after a contribution

## Main results

- `Reading.sum_components` — a sum over components is a sum over all blades
- `Draft.add_yields`, `Draft.addAll_yields` — contributions add their components
- `Draft.close_yields` — the coefficients of a closed draft have the values of its cells
-/

namespace Clifford

open Finset

variable {σ K S V : Type}

section Components

variable [Number K]

/-- The coefficient function of a list of components. -/
def Reading.componentValues (M : Reading σ K S V) (s : σ) (cs : List (Blade × Factor K S)) :
    Values K := fun b => M.value s ((cs.lookup b).getD (.number 0))

/-- The coefficient function of a multivector. -/
def Reading.values (M : Reading σ K S V) (s : σ) (m : Multivector K S) : Values K :=
  M.componentValues s m.components

theorem Reading.values_apply (M : Reading σ K S V) (s : σ) (m : Multivector K S) (b : Blade) :
    M.values s m b = M.value s (m.value b) := rfl

variable {M : Reading σ K S V} {s s' : σ}

theorem lookup_eq_none_of_notMem {α β : Type} [BEq α] [LawfulBEq α] {l : List (α × β)} {a : α}
    (h : a ∉ l.map Prod.fst) : l.lookup a = none := by
  induction l with
  | nil => rfl
  | cons c rest ih =>
    rw [List.map_cons, List.mem_cons, not_or] at h
    rw [List.lookup_cons, beq_false_of_ne h.1, ih h.2]

theorem mem_of_lookup {α β : Type} [BEq α] [LawfulBEq α] {l : List (α × β)} {a : α} {b : β}
    (h : l.lookup a = some b) : (a, b) ∈ l := by
  obtain ⟨front, rest, rfl, -⟩ := List.lookup_eq_some_iff.1 h
  exact List.mem_append_right _ List.mem_cons_self

@[simp] theorem Reading.componentValues_nil : M.componentValues s [] = 0 := rfl

variable [ExactNumber K]

theorem Reading.componentValues_cons {b : Blade} {f : Factor K S}
    {rest : List (Blade × Factor K S)} (hb : b ∉ rest.map Prod.fst) :
    M.componentValues s ((b, f) :: rest) =
      Values.single b (M.value s f) + M.componentValues s rest := by
  funext c
  rw [Pi.add_apply, componentValues, componentValues, List.lookup_cons]
  by_cases hbc : b = c
  · subst hbc
    rw [beq_self_eq_true, Values.single_self, lookup_eq_none_of_notMem hb]
    exact (add_zero _).symm
  · rw [beq_false_of_ne (Ne.symm hbc), Values.single_of_ne _ hbc, zero_add]

/-- **A sum over the components of a multivector is a sum over all blades**, if components that
are zero add nothing. -/
theorem Reading.sum_componentValues {X : Type*} [AddCommMonoid X] (h : Blade → K → X)
    (hzero : ∀ b, h b 0 = 0) {cs : List (Blade × Factor K S)}
    (hnodup : (cs.map Prod.fst).Nodup) :
    (cs.map fun c => h c.1 (M.value s c.2)).sum = ∑ b, h b (M.componentValues s cs b) := by
  induction cs with
  | nil => simp [hzero]
  | cons c rest ih =>
    obtain ⟨b, f⟩ := c
    rw [List.map_cons, List.nodup_cons] at hnodup
    obtain ⟨hb, hrest⟩ := hnodup
    have hpoint : ∀ a, h a (M.componentValues s ((b, f) :: rest) a) =
        (if b = a then h b (M.value s f) else 0) + h a (M.componentValues s rest a) := by
      intro a
      rw [componentValues_cons hb, Pi.add_apply]
      by_cases hba : b = a
      · subst hba
        have hnone : M.componentValues s rest b = 0 := by
          rw [componentValues, lookup_eq_none_of_notMem hb]
          rfl
        rw [if_pos rfl, Values.single_self, hnone, hzero, add_zero, add_zero]
      · rw [if_neg hba, Values.single_of_ne _ hba, zero_add, zero_add]
    rw [List.map_cons, List.sum_cons, ih hrest]
    simp only [hpoint, sum_add_distrib, sum_ite_eq, mem_univ, if_true]

theorem Reading.sum_components {X : Type*} [AddCommMonoid X] (h : Blade → K → X)
    (hzero : ∀ b, h b 0 = 0) {m : Multivector K S} (hnodup : m.blades.Nodup) :
    (m.components.map fun c => h c.1 (M.value s c.2)).sum = ∑ b, h b (M.values s m b) :=
  sum_componentValues h hzero hnodup

/-- The signed value of a contribution. -/
def Contribution.value (M : Reading σ K S V) (s : σ) (c : Contribution K S) : K :=
  signed c.negate (M.termValue s c.term)

/-- The component that a contribution adds. -/
def Contribution.values (M : Reading σ K S V) (s : σ) (c : Contribution K S) : Values K :=
  Values.single c.blade (c.value M s)

theorem Contribution.values_congr {c : Contribution K S} (h : M.Extends s s')
    (hc : M.KnownTerm s c.term) : c.values M s' = c.values M s := by
  rw [Contribution.values, Contribution.value, h.termValue_eq hc]
  rfl

end Components

namespace Draft

/-- The open storages of a draft. -/
def storages (draft : Draft K V) : List V := draft.flatMap fun c => c.2.storages

/-- The blades of a draft, in the order of their first contribution. -/
def blades (draft : Draft K V) : List Blade := draft.map Prod.fst

/-- The blades after a contribution: a blade that was not touched comes last. -/
def touch (b : Blade) (touched : List Blade) : List Blade :=
  if b ∈ touched then touched else touched ++ [b]

/-- The coefficient function of a draft. -/
def values [Number K] (M : Reading σ K S V) (s : σ) (draft : Draft K V) : Values K := fun b =>
  ((draft.lookup b).map (Cell.value M s)).getD 0

@[simp] theorem storages_cons (c : Blade × Cell K V) (rest : Draft K V) :
    storages (c :: rest) = c.2.storages ++ storages rest := rfl

/-- While the rest of a draft grows, the storage of its first cell is one of the others. -/
theorem storages_cons_perm (c : Blade × Cell K V) (rest : Draft K V) (others : List V) :
    (storages (c :: rest) ++ others).Perm (storages rest ++ (c.2.storages ++ others)) := by
  rw [storages_cons, ← List.append_assoc]
  exact List.perm_append_comm.append_right others

theorem mem_touch {a b : Blade} {touched : List Blade} :
    a ∈ touch b touched ↔ a = b ∨ a ∈ touched := by
  unfold touch
  split
  · rename_i hb
    exact ⟨.inr, fun h => h.elim (fun heq => heq ▸ hb) id⟩
  · rw [List.mem_append, List.mem_singleton, or_comm]

theorem nodup_touch {b : Blade} {touched : List Blade} (h : touched.Nodup) :
    (touch b touched).Nodup := by
  unfold touch
  split
  · exact h
  · rename_i hb
    rw [← List.concat_eq_append]
    exact List.Nodup.concat hb h

theorem touch_cons_of_ne {a b : Blade} (h : a ≠ b) (touched : List Blade) :
    touch b (a :: touched) = a :: touch b touched := by
  by_cases hmem : b ∈ touched
  · rw [touch, touch, if_pos (List.mem_cons_of_mem _ hmem), if_pos hmem]
  · have hcons : b ∉ a :: touched := by
      rw [List.mem_cons, not_or]
      exact ⟨Ne.symm h, hmem⟩
    rw [touch, touch, if_neg hcons, if_neg hmem, List.cons_append]

variable [Number K] {M : Reading σ K S V} {s s' : σ} {draft : Draft K V} {others : List V}

theorem values_cons_apply (b c : Blade) (cell : Cell K V) (rest : Draft K V) :
    values M s ((b, cell) :: rest) c = if b = c then cell.value M s else values M s rest c := by
  rw [values, List.lookup_cons]
  by_cases hbc : b = c
  · rw [if_pos hbc, hbc, beq_self_eq_true, Option.map_some, Option.getD_some]
  · rw [if_neg hbc, beq_false_of_ne (Ne.symm hbc), values]

theorem values_congr (h : ∀ v ∈ draft.storages, M.stored s' v = M.stored s v) :
    values M s' draft = values M s draft := by
  induction draft with
  | nil => rfl
  | cons c rest ih =>
    obtain ⟨b, cell⟩ := c
    funext a
    have hcell : cell.value M s' = cell.value M s :=
      Cell.value_congr fun v hv => h v (List.mem_append_left _ hv)
    have hrest : values M s' rest = values M s rest :=
      ih fun v hv => h v (List.mem_append_right _ hv)
    rw [values_cons_apply, values_cons_apply, hcell, hrest]

variable [ExactNumber K] [Target σ K S V]

/-- **A contribution adds its component to a draft**, and no other open storage changes. -/
theorem add_yields (hM : M.Sound) (nameOf : Blade → String) {c : Contribution K S}
    (hopen : M.Open s (draft.storages ++ others)) (hc : M.KnownTerm s c.term) :
    Yields (add nameOf c draft) s fun draft' s' =>
      M.Keeps s s' others ∧ M.Open s' (storages draft' ++ others) ∧
        blades draft' = touch c.blade draft.blades ∧
        values M s' draft' = values M s draft + c.values M s := by
  -- The contribution goes to the first cell of its blade, or to a new cell at the end.
  induction draft generalizing others with
  | nil =>
    have hempty : M.Open s ((Cell.empty (nameOf c.blade) : Cell K V).storages ++ others) := hopen
    refine Yields.bind (Yields.mono (Cell.add_yields hM c.negate hempty hc) ?_)
    rintro cell s' ⟨hkeeps, hopen', hvalue⟩
    refine .pure ⟨hkeeps, ?_, rfl, ?_⟩
    · rw [storages_cons, List.append_assoc]
      exact hopen'
    funext b
    rw [Cell.value_empty, zero_add] at hvalue
    rw [values_cons_apply, hvalue, Pi.add_apply]
    exact (zero_add _).symm
  | cons head rest ih =>
    obtain ⟨blade, cell⟩ := head
    unfold add
    split
    · rename_i hblade
      rw [storages_cons, List.append_assoc] at hopen
      refine Yields.bind (Yields.mono (Cell.add_yields hM c.negate hopen hc) ?_)
      rintro cell' s' ⟨hkeeps, hopen', hvalue⟩
      refine .pure ⟨hkeeps.mono fun v hv => List.mem_append_right _ hv, ?_, ?_, ?_⟩
      · rwa [storages_cons, List.append_assoc]
      · simp [blades, touch, hblade]
      · have hrest : values M s' rest = values M s rest :=
          values_congr fun v hv => hkeeps.storages v (List.mem_append_left _ hv)
        funext b
        rw [Pi.add_apply, values_cons_apply, values_cons_apply, hrest, hvalue,
          Contribution.values, ← hblade]
        by_cases hb : blade = b
        · subst hb
          rw [if_pos rfl, if_pos rfl, Values.single_self, Contribution.value]
        · rw [if_neg hb, if_neg hb, Values.single_of_ne _ hb, add_zero]
    · rename_i hblade
      have hswap : M.Open s (storages rest ++ (cell.storages ++ others)) :=
        hM.perm hopen (storages_cons_perm (blade, cell) rest others)
      refine Yields.bind (Yields.mono (ih hswap) ?_)
      rintro rest' s' ⟨hkeeps, hopen', hblades, hvalues⟩
      have hcell : cell.value M s' = cell.value M s :=
        Cell.value_congr fun v hv => hkeeps.storages v (List.mem_append_left _ hv)
      refine .pure ⟨hkeeps.mono fun v hv => List.mem_append_right _ hv, ?_, ?_, ?_⟩
      · exact hM.perm hopen' (storages_cons_perm (blade, cell) rest' others).symm
      · rw [blades, List.map_cons, ← blades, hblades, blades, blades, List.map_cons,
          touch_cons_of_ne hblade]
      · funext b
        rw [Pi.add_apply, values_cons_apply, values_cons_apply, hcell, hvalues, Pi.add_apply]
        by_cases hb : blade = b
        · subst hb
          rw [if_pos rfl, if_pos rfl, Contribution.values, Values.single_of_ne _ (Ne.symm hblade),
            add_zero]
        · rw [if_neg hb, if_neg hb]

theorem addAll_yields (hM : M.Sound) (nameOf : Blade → String) {cs : List (Contribution K S)}
    (hopen : M.Open s (draft.storages ++ others)) (hcs : ∀ c ∈ cs, M.KnownTerm s c.term) :
    Yields (draft.addAll nameOf cs) s fun draft' s' =>
      M.Keeps s s' others ∧ M.Open s' (storages draft' ++ others) ∧
        blades draft' = cs.foldl (fun touched c => touch c.blade touched) draft.blades ∧
        values M s' draft' = values M s draft + (cs.map fun c => c.values M s).sum := by
  induction cs generalizing draft s with
  | nil =>
    refine .pure ⟨.refl M s others, hopen, rfl, ?_⟩
    rw [List.map_nil, List.sum_nil, add_zero]
  | cons c rest ih =>
    have hc : M.KnownTerm s c.term := hcs c List.mem_cons_self
    have hrest : ∀ c ∈ rest, M.KnownTerm s c.term := fun c hc =>
      hcs c (List.mem_cons_of_mem _ hc)
    rw [addAll, List.foldlM_cons]
    refine Yields.bind (Yields.mono (add_yields hM nameOf hopen hc) ?_)
    rintro draft' s' ⟨hkeeps, hopen', hblades, hvalues⟩
    refine Yields.mono (ih hopen' fun c hc => hkeeps.symbols.knownTerm (hrest c hc)) ?_
    rintro draft'' s'' ⟨hkeeps', hopen'', hblades', hvalues'⟩
    refine ⟨hkeeps.trans hkeeps', hopen'', ?_, ?_⟩
    · rw [hblades', hblades, List.foldl_cons]
    · have hsame : (rest.map fun c => c.values M s') = rest.map fun c => c.values M s :=
        List.map_congr_left fun c hc => Contribution.values_congr hkeeps.symbols (hrest c hc)
      rw [hvalues', hvalues, hsame, List.map_cons, List.sum_cons, add_assoc]

/-- **The coefficients of a closed draft have the values of its cells.** -/
theorem close_yields (hM : M.Sound) (hopen : M.Open s (draft.storages ++ others)) :
    Yields (draft.close (S := S)) s fun cs s' =>
      M.Keeps s s' others ∧ M.Open s' others ∧ cs.map Prod.fst = draft.blades ∧
        (∀ c ∈ cs, M.Known s' c.2) ∧ M.componentValues s' cs = values M s draft := by
  induction draft generalizing s with
  | nil => exact .pure ⟨.refl M s others, hopen, rfl, nofun, rfl⟩
  | cons c rest ih =>
    obtain ⟨blade, cell⟩ := c
    rw [storages_cons, List.append_assoc] at hopen
    rw [close, List.mapM_cons, bind_assoc]
    refine Yields.bind (Yields.mono (Cell.close_yields hM hopen) ?_)
    rintro f s' ⟨hkeeps, hopen', hknown, hvalue⟩
    rw [pure_bind]
    refine Yields.bind (Yields.mono (ih hopen') ?_)
    rintro cs s'' ⟨hkeeps', hopen'', hblades, hknown', hvalues⟩
    have hkeeps'' : M.Keeps s s'' others :=
      (hkeeps.mono fun v hv => List.mem_append_right _ hv).trans hkeeps'
    refine .pure ⟨hkeeps'', hopen'', ?_, ?_, ?_⟩
    · rw [List.map_cons, hblades, blades, blades, List.map_cons]
    · intro c hc
      rcases List.mem_cons.1 hc with rfl | hc
      · exact hkeeps'.symbols.known hknown
      · exact hknown' c hc
    · have hrest : values M s' rest = values M s rest :=
        values_congr fun v hv => hkeeps.storages v (List.mem_append_left _ hv)
      funext b
      rw [values_cons_apply, Reading.componentValues, List.lookup_cons]
      by_cases hb : blade = b
      · rw [if_pos hb, hb, beq_self_eq_true, Option.getD_some, hkeeps'.symbols.value_eq hknown,
          hvalue]
      · rw [if_neg hb, beq_false_of_ne (Ne.symm hb), ← hrest, ← hvalues]
        rfl

end Draft

end Clifford
