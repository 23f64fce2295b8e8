import Clifford.Proofs.Multivector
import Clifford.Proofs.Target.Framing

/-!
# Steady readings

Which symbols have a value, which storages are open, and that later calls change neither, can be
asked of a target without asking which values these are. A reading that answers this much is
steady. Sound readings are, but so are others, for which the numbers need not be exact: nothing
here adds or multiplies.

## Main definitions

- `Reading.Steady` — every call keeps what has a value, and what it makes has one
- `Term.Symbolic` — a term with a symbol, for which alone a target is called

## Main results

- `Reading.Sound.steady`, `Reading.Steady.framed` — readings that are steady
- `Target.call_steady`, `Target.combine_steady` — functions and operators
- `Cell.sum_steady`, `Draft.addAll_steady`, `Draft.close_steady` — scalars and drafts
-/

namespace Clifford

variable {σ K S V : Type}

/-! ### Terms with symbols -/

namespace Term

/-- A symbol is among the factors. -/
def Symbolic (term : Term K S) : Prop := ∃ t, Factor.symbol t ∈ term

theorem symbolic_of_numbers?_eq_none {term : Term K S} (h : term.numbers? = none) :
    term.Symbolic := by
  induction term with
  | nil => simp [numbers?] at h
  | cons f rest ih =>
    cases f with
    | symbol t => exact ⟨t, List.mem_cons_self⟩
    | number x =>
      have hrest : numbers? rest = none := by
        simpa [numbers?, Factor.number?, ← Option.eq_none_iff_forall_ne_some] using h
      obtain ⟨t, ht⟩ := ih hrest
      exact ⟨t, List.mem_cons_of_mem _ ht⟩

theorem symbolic_of_product?_eq_none [Number K] {term : Term K S} (h : term.product? = none) :
    term.Symbolic :=
  symbolic_of_numbers?_eq_none (Option.map_eq_none_iff.1 h)

end Term

/-! ### Steady readings -/

namespace Reading

/-- What has a value keeps it through every call, and what a call makes has one. Calls are only
made for the sake of symbols that have values themselves. -/
structure Steady [Number K] [Target σ K S V] (M : Reading σ K S V) : Prop where
  /-- The order in which storages are listed does not matter. -/
  perm {s : σ} {vs ws : List V} : M.Open s vs → vs.Perm ws → M.Open s ws
  /-- Storages may be left open for good. -/
  abandon {s : σ} {vs ws : List V} : M.Open s (vs ++ ws) → M.Open s ws
  /-- A storage is opened with its first term. -/
  opens {s : σ} {others : List V} (h : Nonempty S) (name : String) {term : Term K S}
      (negate : Bool) : M.Open s others → M.KnownTerm s term → term.Symbolic →
    Yields (do let v ← Target.makeVar h name; Target.emitTerm v term negate true) s
      fun v s' => M.Extends s s' ∧ M.Open s' (v :: others)
  /-- A further term is added to a storage. -/
  augments {s : σ} {v : V} {others : List V} {term : Term K S} (negate : Bool) :
    M.Open s (v :: others) → M.KnownTerm s term →
    Yields (Target.emitTerm v term negate false) s
      fun v' s' => M.Extends s s' ∧ M.Open s' (v' :: others)
  /-- A storage is closed. -/
  closes {s : σ} {v : V} {others : List V} : M.Open s (v :: others) →
    Yields (Target.finishVar v) s
      fun t s' => M.Extends s s' ∧ M.Open s' others ∧ M.Known s' (.symbol t)
  /-- A function is applied. -/
  calls {s : σ} {others : List V} (h : Nonempty S) (f : ScalarFunction) {args : Term K S} :
    M.Open s others → M.KnownTerm s args → args.Symbolic →
    Yields (Target.applyFunction h f args) s
      fun t s' => M.Extends s s' ∧ M.Open s' others ∧ M.Known s' (.symbol t)
  /-- An operator is applied. -/
  combines {s : σ} {others : List V} (h : Nonempty S) (op : Operator) {l r : Factor K S} :
    M.Open s others → M.KnownTerm s [l, r] → Term.Symbolic [l, r] →
    Yields (Target.applyOperator h op l r) s
      fun t s' => M.Extends s s' ∧ M.Open s' others ∧ M.Known s' (.symbol t)
  /-- Separators have no value. -/
  spaces {s : σ} {others : List V} : M.Open s others →
    Yields (Target.space : StateM σ Unit) s fun _ s' => M.Extends s s' ∧ M.Open s' others
  /-- Remarks have no value. -/
  comments {s : σ} {others : List V} (text : String) : M.Open s others →
    Yields (Target.comment text : StateM σ Unit) s
      fun _ s' => M.Extends s s' ∧ M.Open s' others

variable [Number K] [Target σ K S V] {M : Reading σ K S V}

/-- **Sound readings are steady.** -/
theorem Sound.steady (hM : M.Sound) : M.Steady where
  perm := hM.perm
  abandon := hM.abandon
  opens h name _ negate hopen hterm _ := by
    obtain ⟨hkeeps, hopen', -⟩ := hM.opens h name negate hopen hterm
    exact ⟨hkeeps.symbols, hopen'⟩
  augments negate hopen hterm := by
    obtain ⟨hkeeps, hopen', -⟩ := hM.augments negate hopen hterm
    exact ⟨hkeeps.symbols, hopen'⟩
  closes hopen := by
    obtain ⟨hkeeps, hopen', heval⟩ := hM.closes hopen
    exact ⟨hkeeps.symbols, hopen', known_symbol.2 ⟨_, heval⟩⟩
  calls h f _ hopen hargs _ := by
    obtain ⟨hkeeps, hopen', heval⟩ := hM.calls h f hopen hargs
    exact ⟨hkeeps.symbols, hopen', known_symbol.2 ⟨_, heval⟩⟩
  combines h op _ _ hopen hargs _ := by
    obtain ⟨hkeeps, hopen', heval⟩ := hM.combines h op hopen (hargs _ List.mem_cons_self)
      (hargs _ (List.mem_cons_of_mem _ List.mem_cons_self))
    exact ⟨hkeeps.symbols, hopen', known_symbol.2 ⟨_, heval⟩⟩
  spaces hopen := by
    obtain ⟨hkeeps, hopen'⟩ := hM.spaces hopen
    exact ⟨hkeeps.symbols, hopen'⟩
  comments text hopen := by
    obtain ⟨hkeeps, hopen'⟩ := hM.comments text hopen
    exact ⟨hkeeps.symbols, hopen'⟩

/-- **A steady reading may be framed.** -/
theorem Steady.framed (hM : M.Steady) (frame : List V) : (M.framed frame).Steady where
  perm h hperm := hM.perm h (hperm.append_right frame)
  abandon {s vs ws} h := by
    have hassoc : M.Open s (vs ++ (ws ++ frame)) := List.append_assoc vs ws frame ▸ h
    exact hM.abandon hassoc
  opens h name _ negate hopen hterm hsymbolic := hM.opens h name negate hopen hterm hsymbolic
  augments negate hopen hterm := hM.augments negate hopen hterm
  closes hopen := hM.closes hopen
  calls h f _ hopen hargs hsymbolic := hM.calls h f hopen hargs hsymbolic
  combines h op _ _ hopen hargs hsymbolic := hM.combines h op hopen hargs hsymbolic
  spaces hopen := hM.spaces hopen
  comments text hopen := hM.comments text hopen

end Reading

variable [Number K] [Target σ K S V] {M : Reading σ K S V} {s : σ} {others : List V}

/-! ### Functions and operators -/

omit [Target σ K S V] in
/-- What an operator with a literal operand is resolved to is one of the operands or zero. -/
theorem Operator.simplify?_known {op : Operator} {l r f : Factor K S} (hl : M.Known s l)
    (hr : M.Known s r) (h : op.simplify? l r = some f) : M.Known s f := by
  have hcases : f = l ∨ f = r ∨ f = .number 0 := by
    cases op <;> grind [Operator.simplify?]
  rcases hcases with rfl | rfl | rfl
  · exact hl
  · exact hr
  · exact Reading.known_number 0

namespace Target

theorem call_steady (hM : M.Steady) (f : ScalarFunction) (hopen : M.Open s others)
    {args : Term K S} (hargs : M.KnownTerm s args) :
    Yields (call f args) s fun r s' => M.Extends s s' ∧ M.Open s' others ∧ M.Known s' r := by
  unfold call
  split
  · exact .pure ⟨.refl M s, hopen, Reading.known_number _⟩
  · rename_i hnone
    refine Yields.bind (Yields.mono (hM.calls (Term.nonempty_of_numbers?_eq_none hnone) f hopen
      hargs (Term.symbolic_of_numbers?_eq_none hnone)) ?_)
    exact fun t s' h => .pure h

theorem combineSymbolic_steady (hM : M.Steady) (h : Nonempty S) (op : Operator)
    (hopen : M.Open s others) {l r : Factor K S} (hargs : M.KnownTerm s [l, r])
    (hsymbolic : Term.Symbolic [l, r]) :
    Yields (combineSymbolic h op l r) s fun f s' =>
      M.Extends s s' ∧ M.Open s' others ∧ M.Known s' f := by
  unfold combineSymbolic
  split
  · rename_i f hf
    exact .pure ⟨.refl M s, hopen, Operator.simplify?_known (hargs l List.mem_cons_self)
      (hargs r (List.mem_cons_of_mem l List.mem_cons_self)) hf⟩
  · exact Yields.bind (Yields.mono (hM.combines h op hopen hargs hsymbolic) fun t s' h => .pure h)

theorem combine_steady (hM : M.Steady) (op : Operator) (hopen : M.Open s others)
    {l r : Factor K S} (hl : M.Known s l) (hr : M.Known s r) :
    Yields (combine op l r) s fun f s' => M.Extends s s' ∧ M.Open s' others ∧ M.Known s' f := by
  have hargs : M.KnownTerm s [l, r] := .cons hl (.cons hr .nil)
  cases l with
  | symbol t =>
    exact combineSymbolic_steady hM ⟨t⟩ op hopen hargs ⟨t, List.mem_cons_self⟩
  | number x =>
    cases r with
    | symbol t =>
      exact combineSymbolic_steady hM ⟨t⟩ op hopen hargs
        ⟨t, List.mem_cons_of_mem _ List.mem_cons_self⟩
    | number y => exact .pure ⟨.refl M s, hopen, Reading.known_number _⟩

end Target

/-! ### Scalars -/

namespace Cell

variable {cell : Cell K V}

/-- Adding a term keeps a scalar in order, with at most one storage of its own. -/
theorem add_steady (hM : M.Steady) {term : Term K S} (negate : Bool)
    (hopen : M.Open s (cell.storages ++ others)) (hterm : M.KnownTerm s term) :
    Yields (cell.add term negate) s fun cell' s' =>
      M.Extends s s' ∧ M.Open s' (cell'.storages ++ others) := by
  unfold add
  split
  · exact .pure ⟨.refl M s, hopen⟩
  split
  · exact .pure ⟨.refl M s, hopen⟩
  · rename_i hp
    have hsymbolic := Term.symbolic_of_product?_eq_none hp
    cases hvar : cell.var? with
    | none =>
      have hothers : M.Open s others := by simpa [storages, hvar] using hopen
      simp only [storage, hvar, bind_assoc, pure_bind]
      rw [← bind_assoc]
      refine Yields.bind (Yields.mono (hM.opens (Term.nonempty_of_product?_eq_none hp) cell.name
        negate hothers hterm hsymbolic) ?_)
      exact fun v s' h => .pure h
    | some v =>
      have hopen' : M.Open s (v :: others) := by simpa [storages, hvar] using hopen
      simp only [storage, hvar, pure_bind]
      exact Yields.bind (Yields.mono (hM.augments negate hopen' hterm) fun v s' h => .pure h)

theorem close_steady (hM : M.Steady) (hopen : M.Open s (cell.storages ++ others)) :
    Yields (cell.close (S := S)) s fun f s' =>
      M.Extends s s' ∧ M.Open s' others ∧ M.Known s' f := by
  unfold close
  cases hvar : cell.var? with
  | none =>
    have hothers : M.Open s others := by simpa [storages, hvar] using hopen
    exact .pure ⟨.refl M s, hothers, Reading.known_number _⟩
  | some v =>
    have hopen' : M.Open s (v :: others) := by simpa [storages, hvar] using hopen
    dsimp only
    split
    · exact Yields.bind (.pure (Yields.bind (Yields.mono (hM.closes hopen') fun t s' h => .pure h)))
    · have hterm : M.KnownTerm s [.number cell.total] := .cons (Reading.known_number _) .nil
      refine Yields.bind (Yields.mono (hM.augments false hopen' hterm) ?_)
      rintro w s' ⟨hext, hopen''⟩
      refine Yields.bind (Yields.mono (hM.closes hopen'') ?_)
      rintro t s'' ⟨hext', hothers, hknown⟩
      exact .pure ⟨hext.trans hext', hothers, hknown⟩

theorem addAll_steady (hM : M.Steady) (terms : List (Term K S × Bool))
    (hopen : M.Open s (cell.storages ++ others)) (hterms : ∀ t ∈ terms, M.KnownTerm s t.1) :
    Yields (terms.foldlM (fun cell (term, negate) => add cell term negate) cell) s
      fun cell' s' => M.Extends s s' ∧ M.Open s' (cell'.storages ++ others) := by
  induction terms generalizing cell s with
  | nil => exact .pure ⟨.refl M s, hopen⟩
  | cons t rest ih =>
    obtain ⟨ht, hrest⟩ := List.forall_mem_cons.1 hterms
    rw [List.foldlM_cons]
    refine Yields.bind (Yields.mono (add_steady hM t.2 hopen ht) ?_)
    rintro cell' s' ⟨hext, hopen'⟩
    refine Yields.mono (ih hopen' fun t ht => hext.knownTerm (hrest t ht)) ?_
    rintro cell'' s'' ⟨hext', hopen''⟩
    exact ⟨hext.trans hext', hopen''⟩

theorem sum_steady (hM : M.Steady) (name : String) {terms : List (Term K S × Bool)}
    (hopen : M.Open s others) (hterms : ∀ t ∈ terms, M.KnownTerm s t.1) :
    Yields (Cell.sum name terms) s fun f s' =>
      M.Extends s s' ∧ M.Open s' others ∧ M.Known s' f := by
  have hempty : M.Open s ((empty name : Cell K V).storages ++ others) := hopen
  refine Yields.bind (Yields.mono (addAll_steady hM terms hempty hterms) ?_)
  rintro cell s' ⟨hext, hopen'⟩
  refine Yields.mono (close_steady hM hopen') ?_
  rintro f s'' ⟨hext', hopen'', hknown⟩
  exact ⟨hext.trans hext', hopen'', hknown⟩

end Cell

/-! ### Drafts -/

namespace Draft

variable {draft : Draft K V}

/-- Adding a contribution keeps a draft in order; it touches the blade of the contribution. -/
theorem add_steady (hM : M.Steady) (nameOf : Blade → String) {c : Contribution K S}
    (hopen : M.Open s (draft.storages ++ others)) (hc : M.KnownTerm s c.term) :
    Yields (add nameOf c draft) s fun draft' s' =>
      M.Extends s s' ∧ M.Open s' (storages draft' ++ others) ∧
        blades draft' = touch c.blade draft.blades := by
  induction draft generalizing others with
  | nil =>
    have hempty : M.Open s ((Cell.empty (nameOf c.blade) : Cell K V).storages ++ others) := hopen
    refine Yields.bind (Yields.mono (Cell.add_steady hM c.negate hempty hc) ?_)
    rintro cell s' ⟨hext, hopen'⟩
    refine .pure ⟨hext, ?_, rfl⟩
    rw [storages_cons, List.append_assoc]
    exact hopen'
  | cons head rest ih =>
    obtain ⟨blade, cell⟩ := head
    unfold add
    split
    · rename_i hblade
      rw [storages_cons, List.append_assoc] at hopen
      refine Yields.bind (Yields.mono (Cell.add_steady hM c.negate hopen hc) ?_)
      rintro cell' s' ⟨hext, hopen'⟩
      refine .pure ⟨hext, ?_, by simp [blades, touch, hblade]⟩
      rwa [storages_cons, List.append_assoc]
    · rename_i hblade
      have hswap : M.Open s (storages rest ++ (cell.storages ++ others)) :=
        hM.perm hopen (storages_cons_perm (blade, cell) rest others)
      refine Yields.bind (Yields.mono (ih hswap) ?_)
      rintro rest' s' ⟨hext, hopen', hblades⟩
      have hperm := (storages_cons_perm (blade, cell) rest' others).symm
      refine .pure ⟨hext, hM.perm hopen' hperm, ?_⟩
      rw [blades, List.map_cons, ← blades, hblades, blades, blades, List.map_cons,
        touch_cons_of_ne hblade]

theorem addAll_steady (hM : M.Steady) (nameOf : Blade → String) {cs : List (Contribution K S)}
    (hopen : M.Open s (draft.storages ++ others)) (hcs : ∀ c ∈ cs, M.KnownTerm s c.term)
    (hnodup : draft.blades.Nodup) :
    Yields (draft.addAll nameOf cs) s fun draft' s' =>
      M.Extends s s' ∧ M.Open s' (storages draft' ++ others) ∧ (blades draft').Nodup := by
  induction cs generalizing draft s with
  | nil => exact .pure ⟨.refl M s, hopen, hnodup⟩
  | cons c rest ih =>
    obtain ⟨hc, hrest⟩ := List.forall_mem_cons.1 hcs
    rw [addAll, List.foldlM_cons]
    refine Yields.bind (Yields.mono (add_steady hM nameOf hopen hc) ?_)
    rintro draft' s' ⟨hext, hopen', hblades⟩
    refine Yields.mono (ih hopen' (fun c hc => hext.knownTerm (hrest c hc))
      (hblades ▸ nodup_touch hnodup)) ?_
    rintro draft'' s'' ⟨hext', hopen'', hnodup'⟩
    exact ⟨hext.trans hext', hopen'', hnodup'⟩

/-- Closing a draft gives every blade a coefficient. -/
theorem close_steady (hM : M.Steady) (hopen : M.Open s (draft.storages ++ others)) :
    Yields (draft.close (S := S)) s fun cs s' =>
      M.Extends s s' ∧ M.Open s' others ∧ cs.map Prod.fst = draft.blades ∧
        ∀ c ∈ cs, M.Known s' c.2 := by
  induction draft generalizing s with
  | nil => exact .pure ⟨.refl M s, hopen, rfl, nofun⟩
  | cons c rest ih =>
    obtain ⟨blade, cell⟩ := c
    rw [storages_cons, List.append_assoc] at hopen
    rw [close, List.mapM_cons, bind_assoc]
    refine Yields.bind (Yields.mono (Cell.close_steady hM hopen) ?_)
    rintro f s' ⟨hext, hopen', hknown⟩
    rw [pure_bind]
    refine Yields.bind (Yields.mono (ih hopen') ?_)
    rintro cs s'' ⟨hext', hopen'', hblades, hknown'⟩
    refine .pure ⟨hext.trans hext', hopen'', ?_, ?_⟩
    · rw [List.map_cons, hblades, blades, blades, List.map_cons]
    · exact List.forall_mem_cons.2 ⟨hext'.known hknown, hknown'⟩

end Draft

end Clifford
