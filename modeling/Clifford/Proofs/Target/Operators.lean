import Clifford.Proofs.Target.Reading

/-!
# Values of operators

The operators on factors resolve literal zeros and ones before they call the target. Except for
division, whose laws are not asked of exact numbers, this gives the value of the operator.

## Main definitions

- `Operator.Evaluates` — the value of an operator, where dividing by one may be left out

## Main results

- `Operator.simplify?_value` — the identities are true
- `Target.combine_yields`, `Target.combine_evaluates` — operators have their values
- `Target.call_yields` — functions have their values
-/

namespace Clifford

variable {σ K S V : Type} [Number K] [ExactNumber K] {M : Reading σ K S V} {s : σ}
  {op : Operator} {l r f : Factor K S} {others : List V}

/-- A number is the value of an operator, or what is left of a division by one. No law makes these
the same for all exact numbers. -/
def Operator.Evaluates (op : Operator) (x y z : K) : Prop :=
  z = op.eval x y ∨ op = .div ∧ y = 1 ∧ z = x

/-- **The identities for literal operands are true.** -/
theorem Operator.simplify?_value (hop : op ≠ .div) (h : op.simplify? l r = some f) :
    (f = l ∨ f = r ∨ f = .number 0) ∧ M.value s f = op.eval (M.value s l) (M.value s r) := by
  cases op with
  | div => exact absurd rfl hop
  | mul =>
    rw [simplify?] at h
    split at h
    · rename_i hzero
      obtain rfl : Factor.number 0 = f := Option.some.inj h
      refine ⟨.inr (.inr rfl), ?_⟩
      rcases Bool.or_eq_true_iff.1 hzero with hl | hr
      · exact (by rw [Reading.value_of_isZero hl, zero_mul] : M.value s l * M.value s r = 0).symm
      · exact (by rw [Reading.value_of_isZero hr, mul_zero] : M.value s l * M.value s r = 0).symm
    split at h
    · rename_i hl
      obtain rfl : r = f := Option.some.inj h
      refine ⟨.inr (.inl rfl), ?_⟩
      rw [Reading.value_of_isOne hl]
      exact (one_mul _).symm
    split at h
    · rename_i hr
      obtain rfl : l = f := Option.some.inj h
      refine ⟨.inl rfl, ?_⟩
      rw [Reading.value_of_isOne hr]
      exact (mul_one _).symm
    · cases h
  | add =>
    rw [simplify?] at h
    split at h
    · rename_i hl
      obtain rfl : r = f := Option.some.inj h
      refine ⟨.inr (.inl rfl), ?_⟩
      rw [Reading.value_of_isZero hl]
      exact (zero_add _).symm
    split at h
    · rename_i hr
      obtain rfl : l = f := Option.some.inj h
      refine ⟨.inl rfl, ?_⟩
      rw [Reading.value_of_isZero hr]
      exact (add_zero _).symm
    · cases h
  | sub =>
    rw [simplify?] at h
    split at h
    · rename_i hr
      obtain rfl : l = f := Option.some.inj h
      refine ⟨.inl rfl, ?_⟩
      rw [Reading.value_of_isZero hr]
      exact (sub_zero _).symm
    · cases h

namespace Target

variable [Target σ K S V]

theorem combineSymbolic_yields (hM : M.Sound) (h : Nonempty S) (hop : op ≠ .div)
    (hopen : M.Open s others) (hl : M.Known s l) (hr : M.Known s r) :
    Yields (combineSymbolic h op l r) s fun f s' =>
      M.Keeps s s' others ∧ M.Open s' others ∧ M.Known s' f ∧
        M.value s' f = op.eval (M.value s l) (M.value s r) := by
  unfold combineSymbolic
  split
  · rename_i f hf
    obtain ⟨hcases, hvalue⟩ := Operator.simplify?_value (M := M) (s := s) hop hf
    refine .pure ⟨.refl M s others, hopen, ?_, hvalue⟩
    rcases hcases with rfl | rfl | rfl
    · exact hl
    · exact hr
    · exact Reading.known_number 0
  · refine Yields.bind (Yields.mono (hM.combines h op hopen hl hr) ?_)
    rintro t s' ⟨hkeeps, hopen', heval⟩
    exact .pure ⟨hkeeps, hopen', Reading.known_symbol.2 ⟨_, heval⟩, Reading.value_symbol heval⟩

/-- **An operator other than division has its value**, whether numbers are folded, literals are
resolved, or the target applies it. -/
theorem combine_yields (hM : M.Sound) (hop : op ≠ .div) (hopen : M.Open s others)
    (hl : M.Known s l) (hr : M.Known s r) :
    Yields (combine op l r) s fun f s' =>
      M.Keeps s s' others ∧ M.Open s' others ∧ M.Known s' f ∧
        M.value s' f = op.eval (M.value s l) (M.value s r) := by
  cases l with
  | symbol t => exact combineSymbolic_yields hM ⟨t⟩ hop hopen hl hr
  | number x =>
    cases r with
    | symbol t => exact combineSymbolic_yields hM ⟨t⟩ hop hopen hl hr
    | number y => exact .pure ⟨.refl M s others, hopen, Reading.known_number _, rfl⟩

/-- **Every operator has its value**, where dividing by one may be left out. -/
theorem combine_evaluates (hM : M.Sound) (op : Operator) (hopen : M.Open s others)
    (hl : M.Known s l) (hr : M.Known s r) :
    Yields (combine op l r) s fun f s' =>
      M.Keeps s s' others ∧ M.Open s' others ∧ M.Known s' f ∧
        op.Evaluates (M.value s l) (M.value s r) (M.value s' f) := by
  by_cases hop : op = .div
  · subst hop
    have hsymbolic : ∀ h : Nonempty S, Yields (combineSymbolic h .div l r) s fun f s' =>
        M.Keeps s s' others ∧ M.Open s' others ∧ M.Known s' f ∧
          Operator.div.Evaluates (M.value s l) (M.value s r) (M.value s' f) := by
      intro h
      rw [combineSymbolic, Operator.simplify?]
      by_cases hone : r.isOne = true
      · rw [if_pos hone]
        exact .pure ⟨.refl M s others, hopen, hl, .inr ⟨rfl, Reading.value_of_isOne hone, rfl⟩⟩
      · rw [if_neg hone]
        refine Yields.bind (Yields.mono (hM.combines h .div hopen hl hr) ?_)
        rintro t s' ⟨hkeeps, hopen', heval⟩
        exact .pure ⟨hkeeps, hopen', Reading.known_symbol.2 ⟨_, heval⟩,
          .inl (Reading.value_symbol heval)⟩
    cases l with
    | symbol t => exact hsymbolic ⟨t⟩
    | number x =>
      cases r with
      | symbol t => exact hsymbolic ⟨t⟩
      | number y => exact .pure ⟨.refl M s others, hopen, Reading.known_number _, .inl rfl⟩
  · refine Yields.mono (combine_yields hM hop hopen hl hr) ?_
    rintro f s' ⟨hkeeps, hopen', hknown, hvalue⟩
    exact ⟨hkeeps, hopen', hknown, .inl hvalue⟩

omit [ExactNumber K] in
/-- **A function of factors has its value**, whether numbers are folded or the target applies it. -/
theorem call_yields (hM : M.Sound) (f : ScalarFunction) (hopen : M.Open s others)
    {args : Term K S} (hargs : M.KnownTerm s args) :
    Yields (call f args) s fun r s' =>
      M.Keeps s s' others ∧ M.Open s' others ∧ M.HasValue s' r (f.eval (args.map (M.value s))) := by
  unfold call
  split
  · rename_i xs hxs
    refine .pure ⟨.refl M s others, hopen, Reading.known_number _, ?_⟩
    have hvalues : args.map (M.value s) = xs := by
      rw [Term.eq_map_of_numbers? hxs, List.map_map]
      exact List.map_id xs
    rw [hvalues, Reading.value_number]
  · rename_i hsymbol
    refine Yields.bind (Yields.mono
      (hM.calls (Term.nonempty_of_numbers?_eq_none hsymbol) f hopen hargs) ?_)
    rintro t s' ⟨hkeeps, hopen', heval⟩
    exact .pure ⟨hkeeps, hopen', Reading.known_symbol.2 ⟨_, heval⟩, Reading.value_symbol heval⟩

end Target

end Clifford
