import Clifford.Algebra
import Clifford.Proofs.Target.Steady

/-!
# Components that only numbers are added to

Numbers that are contributed to a blade are added up as they come, whatever goes to the other
blades, and whatever the target does with it. So the coefficient of the blade is the outcome of a
sequence of additions, which starts from zero and takes the contributions to the blade in their
order. No law of arithmetic is used.

## Main definitions

- `Contribution.OfNumbers` — a contribution without symbols
- `Contribution.addTo` — the sum after a contribution of numbers
- `Contribution.total?` — the outcome of several contributions
- `Draft.Holds` — the sum that a draft has at a blade

## Main results

- `Draft.addAll_holds` — the sum of a blade after several contributions
- `Algebra.build_get?` — the coefficient of a blade to which only numbers are added
-/

namespace Clifford

variable {σ K S V : Type}

namespace Contribution

/-- There is no symbol in the term. -/
def OfNumbers (c : Contribution K S) : Prop := ∀ f ∈ c.term, f.isNumber = true

variable [Number K]

/-- A sum after a contribution of numbers, which is ignored if there is a literal zero. -/
def addTo (c : Contribution K S) (total : K) : K :=
  if c.term.hasZero then total
  else
    let p := (c.term.product?).getD 0
    if c.negate then total - p else total + p

/-- The outcome of adding contributions of numbers one after the other, from zero. There is none if
nothing is added. -/
def total? (cs : List (Contribution K S)) : Option K :=
  cs.foldl (fun total? c => some (c.addTo (total?.getD 0))) none

end Contribution

variable [Number K] [Target σ K S V]

/-- A contribution of numbers is added to the sum of a cell. -/
theorem Cell.add_ofNumbers {c : Contribution K S} (hc : c.OfNumbers) (cell : Cell K V) :
    (cell.add c.term c.negate : StateM σ (Cell K V)) =
      pure { cell with total := c.addTo cell.total } := by
  unfold Cell.add Contribution.addTo
  split
  · rfl
  · split
    · rename_i p hp
      rw [hp, Option.getD_some]
    · rename_i hnone
      obtain ⟨t, ht⟩ := Term.symbolic_of_product?_eq_none hnone
      cases hc _ ht

namespace Draft

/-- The blade has been given the sum `total?` of numbers, and no term with a symbol. -/
def Holds (draft : Draft K V) (b : Blade) (total? : Option K) : Prop :=
  draft.lookup b = none ∧ total? = none ∨
    ∃ name total, draft.lookup b = some ⟨name, total, none⟩ ∧ total? = some total

variable {draft : Draft K V} {b : Blade} {total? : Option K} {c : Contribution K S} {s : σ}

omit [Number K] [Target σ K S V] in
theorem holds_cons_self {cell : Cell K V} {rest : Draft K V} :
    Holds ((b, cell) :: rest) b total? ↔ cell.var? = none ∧ total? = some cell.total := by
  obtain ⟨name, total, var?⟩ := cell
  rw [Holds, List.lookup_cons_self]
  constructor
  · rintro (⟨⟨⟩, -⟩ | ⟨name', total', ⟨⟩, h⟩)
    exact ⟨rfl, h⟩
  · rintro ⟨rfl, h⟩
    exact .inr ⟨name, total, rfl, h⟩

omit [Number K] [Target σ K S V] in
theorem holds_cons_of_ne {blade : Blade} {cell : Cell K V} {rest : Draft K V} (h : blade ≠ b) :
    Holds ((blade, cell) :: rest) b total? ↔ Holds rest b total? := by
  rw [Holds, Holds, List.lookup_cons, beq_false_of_ne (Ne.symm h)]

/-- A contribution to a blade is added to the sum of the blade, which starts from zero. -/
theorem add_holds (nameOf : Blade → String) (hc : c.OfNumbers)
    (h : draft.Holds c.blade total?) :
    Yields (add nameOf c draft) s fun draft' _ =>
      Holds draft' c.blade (some (c.addTo (total?.getD 0))) := by
  induction draft with
  | nil =>
    obtain ⟨-, rfl⟩ | ⟨_, _, ⟨⟩, -⟩ := h
    rw [add, Cell.add_ofNumbers hc]
    exact .pure (holds_cons_self.2 ⟨rfl, rfl⟩)
  | cons head rest ih =>
    obtain ⟨blade, cell⟩ := head
    rw [add]
    split
    · rename_i hblade
      subst hblade
      obtain ⟨hvar, rfl⟩ := holds_cons_self.1 h
      rw [Cell.add_ofNumbers hc]
      exact .pure (holds_cons_self.2 ⟨hvar, rfl⟩)
    · rename_i hblade
      refine Yields.bind (Yields.mono (ih ((holds_cons_of_ne hblade).1 h)) fun rest' _ hrest' => ?_)
      exact .pure ((holds_cons_of_ne hblade).2 hrest')

/-- Contributions to other blades leave the sum of a blade as it is. -/
theorem add_holds_of_ne (nameOf : Blade → String) (hb : c.blade ≠ b)
    (h : draft.Holds b total?) :
    Yields (add nameOf c draft) s fun draft' _ => Holds draft' b total? := by
  induction draft with
  | nil =>
    refine Yields.bind (.mono (P := fun _ _ => True) trivial fun cell s' _ => ?_)
    exact .pure ((holds_cons_of_ne hb).2 h)
  | cons head rest ih =>
    obtain ⟨blade, cell⟩ := head
    rw [add]
    split
    · rename_i hblade
      subst hblade
      refine Yields.bind (.mono (P := fun _ _ => True) trivial fun cell s' _ => ?_)
      exact .pure ((holds_cons_of_ne hb).2 ((holds_cons_of_ne hb).1 h))
    · by_cases hblade : blade = b
      · subst hblade
        refine Yields.bind (.mono (P := fun _ _ => True) trivial fun rest' s' _ => ?_)
        exact .pure (holds_cons_self.2 (holds_cons_self.1 h))
      · refine Yields.bind (.mono (ih ((holds_cons_of_ne hblade).1 h)) fun rest' _ hrest' => ?_)
        exact .pure ((holds_cons_of_ne hblade).2 hrest')

/-- **The sum of a blade after several contributions.** -/
theorem addAll_holds (nameOf : Blade → String) {cs : List (Contribution K S)}
    (hcs : ∀ c ∈ cs, c.blade = b → c.OfNumbers) (h : draft.Holds b total?) :
    Yields (draft.addAll nameOf cs) s fun draft' _ =>
      Holds draft' b ((cs.filter fun c => c.blade == b).foldl
        (fun total? c => some (c.addTo (total?.getD 0))) total?) := by
  induction cs generalizing draft total? s with
  | nil => exact .pure h
  | cons c rest ih =>
    obtain ⟨hc, hrest⟩ := List.forall_mem_cons.1 hcs
    rw [addAll, List.foldlM_cons]
    by_cases hb : c.blade = b
    · subst hb
      rw [List.filter_cons, if_pos (beq_self_eq_true c.blade), List.foldl_cons]
      refine Yields.bind (Yields.mono (add_holds nameOf (hc rfl) h) fun draft₁ s₁ h₁ => ?_)
      exact ih hrest h₁
    · rw [List.filter_cons_of_neg (by simpa using hb)]
      refine Yields.bind (Yields.mono (add_holds_of_ne nameOf hb h) fun draft₁ s₁ h₁ => ?_)
      exact ih hrest h₁

/-- The coefficient of a blade is its sum. -/
theorem close_lookup (h : draft.Holds b total?) :
    Yields (draft.close (S := S)) s fun components _ =>
      components.lookup b = total?.map Factor.number := by
  induction draft generalizing s with
  | nil =>
    obtain ⟨-, rfl⟩ | ⟨_, _, ⟨⟩, -⟩ := h
    exact .pure rfl
  | cons head rest ih =>
    obtain ⟨blade, cell⟩ := head
    rw [close, List.mapM_cons, bind_assoc]
    by_cases hb : blade = b
    · subst hb
      obtain ⟨hvar, rfl⟩ := holds_cons_self.1 h
      have hclose : (cell.close : StateM σ (Factor K S)) = pure (.number cell.total) := by
        rw [Cell.close, hvar]
      rw [hclose, pure_bind, pure_bind]
      refine Yields.bind (.mono (P := fun _ _ => True) trivial fun components s' _ => ?_)
      exact .pure List.lookup_cons_self
    · refine Yields.bind (.mono (P := fun _ _ => True) trivial fun f s₁ _ => ?_)
      rw [pure_bind]
      refine Yields.bind (Yields.mono (ih ((holds_cons_of_ne hb).1 h)) fun components s₂ h₂ => ?_)
      refine .pure ?_
      rw [List.lookup_cons, beq_false_of_ne (Ne.symm hb)]
      exact h₂

end Draft

/-- **The coefficient of a blade to which only numbers are added** is the outcome of adding them one
after the other, in their order. -/
theorem Algebra.build_get? (A : Algebra K S) (cs : List (Contribution K S)) (s : σ) :
    (A.build cs : Emission σ K (Multivector K S)).Gives s fun m _ => m.owner = A.id ∧
      ∀ b, (∀ c ∈ cs, c.blade = b → c.OfNumbers) →
        m.get? b = (Contribution.total? (cs.filter fun c => c.blade == b)).map Factor.number := by
  have hget : ∀ b, (∀ c ∈ cs, c.blade = b → c.OfNumbers) → Yields (do
      let draft ← Draft.addAll A.cellName ([] : Draft K V) cs
      let components ← draft.close
      pure ({ owner := A.id, components } : Multivector K S)) s fun m _ =>
        m.get? b = (Contribution.total? (cs.filter fun c => c.blade == b)).map Factor.number := by
    intro b hcs
    have hempty : Draft.Holds ([] : Draft K V) b none := .inl ⟨rfl, rfl⟩
    refine Yields.bind (Yields.mono (Draft.addAll_holds A.cellName hcs hempty) fun draft _ h => ?_)
    exact Yields.bind (Yields.mono (Draft.close_lookup h) fun components _ h' => .pure h')
  exact ⟨_, _, rfl, rfl, hget⟩

end Clifford
