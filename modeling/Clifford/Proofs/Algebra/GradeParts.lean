import Clifford.Proofs.Algebra.Components
import Clifford.Proofs.Algebra.Normalization
import Clifford.Proofs.Algebra.SquaredNorm

/-!
# Products as parts of the geometric product

The other products drop pairs of blades before anything is multiplied. For operands of a single
grade each, that is the same as taking the geometric product and dropping blades of the result: the
contributions that are left are those to the blades of one grade. They are left in their order, so a
coefficient of the product is the outcome of the same additions as that of the geometric product.

## Main definitions

- `ProductKind.part` — which grades a product keeps
- `Algebra.besidePart` — a product beside the part of the geometric product

## Main results

- `ProductKind.includes_eq_part` — a product keeps the pairs whose product has such a grade
- `Algebra.productContributions_eq_filter` — what a product contributes
- `Algebra.mul_eq_part` — a product of multivectors of a single grade is a part of the geometric one
-/

namespace Clifford

variable {σ K S V : Type}

/-- Whether the product of blades of the grades `r` and `s` keeps blades of the grade `t`. -/
def ProductKind.part (kind : ProductKind) (r s t : Nat) : Bool :=
  match kind with
  | geometric => true
  | wedge => t == r + s
  | leftContraction => decide (r ≤ s) && t == s - r
  | rightContraction => decide (s ≤ r) && t == r - s
  | scalar => t == 0
  | dot => t == ((r : Int) - s).natAbs

/-- A product keeps a pair of blades if it keeps the grade of their product. -/
theorem ProductKind.includes_eq_part (kind : ProductKind) (a b : Blade) :
    kind.includes a b = kind.part a.grade b.grade (a ^^^ b).grade := by
  cases kind with
  | geometric | wedge | leftContraction | rightContraction | scalar => rfl
  | dot =>
    have hdistance : max a.grade b.grade - min a.grade b.grade =
        ((a.grade : Int) - b.grade).natAbs := by omega
    rw [includes, part, hdistance]
    rfl

namespace Contribution

variable {cs : List (Contribution K S)} {keep : Blade → Bool}

/-- Of the contributions to a blade, all are kept or none. -/
theorem filter_filter_blade (cs : List (Contribution K S)) (keep : Blade → Bool) (b : Blade) :
    (cs.filter fun c => keep c.blade).filter (fun c => c.blade == b) =
      if keep b then cs.filter fun c => c.blade == b else [] := by
  rw [List.filter_filter]
  split
  · rename_i hkeep
    refine List.filter_congr fun c _ => ?_
    by_cases hb : c.blade = b
    · rw [hb, hkeep, Bool.and_true]
    · rw [beq_false_of_ne hb, Bool.false_and]
  · rename_i hkeep
    refine List.filter_eq_nil_iff.2 fun c _ hc => ?_
    obtain ⟨hb, hc⟩ := Bool.and_eq_true_iff.1 hc
    rw [eq_of_beq hb] at hc
    exact hkeep hc

end Contribution

namespace Algebra

variable [Number K] {A : Algebra K S} {a b : Multivector K S} {kind : ProductKind} {r s : Nat}

/-- **What a product contributes**, if its operands have a single grade each: what the geometric
product contributes to the blades of the grades that are kept, in the same order. -/
theorem productContributions_eq_filter (hr : ∀ l ∈ a.blades, l.grade = r)
    (hs : ∀ l ∈ b.blades, l.grade = s) :
    A.productContributions kind a b =
      (A.productContributions .geometric a b).filter fun c => kind.part r s c.blade.grade := by
  rw [productContributions, productContributions, List.filter_flatMap]
  refine List.flatMap_congr fun left hleft => ?_
  rw [List.filter_filterMap]
  refine List.filterMap_congr fun right hright => ?_
  have hkeep : kind.includes left.1 right.1 = kind.part r s (left.1 ^^^ right.1).grade := by
    rw [ProductKind.includes_eq_part, hr _ (List.mem_map_of_mem hleft),
      hs _ (List.mem_map_of_mem hright)]
  have hall : ProductKind.geometric.includes left.1 right.1 = true := rfl
  rw [hkeep, if_pos hall, pairContribution?]
  cases A.metric.factors? (left.1 &&& right.1) with
  | none => rw [Option.map_none, ite_self, Option.filter_none]
  | some squares => rw [Option.map_some, Option.filter_some]

/-- Without symbols in the metric and the operands, a product contributes numbers only. -/
theorem ofNumbers_productContributions (hmetric : ∀ square ∈ A.metric, square.isNumber = true)
    (ha : ∀ c ∈ a.components, c.2.isNumber = true) (hb : ∀ c ∈ b.components, c.2.isNumber = true)
    (kind : ProductKind) : ∀ c ∈ A.productContributions kind a b, c.OfNumbers := by
  intro c hc
  obtain ⟨left, hleft, right, hright, squares, hsquares, hterm⟩ :=
    exists_pair_of_mem_productContributions hc
  rw [Contribution.OfNumbers, hterm]
  refine List.forall_mem_append.2 ⟨fun f hf => ?_, ?_⟩
  · exact hmetric f (Metric.mem_of_factorsAt? hsquares hf)
  · exact List.forall_mem_cons.2 ⟨ha left hleft, List.forall_mem_singleton.2 (hb right hright)⟩

variable [Target σ K S V]

/-- The geometric product, the part of it that is kept, and another product, one after the other. -/
def besidePart (A : Algebra K S) (kind : ProductKind) (keep : Blade → Bool)
    (a b : Multivector K S) :
    Emission σ K (Multivector K S × Multivector K S × Multivector K S) := do
  let whole ← A.mul .geometric a b
  let part ← A.extract keep whole
  let product ← A.mul kind a b
  pure (whole, part, product)

/-- The coefficient of a product at a blade to which only numbers are added. -/
theorem mul_get? (ha : a.owner = A.id) (hb : b.owner = A.id) (kind : ProductKind) (t : σ) :
    (A.mul kind a b : Emission σ K (Multivector K S)).Gives t fun m _ => m.owner = A.id ∧
      ∀ l, (∀ c ∈ A.productContributions kind a b, c.blade = l → c.OfNumbers) →
        m.get? l = (Contribution.total? ((A.productContributions kind a b).filter
          fun c => c.blade == l)).map Factor.number := by
  refine .bind (check_gives ha (.bind (check_gives hb ?_)))
  refine .bind (.mono (P := fun _ _ => True) (.lift trivial) fun _ t₁ _ => ?_)
  refine .bind (.mono (build_get? A _ t₁) ?_)
  intro m t₂ ⟨howner, hget⟩
  exact .pure ⟨howner, hget⟩

/-- The coefficients of a product and of the geometric product agree where only numbers are added,
whatever the laws of these numbers are. -/
theorem besidePart_get? (hr : ∀ l ∈ a.blades, l.grade = r) (hs : ∀ l ∈ b.blades, l.grade = s)
    (ha : a.owner = A.id) (hb : b.owner = A.id) (t : σ) :
    (A.besidePart kind (fun l => kind.part r s l.grade) a b).Gives t fun (whole, _, product) _ =>
      ∀ l, (∀ c ∈ A.productContributions .geometric a b, c.blade = l → c.OfNumbers) →
        product.get? l = if kind.part r s l.grade then whole.get? l else none := by
  refine .bind (.mono (mul_get? ha hb .geometric t) ?_)
  intro whole t₁ ⟨howner, hwhole⟩
  have hextract : (A.extract (fun l => kind.part r s l.grade) whole :
      Emission σ K (Multivector K S)).Gives t₁ fun _ _ => True :=
    .bind (check_gives howner (.mono (build_get? A _ t₁) fun _ _ _ => trivial))
  refine .bind (.mono hextract ?_)
  intro part t₂ _
  refine .bind (.mono (mul_get? ha hb kind t₂) ?_)
  intro product t₃ ⟨_, hproduct⟩
  refine .pure fun l hl => ?_
  have hfilter : A.productContributions kind a b = (A.productContributions .geometric a b).filter
      fun c => kind.part r s c.blade.grade := productContributions_eq_filter hr hs
  rw [hfilter] at hproduct
  have hkept := hproduct l fun c hc => hl c (List.mem_filter.1 hc).1
  rw [hkept, hwhole l hl,
    Contribution.filter_filter_blade _ (fun l => kind.part r s l.grade) l]
  split <;> rfl

section Exact

variable [ExactNumber K] {M : Reading σ K S V} {t : σ} {q : Nat → K} {f g : Values K}

omit [Target σ K S V] in
/-- The coefficients of the product are those of the geometric product at the grades that are
kept. -/
theorem convolve_eq_kept (hA : M.Squares t A.metric q) (ha : M.Denotes A t a f)
    (hb : M.Denotes A t b g) (hr : ∀ l ∈ a.blades, l.grade = r)
    (hs : ∀ l ∈ b.blades, l.grade = s) :
    Values.convolve (kind.kernel q) f g =
      Values.kept (fun l => kind.part r s l.grade) (Values.convolve (Blade.twist q) f g) := by
  rw [← ProductKind.kernel_geometric, ← sum_productContributions hA ha hb kind,
    ← sum_productContributions hA ha hb .geometric, productContributions_eq_filter hr hs,
    Values.kept_sum, sum_map_filter, List.map_map]
  refine congrArg List.sum (List.map_congr_left fun c _ => ?_)
  rw [Function.comp_apply, Contribution.values, Values.kept_single]

theorem besidePart_agrees (hM : M.Sound) (hA : M.Ready A t q) (ha : M.Member A t a)
    (hb : M.Member A t b) (hr : ∀ l ∈ a.blades, l.grade = r)
    (hs : ∀ l ∈ b.blades, l.grade = s) :
    (A.besidePart kind (fun l => kind.part r s l.grade) a b).Gives t
      fun (whole, part, product) t' => M.Agree t' product part ∧
        ∀ l, M.value t' (product.value l) =
          if kind.part r s l.grade then M.value t' (whole.value l) else 0 := by
  have ha₀ := ha.denotes
  have hb₀ := hb.denotes
  refine .bind (.mono (geometric_gives hM hA ha₀ hb₀) ?_)
  intro whole t₁ ⟨hadv₁, hwhole⟩
  refine .bind (.mono (extract_gives hM hadv₁.ready hwhole _) ?_)
  intro part t₂ ⟨hadv₂, hpart, _⟩
  have hadv := hadv₁.trans hadv₂
  refine .bind (.mono (mul_gives hM (hA.advance hadv) (ha₀.mono hadv.symbols)
    (hb₀.mono hadv.symbols) kind) ?_)
  intro product t₃ ⟨hadv₃, hproduct, _⟩
  rw [convolve_eq_kept hA.squares ha₀ hb₀ hr hs] at hproduct
  refine .pure ⟨hproduct.agree (hpart.mono hadv₃.symbols), fun l => ?_⟩
  have hvalue := (hproduct.hasValue l).value_eq
  have hvalue' := ((hwhole.mono (hadv₂.trans hadv₃).symbols).hasValue l).value_eq
  rw [hvalue, hvalue']
  rfl

end Exact

/-- **The product of multivectors of a single grade each is a part of their geometric product**: the
part of grade `r + s` for the wedge product, of grade `s - r` or `r - s` for the contractions, of
grade `|r - s|` for the dot product, and the scalar part for the scalar product; a contraction by
too great a grade is zero. To the blades of that grade the same terms are added in the same order,
and nothing to the others. So where these are numbers the coefficients are the same, whatever the
laws of the numbers are; and with symbols, which may stand for anything, the values are the same. -/
theorem mul_eq_part (kind : ProductKind) (hr : ∀ l ∈ a.blades, l.grade = r)
    (hs : ∀ l ∈ b.blades, l.grade = s) (ha : a.owner = A.id) (hb : b.owner = A.id) :
    let keep : Blade → Bool := fun l => kind.part r s l.grade
    (A.productContributions kind a b =
      (A.productContributions .geometric a b).filter fun c => keep c.blade) ∧
    (∀ t : σ, (A.besidePart kind keep a b).Gives t fun (whole, _, product) _ =>
      ∀ l, (∀ c ∈ A.productContributions .geometric a b, c.blade = l → c.OfNumbers) →
        product.get? l = if keep l then whole.get? l else none) ∧
    ∀ [ExactNumber K] (M : Reading σ K S V) (t : σ), M.Sound → M.Open t [] →
      (∀ square ∈ A.metric, M.Known t square) → M.Member A t a → M.Member A t b →
      (A.besidePart kind keep a b).Gives t fun (whole, part, product) t' =>
        M.Agree t' product part ∧ ∀ l, M.value t' (product.value l) =
          if keep l then M.value t' (whole.value l) else 0 := by
  intro keep
  refine ⟨productContributions_eq_filter hr hs, fun t => besidePart_get? hr hs ha hb t, ?_⟩
  intro _ M t hM hopen hmetric hmember hmember'
  exact besidePart_agrees hM ⟨hopen, Reading.squares_spec hmetric⟩ hmember hmember' hr hs

/-- Vectors on a line of numbers, and vectors of a plane with a symbol. -/
theorem mul_eq_part_lines :
    (((line 5 {}).besidePart .dot (fun l => ProductKind.dot.part 1 1 l.grade)
      (.onLine 2) (.onLine 3) : Emission (NumericTarget ℚ) ℚ _).Gives NumericTarget.idle
        fun (whole, _, product) _ => ∀ l, product.get? l =
          if ProductKind.dot.part 1 1 l.grade then whole.get? l else none) ∧
    let s := Program.singleInput.2
    let M : Reading (Program ℚ) ℚ Handle Slot := Program.reading fun _ => some 5
    (inputPlane.besidePart .wedge (fun l => ProductKind.wedge.part 1 1 l.grade)
      (.vectorInInputPlane 3) (.vectorInInputPlane 4)).Gives s fun (whole, part, product) s' =>
        M.Agree s' product part ∧ ∀ l, M.value s' (product.value l) =
          if ProductKind.wedge.part 1 1 l.grade then M.value s' (whole.value l) else 0 := by
  constructor
  · have hgrade : ∀ x : ℚ, ∀ l ∈ (Multivector.onLine x).blades, l.grade = 1 :=
      fun x => List.forall_mem_singleton.2 (Blade.grade_vector (by decide))
    refine .mono ((mul_eq_part .dot (hgrade 2) (hgrade 3) rfl rfl).2.1 _) ?_
    intro (whole, _, product) _ hget l
    refine hget l fun c hc _ => ofNumbers_productContributions ?_ ?_ ?_ .geometric c hc
    all_goals exact List.forall_mem_singleton.2 rfl
  · intro s M
    have hgrade : ∀ x : ℚ, ∀ l ∈ (Multivector.vectorInInputPlane x).blades, l.grade = 1 := by
      intro x
      refine List.forall_mem_cons.2 ⟨Blade.grade_vector (by decide), ?_⟩
      exact List.forall_mem_singleton.2 (Blade.grade_vector (by decide))
    exact (mul_eq_part .wedge (hgrade 3) (hgrade 4) rfl rfl).2.2 M s Program.sound_reading
      (Program.orderly_singleInput _) (known_inputPlane _)
      (Multivector.denotes_vectorInInputPlane _ _).toMember
      (Multivector.denotes_vectorInInputPlane _ _).toMember

end Algebra

end Clifford
