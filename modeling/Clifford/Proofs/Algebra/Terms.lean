import Clifford.Algebra.Chain
import Clifford.Algebra.Outermorphism
import Clifford.Algebra.Sandwich
import Clifford.Proofs.Algebra.Building
import Clifford.Proofs.ProductTree.Value

/-!
# Terms of operations

What operations emit is made of factors of their operands and of the metric, and of numbers. So if
these have values, every term that is emitted has one. Nothing is said here of what the values are.

## Main definitions

- `Reading.Proper` — a multivector of any algebra whose coefficients have values
- `Reading.KnownMatrix` — a matrix whose entries have values

## Main results

- `Metric.mem_of_factorsAt?` — the factors of a blade are entries of the metric
- `Algebra.knownTerm_productContributions`, `SparseMatrix.knownTerm_placements`, … — the terms of
  an operation have values
- `Algebra.forall_expand` — so have the symbols of the tree of a chain
-/

namespace Clifford

variable {σ K S V : Type}

/-- Every factor of a blade is an entry of the metric. -/
theorem Metric.mem_of_factorsAt? [Number K] {metric : Metric K S} {positions : List Nat}
    {squares : Term K S} (h : metric.factorsAt? positions = some squares) {f : Factor K S}
    (hf : f ∈ squares) : f ∈ metric := by
  induction positions generalizing squares with
  | nil =>
    obtain rfl : [] = squares := Option.some.inj h
    cases hf
  | cons i rest ih =>
    rw [factorsAt?] at h
    split at h
    · exact ih h hf
    · rename_i square hsquare
      split at h
      · cases h
      split at h
      · exact ih h hf
      · obtain ⟨others, hothers, rfl⟩ := Option.map_eq_some_iff.1 h
        rcases List.mem_cons.1 hf with rfl | hf
        · exact List.mem_of_getElem? hsquare
        · exact ih hothers hf

namespace Reading

/-- A multivector of any algebra: its blades are listed once, and its coefficients have values. -/
structure Proper (M : Reading σ K S V) (s : σ) (m : Multivector K S) : Prop where
  /-- No blade is listed twice. -/
  nodup : m.blades.Nodup
  /-- Every coefficient has a value. -/
  known : ∀ c ∈ m.components, M.Known s c.2

variable {M : Reading σ K S V} {A : Algebra K S} {s s' : σ} {m a b : Multivector K S}

theorem Member.proper (h : M.Member A s m) : M.Proper s m := ⟨h.nodup, h.known⟩

namespace Proper

theorem member (h : M.Proper s m) (howner : m.owner = A.id) : M.Member A s m :=
  ⟨howner, h.nodup, h.known⟩

theorem mono (h : M.Proper s m) (hext : M.Extends s s') : M.Proper s' m :=
  ⟨h.nodup, fun c hc => hext.known (h.known c hc)⟩

theorem withKnownUnit (h : M.Proper s m) (knownUnit : Bool) :
    M.Proper s (m.withKnownUnit knownUnit) :=
  ⟨h.nodup, h.known⟩

theorem denotes [Number K] (h : M.Proper s m) (howner : m.owner = A.id) :
    M.Denotes A s m (M.values s m) :=
  (h.member howner).denotes

theorem known_value [Number K] (h : M.Proper s m) (b : Blade) : M.Known s (m.value b) := by
  rw [Multivector.value, Multivector.get?]
  cases hlookup : m.components.lookup b with
  | none => exact known_number _
  | some value => exact h.known _ (mem_of_lookup hlookup)

theorem knownTerm_signed (h : M.Proper s m) (flip : Blade → Bool) :
    ∀ c ∈ m.signed flip, M.KnownTerm s c.term := by
  intro c hc
  obtain ⟨component, hcomponent, rfl⟩ := List.mem_map.1 hc
  exact .cons (h.known component hcomponent) .nil

theorem knownTerm_resigned (h : M.Proper s m) {x : Factor K S} (hx : M.Known s x)
    (flip : Blade → Bool) :
    ∀ c ∈ m.components.map fun (b, value) =>
      ({ blade := b, term := [x, value], negate := flip b } : Contribution K S),
      M.KnownTerm s c.term := by
  intro c hc
  obtain ⟨component, hcomponent, rfl⟩ := List.mem_map.1 hc
  exact .cons hx (.cons (h.known component hcomponent) .nil)

theorem knownTerm_scaled (h : M.Proper s m) {x : Factor K S} (hx : M.Known s x) :
    ∀ c ∈ m.scaled x, M.KnownTerm s c.term :=
  h.knownTerm_resigned hx fun _ => false

end Proper

theorem Member.withKnownUnit (h : M.Member A s m) (knownUnit : Bool) :
    M.Member A s (m.withKnownUnit knownUnit) :=
  ⟨h.owner, h.nodup, h.known⟩

variable [Number K] {metric : Metric K S} {q : Nat → K}

theorem Squares.known (h : M.Squares s metric q) {f : Factor K S} (hf : f ∈ metric) :
    M.Known s f := by
  obtain ⟨i, hi⟩ := List.mem_iff_getElem?.1 hf
  have hsquare := h i
  rw [hi] at hsquare
  exact hsquare.1

/-- The factors of a blade have values if the entries of the metric have. -/
theorem knownTerm_factors? (h : ∀ square ∈ metric, M.Known s square) {b : Blade}
    {squares : Term K S} (hb : metric.factors? b = some squares) : M.KnownTerm s squares :=
  fun _ hf => h _ (Metric.mem_of_factorsAt? hb hf)

theorem Squares.knownTerm_factors? (h : M.Squares s metric q) {b : Blade} {squares : Term K S}
    (hb : metric.factors? b = some squares) : M.KnownTerm s squares :=
  Reading.knownTerm_factors? (fun _ hf => h.known hf) hb

end Reading

variable [Number K] {M : Reading σ K S V} {A : Algebra K S} {s : σ} {q : Nat → K}
  {m a b : Multivector K S}

namespace Algebra

/-! ### Norms and products -/

theorem knownTerm_normTerms (hA : M.Squares s A.metric q) (hm : M.Proper s m) :
    ∀ t ∈ A.normTerms m, M.KnownTerm s t.1 := by
  intro t ht
  obtain ⟨c, hc, hterm⟩ := List.mem_filterMap.1 ht
  obtain ⟨squares, hsquares, rfl⟩ := Option.map_eq_some_iff.1 hterm
  have hvalue := hm.known c hc
  exact (hA.knownTerm_factors? hsquares).append (.cons hvalue (.cons hvalue .nil))

/-- A product multiplies the coefficients of a pair of components by the squares of the vectors that
the two have in common. -/
theorem exists_pair_of_mem_productContributions {kind : ProductKind} {c : Contribution K S}
    (hc : c ∈ A.productContributions kind a b) :
    ∃ left ∈ a.components, ∃ right ∈ b.components, ∃ squares,
      A.metric.factors? (left.1 &&& right.1) = some squares ∧
        c.term = squares ++ [left.2, right.2] := by
  obtain ⟨left, hleft, hc⟩ := List.mem_flatMap.1 hc
  obtain ⟨right, hright, hc⟩ := List.mem_filterMap.1 hc
  split at hc
  · obtain ⟨squares, hsquares, rfl⟩ := Option.map_eq_some_iff.1 hc
    exact ⟨left, hleft, right, hright, squares, hsquares, rfl⟩
  · cases hc

theorem knownTerm_productContributions (hA : M.Squares s A.metric q) (kind : ProductKind)
    (ha : M.Proper s a) (hb : M.Proper s b) :
    ∀ c ∈ A.productContributions kind a b, M.KnownTerm s c.term := by
  intro c hc
  obtain ⟨left, hleft, right, hright, squares, hsquares, hterm⟩ :=
    exists_pair_of_mem_productContributions hc
  rw [hterm]
  exact (hA.knownTerm_factors? hsquares).append
    (.cons (ha.known left hleft) (.cons (hb.known right hright) .nil))

/-- The terms of the scalar product, where the components of the two operands meet. -/
theorem knownTerm_scalarProduct (hA : M.Squares s A.metric q) (ha : M.Proper s a)
    (hb : M.Proper s b) :
    ∀ t ∈ a.components.filterMap fun (blade, left) => do
      let right ← b.get? blade
      let squares ← A.metric.factors? blade
      pure (squares ++ [left, right], isOdd blade.reverseFlips), M.KnownTerm s t.1 := by
  intro t ht
  obtain ⟨⟨blade, left⟩, hleft, hterm⟩ := List.mem_filterMap.1 ht
  obtain ⟨right, hright, hterm⟩ := Option.bind_eq_some_iff.1 hterm
  obtain ⟨squares, hsquares, hterm⟩ := Option.bind_eq_some_iff.1 hterm
  obtain rfl := Option.some.inj hterm
  exact (hA.knownTerm_factors? hsquares).append
    (.cons (ha.known _ hleft) (.cons (hb.known _ (mem_of_lookup hright)) .nil))

end Algebra

/-! ### Outermorphisms -/

/-- The entries that are present have values. -/
def Reading.KnownMatrix (M : Reading σ K S V) (s : σ) (matrix : SparseMatrix K S) : Prop :=
  ∀ row ∈ matrix, ∀ f, some f ∈ row → M.Known s f

theorem SparseMatrix.knownTerm_placements {matrix : SparseMatrix K S}
    (h : M.KnownMatrix s matrix) {value : Factor K S} (hvalue : M.Known s value)
    (positions : List Nat) (image : Blade) (flips : Nat) {term : Term K S}
    (hterm : M.KnownTerm s term) :
    ∀ c ∈ matrix.placements value positions image flips term, M.KnownTerm s c.term := by
  induction positions generalizing image flips term with
  | nil =>
    rw [placements]
    exact List.forall_mem_singleton.2 (hterm.append (.cons hvalue .nil))
  | cons i rest ih =>
    intro c hc
    obtain ⟨⟨row, j⟩, hrow, hc⟩ := List.mem_flatMap.1 hc
    dsimp only at hc
    split at hc
    · cases hc
    split at hc
    · cases hc
    · rename_i f hentry
      refine ih _ _ (hterm.append (.cons ?_ .nil)) c hc
      unfold entry? at hentry
      split at hentry
      · rename_i g hg
        split at hentry
        · cases hentry
        · obtain rfl := Option.some.inj hentry
          exact h row (List.fst_mem_of_mem_zipIdx hrow) g (List.mem_of_getElem? hg)
      · cases hentry

/-! ### Chains -/

/-- The symbols of an expanded product have values if its factors and the metric have. -/
theorem Algebra.forall_expand [Ord S] (hA : M.Squares s A.metric q) {stages : List (Stage K S)}
    (hstages : ∀ stage ∈ stages, M.Proper s stage.factor) (blade : Blade) (flips : Nat)
    {term : Term K S} (hterm : M.KnownTerm s term) {tree : ProductTree K S}
    (htree : tree.Forall fun t => M.Known s (.symbol t)) :
    (A.expand stages blade flips term tree).Forall fun t => M.Known s (.symbol t) := by
  induction stages generalizing blade flips term tree with
  | nil => exact ProductTree.forall_add htree blade (fun t ht => hterm _ ht) flips
  | cons stage rest ih =>
    have hrest : ∀ stage ∈ rest, M.Proper s stage.factor :=
      fun stage hstage => hstages stage (List.mem_cons_of_mem _ hstage)
    rw [expand]
    refine List.foldlRecOn _ _ htree fun tree htree c hc => ?_
    dsimp only
    split
    · exact htree
    · rename_i squares hfactors
      have hc' : M.Known s c.2 := (hstages stage List.mem_cons_self).known c hc
      have hsquares : M.KnownTerm s squares := hA.knownTerm_factors? hfactors
      exact ih hrest _ _ ((hterm.append hsquares).append (.cons hc' .nil)) htree

end Clifford
