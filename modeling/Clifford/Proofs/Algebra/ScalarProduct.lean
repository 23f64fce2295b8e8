import Clifford.Proofs.Algebra.Norm
import Clifford.Proofs.Target.Protocol
import Clifford.Proofs.Values.Exterior
import Clifford.Target.Journal

/-!
# The scalar product as a product of multivectors

The product that keeps what leaves a scalar keeps the pairs of equal blades, and multiplying a blade
with itself costs the transpositions of reversing it. So the pairs that it keeps are those that the
scalar product looks up, in the same order, with the same terms and signs. All of them are added to
the scalar of a multivector, which takes them as a bare scalar does. No law of numbers is needed for
this: both are the same computation on every target.

## Main results

- `ProductKind.includes_scalar` — the product keeps the pairs of equal blades
- `Algebra.productContributions_scalar` — it contributes the terms of the scalar product
- `Algebra.value_build_same` — a multivector with a single blade is built as a scalar is
- `Algebra.scalarProduct_eq_mul` — both products are the same computation
-/

namespace Clifford

variable {σ K S V : Type} [Number K]

/-- The product that leaves scalars keeps the pairs of equal blades. -/
theorem ProductKind.includes_scalar {a b : Blade} : scalar.includes a b = true ↔ a = b := by
  show decide ((a ^^^ b).grade = 0) = true ↔ a = b
  rw [decide_eq_true_eq, Blade.grade_eq_zero]
  exact BitVec.xor_eq_zero_iff

/-- Picking the entries of a blade that is listed once is looking it up. -/
theorem filterMap_lookup {α β : Type} {l : List (Blade × α)} (hnodup : (l.map Prod.fst).Nodup)
    (b : Blade) (φ : α → Option β) :
    l.filterMap (fun c => if b = c.1 then φ c.2 else none) = ((l.lookup b).bind φ).toList := by
  induction l with
  | nil => rfl
  | cons c rest ih =>
    obtain ⟨key, x⟩ := c
    rw [List.map_cons, List.nodup_cons] at hnodup
    have hrest := ih hnodup.2
    by_cases hb : b = key
    · subst hb
      rw [lookup_eq_none_of_notMem hnodup.1] at hrest
      rw [List.lookup_cons_self, Option.bind_some]
      cases hφ : φ x with
      | none => simp [hφ, hrest]
      | some y => simp [hφ, hrest]
    · have hkey : (b == key) = false := by simpa using hb
      simp [List.lookup_cons, hb, hkey, hrest]

/-! ### One blade -/

/-- A contribution to a given blade. -/
def Contribution.to (b : Blade) (t : Term K S × Bool) : Contribution K S :=
  { blade := b, term := t.1, negate := t.2 }

section Targets

variable [Target σ K S V]

/-- Contributions to the only blade of a draft are added to its cell. -/
theorem Draft.addAll_same (nameOf : Blade → String) (b : Blade) (cell : Cell K V)
    (terms : List (Term K S × Bool)) :
    (addAll nameOf [(b, cell)] (terms.map (Contribution.to b)) : StateM σ (Draft K V)) = (do
      let cell ← terms.foldlM (fun cell t => cell.add t.1 t.2) cell
      pure [(b, cell)]) := by
  induction terms generalizing cell with
  | nil => rfl
  | cons t rest ih =>
    have hadd : (add nameOf (.to b t) [(b, cell)] : StateM σ (Draft K V)) = (do
        let cell ← cell.add t.1 t.2
        pure [(b, cell)]) := if_pos rfl
    simp only [addAll] at ih
    simp only [addAll, List.map_cons, List.foldlM_cons, hadd, bind_assoc, pure_bind, ih]

/-- **A multivector to which a single blade contributes is built as a scalar is.** -/
theorem Algebra.value_build_same (A : Algebra K S) (b : Blade) (terms : List (Term K S × Bool)) :
    (do
      let m ← A.build (terms.map (.to b))
      pure (m.value b) : Emission σ K (Factor K S)) = sum (A.cellName b) terms := by
  have hbuild : (do
      let m ← A.build (terms.map (.to b))
      pure (m.value b) : Emission σ K (Factor K S)) = ExceptT.lift (do
        let draft ← Draft.addAll A.cellName [] (terms.map (.to b))
        let components ← draft.close
        pure (Multivector.value { owner := A.id, components } b)) := rfl
  rw [hbuild, sum]
  congr 1
  cases terms with
  | nil => rfl
  | cons t rest =>
    have hfirst : (Draft.add A.cellName (.to b t) [] : StateM σ (Draft K V)) = (do
        let cell ← Cell.add (.empty (A.cellName b)) t.1 t.2
        pure [(b, cell)]) := rfl
    have hrest := fun cell => Draft.addAll_same (σ := σ) A.cellName b cell rest
    simp only [Draft.addAll] at hrest
    have hvalue : ∀ f : Factor K S,
        Multivector.value { owner := A.id, components := [(b, f)] } b = f := by
      intro f
      simp [Multivector.value, Multivector.get?]
    simp only [Draft.addAll, List.map_cons, List.foldlM_cons, hfirst, bind_assoc, pure_bind, hrest,
      Draft.close, List.mapM_cons, List.mapM_nil, hvalue, Cell.sum]
    simp

end Targets

/-! ### Both products -/

namespace Algebra

variable {A : Algebra K S} {a b : Multivector K S}

/-- A blade times itself contributes the term of the scalar product to the scalar. -/
theorem pairContribution?_same (A : Algebra K S) (c : Blade) (left right : Factor K S) :
    A.pairContribution? (c, left) (c, right) =
      ((A.metric.factors? c).map fun squares =>
        (squares ++ [left, right], isOdd c.reverseFlips)).map (Contribution.to 0) := by
  have hand : c &&& c = c := BitVec.and_self
  have hxor : c ^^^ c = 0 := BitVec.xor_self
  rw [pairContribution?, hand, hxor, Option.map_map, Blade.reverseFlips_eq_productFlips]
  rfl

/-- **The product that leaves scalars contributes the terms of the scalar product**, in the same
order. -/
theorem productContributions_scalar (A : Algebra K S) (a : Multivector K S)
    (hb : b.blades.Nodup) :
    A.productContributions .scalar a b =
      (a.components.filterMap (A.scalarTerm? b)).map (.to 0) := by
  rw [productContributions, List.map_filterMap, List.filterMap_eq_flatMap_toList]
  refine List.flatMap_congr fun left _ => ?_
  have hpick : ∀ right : Blade × Factor K S,
      (if ProductKind.scalar.includes left.1 right.1 then A.pairContribution? left right
        else none) =
      if left.1 = right.1 then A.pairContribution? left (left.1, right.2) else none := by
    intro right
    by_cases hsame : left.1 = right.1
    · rw [if_pos (ProductKind.includes_scalar.2 hsame), if_pos hsame, hsame]
    · rw [if_neg (mt ProductKind.includes_scalar.1 hsame), if_neg hsame]
  rw [List.filterMap_congr fun right _ => hpick right,
    filterMap_lookup hb left.1 fun right => A.pairContribution? left (left.1, right)]
  congr 1
  rw [scalarTerm?, Multivector.get?]
  cases b.components.lookup left.1 with
  | none => rfl
  | some right =>
    show A.pairContribution? (left.1, left.2) (left.1, right) = _
    rw [pairContribution?_same]
    cases A.metric.factors? left.1 <;> rfl

variable [Target σ K S V]

/-- **The scalar product is the scalar of the product of multivectors that leaves scalars**, as a
computation: on every target, and from every state, both make the same calls, with the same terms,
signs, names and remarks, and return the same factor or fail in the same way. They succeed for all
multivectors of the algebra. The first operand may even list a blade twice; the numbers need not
obey any law. -/
theorem scalarProduct_eq_mul (A : Algebra K S) (a : Multivector K S) (hb : b.blades.Nodup) :
    (A.scalarProduct a b : Emission σ K (Factor K S)) = (do
      let product ← A.mul .scalar a b
      pure (product.value 0)) ∧
    (a.owner = A.id → b.owner = A.id → ∀ s : σ,
      (A.scalarProduct a b : Emission σ K (Factor K S)).Gives s fun _ _ => True) := by
  constructor
  · have hsum : (A.scalarProduct a b : Emission σ K (Factor K S)) = (do
        A.check a
        A.check b
        A.annotate "scalar product"
        sum (A.cellName 0) (a.components.filterMap (A.scalarTerm? b))) := rfl
    have hmul : (do
        let product ← A.mul .scalar a b
        pure (product.value 0) : Emission σ K (Factor K S)) = (do
        A.check a
        A.check b
        A.annotate "scalar product"
        let product ← A.build (A.productContributions .scalar a b)
        pure (product.value 0)) := by
      simp only [mul, bind_assoc, pure_bind]
      rfl
    rw [hsum, hmul, productContributions_scalar A a hb, value_build_same]
  · intro ha hb' s
    refine .bind (check_gives ha (.bind (check_gives hb' ?_)))
    exact .bind (.lift (.lift trivial))

/-- The plane whose first vector squares to a symbol, and whose second one is null, where operations
announce themselves. -/
def namedPlane : Algebra ℚ String where
  id := 0
  metric := [.symbol "q", .number 0]
  names := #["1", "e1", "e2", "e12"]
  settings := { comments := true }
  dimension_le := by decide
  size_names := by decide

/-- Two multivectors with different components in different orders, on the target that writes down
every call. -/
theorem scalarProduct_eq_mul_namedPlane :
    let a : Multivector ℚ String :=
      { owner := 0, components := [(.vector 0, .symbol "x"), (0, .number 2), (3, .number (-1))] }
    let b : Multivector ℚ String :=
      { owner := 0, components := [(0, .number 3), (.vector 1, .symbol "y"),
          (.vector 0, .symbol "z")] }
    (namedPlane.scalarProduct a b : Emission (Journal ℚ) ℚ (Factor ℚ String)) = (do
      let product ← namedPlane.mul .scalar a b
      pure (product.value 0)) ∧
    (namedPlane.scalarProduct a b : Emission (Journal ℚ) ℚ (Factor ℚ String)).Gives {}
      fun _ _ => True := by
  intro a b
  have hb : b.blades.Nodup := by
    change ([0, .vector 1, .vector 0] : List Blade).Nodup
    decide
  obtain ⟨hsame, hgives⟩ := scalarProduct_eq_mul (σ := Journal ℚ) namedPlane a hb
  exact ⟨hsame, hgives rfl rfl {}⟩

end Algebra

end Clifford
