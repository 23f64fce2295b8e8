import Clifford.Algebra
import Clifford.ProductTree

/-!
# Chains of sandwiches

Several operators act one after the other: `O₁ … Oₖ x Oₖ~ … O₁~`. The whole product is expanded
and collected in a product tree before anything is emitted, so that terms cancel across all
operators.

## Main definitions

- `Stage` — one factor of the expanded product
- `Algebra.expand` — adds the terms of the expanded product to a tree
- `Algebra.sandwichChain` — the chained sandwich of an operand
-/

namespace Clifford

/-- One factor of an expanded product. -/
structure Stage (K S : Type) where
  /-- The multivector. -/
  factor : Multivector K S
  /-- Whether its reverse is meant. -/
  reversed : Bool
  deriving DecidableEq, Repr

/-- The factors of a chained sandwich, from the left. -/
def Stage.ofChain {K S : Type} (operators : List (Multivector K S)) (x : Multivector K S) :
    List (Stage K S) :=
  (operators.map fun m => ⟨m, false⟩) ++ ⟨x, false⟩ ::
    (operators.reverse.map fun m => ⟨m, true⟩)

/-- Computations that drive a target while a draft grows. -/
abbrev Drafting (σ K V : Type) := StateT (Draft K V) (StateM σ)

namespace Algebra

variable {σ K S V : Type} [Number K] [Target σ K S V]

/-- The product of a path with one more symbol. -/
def extendPath (running : Factor K S) (s : S) : Drafting σ K V (Factor K S) :=
  StateT.lift (Target.combine .mul running (.symbol s))

/-- Adds a leaf to the draft: its coefficient times the product of its path. -/
def emitLeaf (A : Algebra K S) (running : Factor K S) (leaf : Leaf K) :
    Drafting σ K V Unit := fun draft => do
  let draft ← draft.add A.cellName
    { blade := leaf.blade, term := [.number leaf.coefficient, running] }
  pure ((), draft)

/-- The multivector of a tree of products. The products of symbols are computed along the paths,
each from the one before. -/
def emitTree (A : Algebra K S) (tree : ProductTree K S) : Emission σ K (Multivector K S) := do
  let (_, draft) ← ExceptT.lift
    ((tree.traverse extendPath A.emitLeaf (.number 1)).run ([] : Draft K V))
  A.finish draft

/-- Adds to a tree the terms of a product whose remaining factors are `stages`. The factors before
them have contributed `term`, of the blade `blade` and with `flips` transpositions. -/
def expand [Ord S] (A : Algebra K S) :
    (stages : List (Stage K S)) → (blade : Blade) → (flips : Nat) → (term : Term K S) →
      ProductTree K S → ProductTree K S
  | [], blade, flips, term, tree => tree.add blade term flips
  | stage :: rest, blade, flips, term, tree =>
    stage.factor.components.foldl (fun tree (b, value) =>
      match A.metric.factors? (blade &&& b) with
      | none => tree
      | some squares =>
        let own := if stage.reversed then b.reverseFlips else 0
        expand A rest (blade ^^^ b) (flips + blade.productFlips b + own)
          (term ++ squares ++ [value]) tree) tree

/-- The sandwich of an operand by several operators, the last of which acts first. -/
def sandwichChain [Ord S] (A : Algebra K S) (operators : List (Multivector K S))
    (x : Multivector K S) : Emission σ K (Multivector K S) := do
  operators.forM A.check
  A.check x
  A.annotate "sandwich chain"
  let tree := (A.expand (Stage.ofChain operators x) 0 0 [] {}).optimize
  let result ← A.emitTree tree
  if x.knownUnit && operators.all (·.knownUnit) then A.markUnit result else pure result

end Algebra

end Clifford
