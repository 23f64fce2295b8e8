import Clifford.Blade
import Clifford.Factor

/-!
# Trees of products

A sum of terms is collected before it is emitted, so that terms with the same symbols can cancel.
The terms are kept in a tree: the path from the root spells the sorted symbols of a term, and at
its end stands a leaf with the product of the numbers and the blade that the term contributes to.

## Main definitions

- `Leaf` — a coefficient for a blade
- `ProductTree` — the leaves and branches
- `ProductTree.add` — records a signed term
- `ProductTree.optimize` — adds up the leaves of each node blade by blade and drops what cancels
- `ProductTree.sums` — the coefficient of each path and blade
- `ProductTree.traverse` — visits the leaves in the order of their paths

## Design notes

The branches of a node form a list in ascending order of their symbols. Each entry holds the
leaves of the child, the branches below it, and the branches beside it, so one inductive type
serves for both directions.

The numbers of a term are sorted before they are multiplied, so equal products have equal
coefficients, whatever the order of their factors.
-/

namespace Clifford

/-- A coefficient for a blade. -/
structure Leaf (K : Type) where
  /-- The signed product of the numbers of a term. -/
  coefficient : K
  /-- The blade that the term contributes to. -/
  blade : Blade
  deriving DecidableEq, Repr

/-- The children of a node, by ascending symbol. -/
inductive Branches (K S : Type) where
  /-- No more children. -/
  | nil
  /-- The child with a symbol: its leaves and the branches below it; then the other children. -/
  | cons (symbol : S) (leaves : Array (Leaf K)) (below beside : Branches K S)
  deriving DecidableEq, Repr

/-- A sum of terms. -/
structure ProductTree (K S : Type) where
  /-- The leaves of the terms without symbols. -/
  leaves : Array (Leaf K) := #[]
  /-- The branches for the first symbol. -/
  branches : Branches K S := .nil
  /-- How many terms were recorded. -/
  contributions : Nat := 0
  deriving DecidableEq, Repr

namespace Leaf

variable {K : Type} [Number K]

/-- Adds a leaf to a list with at most one leaf for each blade. -/
def addTo (leaf : Leaf K) : List (Leaf K) → List (Leaf K)
  | [] => [leaf]
  | other :: rest =>
    if other.blade = leaf.blade then
      { other with coefficient := other.coefficient + leaf.coefficient } :: rest
    else other :: addTo leaf rest

/-- The leaves added up blade by blade, in the order in which the blades first occur, without
those that come to zero. -/
def merge (leaves : Array (Leaf K)) : Array (Leaf K) :=
  (leaves.foldl (fun merged leaf => leaf.addTo merged) []).toArray.filter fun leaf =>
    !Number.isZero leaf.coefficient

/-- Adds a coefficient to the sum of its blade, which starts at zero. -/
def accumulate (leaf : Leaf K) : List (Blade × K) → List (Blade × K)
  | [] => [(leaf.blade, 0 + leaf.coefficient)]
  | (blade, total) :: rest =>
    if blade = leaf.blade then (blade, total + leaf.coefficient) :: rest
    else (blade, total) :: accumulate leaf rest

/-- The sums of the coefficients of each blade, by ascending blade. -/
def totals (leaves : Array (Leaf K)) : List (Blade × K) :=
  (leaves.foldl (fun sums leaf => leaf.accumulate sums) []).mergeSort fun a b => a.1 ≤ b.1

end Leaf

namespace Branches

variable {K S : Type}

/-- Whether there are no branches. -/
def isEmpty : Branches K S → Bool
  | nil => true
  | cons _ _ _ _ => false

/-- A single path with a leaf at its end, before other branches. -/
def path (leaf : Leaf K) (symbol : S) : List S → Branches K S → Branches K S
  | [], beside => cons symbol #[leaf] nil beside
  | next :: rest, beside => cons symbol #[] (path leaf next rest nil) beside

/-- Adds a leaf at the end of a path that begins with `symbol`. -/
def insert [Ord S] (leaf : Leaf K) : S → List S → Branches K S → Branches K S
  | symbol, rest, nil => path leaf symbol rest nil
  | symbol, rest, cons other leaves below beside =>
    match compare symbol other with
    | .lt => path leaf symbol rest (cons other leaves below beside)
    | .gt => cons other leaves below (insert leaf symbol rest beside)
    | .eq =>
      match rest with
      | [] => cons other (leaves.push leaf) below beside
      | next :: rest => cons other leaves (insert leaf next rest below) beside

/-- Merges the leaves of every node and drops the nodes that are left without any. -/
def optimize [Number K] : Branches K S → Branches K S
  | nil => nil
  | cons symbol leaves below beside =>
    let leaves := Leaf.merge leaves
    let below := below.optimize
    if leaves.isEmpty && below.isEmpty then beside.optimize
    else cons symbol leaves below beside.optimize

/-- How many leaves there are. -/
def leafCount : Branches K S → Nat
  | nil => 0
  | cons _ leaves below beside => leaves.size + below.leafCount + beside.leafCount

/-- The sums of the coefficients for each path and blade, where the paths go on from `path`. -/
def sums [Number K] (path : List S) : Branches K S → List ((List S × Blade) × K)
  | nil => []
  | cons symbol leaves below beside =>
    let here := path ++ [symbol]
    (Leaf.totals leaves).map (fun (blade, total) => ((here, blade), total)) ++
      below.sums here ++ beside.sums path

/-- Visits every node with the product of the symbols on its path: its leaves first, then the
branches below it. -/
def traverse {m : Type → Type} [Monad m] {R : Type} (extend : R → S → m R)
    (visit : R → Leaf K → m Unit) (running : R) : Branches K S → m Unit
  | nil => pure ()
  | cons symbol leaves below beside => do
    let next ← extend running symbol
    leaves.toList.forM (visit next)
    below.traverse extend visit next
    beside.traverse extend visit running

end Branches

namespace ProductTree

variable {K S : Type}

/-- The leaf at the end of a path. -/
def insert [Ord S] (tree : ProductTree K S) (path : List S) (leaf : Leaf K) : ProductTree K S :=
  match path with
  | [] => { tree with leaves := tree.leaves.push leaf }
  | symbol :: rest => { tree with branches := tree.branches.insert leaf symbol rest }

/-- The signed product of the numbers of a term, multiplied up in their total order. -/
def coefficient [Number K] (term : Term K S) (flips : Nat) : K :=
  Number.productFrom (if isOdd flips then -1 else 1)
    ((term.filterMap Factor.number?).mergeSort Number.precedes)

/-- The symbols of a term, in ascending order. -/
def pathOf [Ord S] (term : Term K S) : List S :=
  (term.filterMap Factor.symbol?).mergeSort fun s t => (compare s t).isLE

/-- Records a term for a blade, negated if `flips` is odd. A term with a literal zero is
ignored. -/
def add [Number K] [Ord S] (tree : ProductTree K S) (blade : Blade) (term : Term K S)
    (flips : Nat) : ProductTree K S :=
  if term.hasZero then tree
  else
    { tree with contributions := tree.contributions + 1 }.insert (pathOf term)
      ⟨coefficient term flips, blade⟩

/-- Merges the leaves of every node and drops the nodes that are left without any. -/
def optimize [Number K] (tree : ProductTree K S) : ProductTree K S :=
  { tree with leaves := Leaf.merge tree.leaves, branches := tree.branches.optimize }

/-- How many leaves there are. -/
def leafCount (tree : ProductTree K S) : Nat := tree.leaves.size + tree.branches.leafCount

/-- Whether there are no leaves. -/
def isEmpty (tree : ProductTree K S) : Bool := tree.leafCount = 0

/-- The sums of the coefficients for each path and blade: by path in lexicographic order, then by
blade. -/
def sums [Number K] (tree : ProductTree K S) : List ((List S × Blade) × K) :=
  (Leaf.totals tree.leaves).map (fun (blade, total) => (([], blade), total)) ++
    tree.branches.sums []

/-- Visits every leaf with the product of the symbols on its path, which `extend` multiplies up
from `one`. The leaves of a node come before its branches, and these by ascending symbol. -/
def traverse {m : Type → Type} [Monad m] {R : Type} (extend : R → S → m R)
    (visit : R → Leaf K → m Unit) (one : R) (tree : ProductTree K S) : m Unit := do
  tree.leaves.toList.forM (visit one)
  tree.branches.traverse extend visit one

end ProductTree

end Clifford
