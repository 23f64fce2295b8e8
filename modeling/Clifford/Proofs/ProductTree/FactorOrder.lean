import Clifford.Proofs.Expression.Arena
import Clifford.Proofs.Number.Double
import Clifford.Proofs.ProductTree.Nodes
import Clifford.Proofs.ProductTree.Sums

/-!
# The order of factors

A term is recorded under its symbols in their order, with the product of its numbers in theirs. So
it does not matter in which order the factors of a term come: the tree is the same, down to the bits
of the coefficients, although the product of several numbers depends on their order. And if the term
is recorded once more with the opposite sign, the two coefficients differ in the sign alone. Their
sum is zero, so optimizing leaves no trace of them.

## Main definitions

- `ProductTree.Vacant` — no leaf at the end of a path has the blade

## Main results

- `ProductTree.add_eq_of_perm` — the order of factors does not matter
- `ProductTree.coefficient_neg` — opposite signs give opposite coefficients
- `ProductTree.optimize_insert_insert`, `ProductTree.optimize_add_add` — leaves and terms that
  cancel are optimized away
- `ProductTree.add_perm_cancels` — what this means for floating-point numbers
-/

namespace Clifford

variable {K S : Type} [Number K]

/-! ### Terms -/

/-- Coefficients that are sorted in the same way were the same coefficients. -/
theorem Number.mergeSort_eq_of_perm [SignedNumber K] {xs ys : List K} (h : xs.Perm ys) :
    xs.mergeSort Number.precedes = ys.mergeSort Number.precedes := by
  have hsorted : ∀ zs : List K,
      (zs.mergeSort Number.precedes).Pairwise fun x y => Number.precedes x y = true := by
    intro zs
    refine List.pairwise_mergeSort (fun x y z hxy hyz => ?_) (fun x y => ?_) zs
    · exact SignedNumber.precedes_trans hxy hyz
    · exact Bool.or_eq_true_iff.2 (SignedNumber.precedes_total x y)
  refine List.Perm.eq_of_pairwise (fun x y _ _ hxy hyx => ?_) (hsorted xs) (hsorted ys) ?_
  · exact SignedNumber.precedes_antisymm hxy hyx
  · exact (List.mergeSort_perm xs _).trans (h.trans (List.mergeSort_perm ys _).symm)

/-- The sign of the first factor is the sign of the product. -/
theorem Number.productFrom_neg [SignedNumber K] (start : K) (xs : List K) :
    productFrom (-start) xs = -productFrom start xs := by
  induction xs generalizing start with
  | nil => rfl
  | cons x rest ih =>
    rw [productFrom, List.foldl_cons, SignedNumber.neg_mul]
    exact ih (start * x)

namespace ProductTree

variable {tree : ProductTree K S} {term term' : Term K S} {flips flips' : Nat}

theorem hasZero_eq_of_perm (h : term.Perm term') : term.hasZero = term'.hasZero := by
  rw [Bool.eq_iff_iff, Term.hasZero, Term.hasZero, List.any_eq_true, List.any_eq_true]
  simp only [h.mem_iff]

omit [Number K] in
theorem pathOf_eq_of_perm [Ord S] [Std.TransOrd S] [Std.LawfulEqOrd S] (h : term.Perm term') :
    pathOf term = pathOf term' := by
  obtain ⟨hperm, hascending⟩ := pathOf_eq_iff.1 (rfl : pathOf term' = pathOf term')
  exact pathOf_eq_iff.2 ⟨(h.filterMap Factor.symbol?).trans hperm, hascending⟩

variable [SignedNumber K]

theorem coefficient_eq_of_perm (h : term.Perm term') (hflips : isOdd flips = isOdd flips') :
    coefficient term flips = coefficient term' flips' := by
  rw [coefficient, coefficient, hflips,
    Number.mergeSort_eq_of_perm (h.filterMap Factor.number?)]

/-- **Opposite signs give opposite coefficients**, whatever the order of the factors is. -/
theorem coefficient_neg (h : term.Perm term') (hflips : isOdd flips ≠ isOdd flips') :
    coefficient term' flips' = -coefficient term flips := by
  rw [coefficient, coefficient, Number.mergeSort_eq_of_perm (h.filterMap Factor.number?),
    ← Number.productFrom_neg]
  cases hodd : isOdd flips <;> cases hodd' : isOdd flips' <;> simp_all [SignedNumber.neg_neg]

/-- **The order of factors does not matter**, and neither does the number of transpositions apart
from its parity. -/
theorem add_eq_of_perm [Ord S] [Std.TransOrd S] [Std.LawfulEqOrd S] (tree : ProductTree K S)
    (blade : Blade) (h : term.Perm term') (hflips : isOdd flips = isOdd flips') :
    tree.add blade term flips = tree.add blade term' flips' := by
  rw [add, add, hasZero_eq_of_perm h, pathOf_eq_of_perm h, coefficient_eq_of_perm h hflips]

end ProductTree

/-! ### Leaves that cancel -/

namespace Leaf

variable {leaf leaf' : Leaf K}

/-- A leaf is added to the last one if that has its blade and no other has. -/
theorem addTo_append_singleton (hblade : leaf'.blade = leaf.blade) {front : List (Leaf K)}
    (hnew : leaf.blade ∉ blades front) :
    leaf'.addTo (front ++ [leaf]) =
      front ++ [{ leaf with coefficient := leaf.coefficient + leaf'.coefficient }] := by
  induction front with
  | nil => simp [addTo, hblade]
  | cons other rest ih =>
    rw [blades_cons, List.mem_cons, not_or] at hnew
    rw [List.cons_append, addTo, if_neg (hblade ▸ Ne.symm hnew.1), ih hnew.2, List.cons_append]

/-- Two leaves for a blade that has no other leaf are dropped if they add up to zero. -/
theorem merge_push_push (hblade : leaf'.blade = leaf.blade) {leaves : Array (Leaf K)}
    (hvacant : leaf.blade ∉ blades leaves.toList)
    (hzero : Number.isZero (leaf.coefficient + leaf'.coefficient) = true) :
    merge ((leaves.push leaf).push leaf') = merge leaves := by
  have hnew : leaf.blade ∉
      blades (leaves.toList.foldl (fun merged leaf => leaf.addTo merged) []) :=
    fun hmem => (mem_blades_foldl_addTo hmem).elim hvacant List.not_mem_nil
  have hsum : (leaves.toList ++ [leaf, leaf']).foldl (fun merged leaf => leaf.addTo merged) [] =
      leaves.toList.foldl (fun merged leaf => leaf.addTo merged) [] ++
        [{ leaf with coefficient := leaf.coefficient + leaf'.coefficient }] := by
    rw [List.foldl_append, List.foldl_cons, addTo_of_notMem hnew, List.foldl_cons,
      addTo_append_singleton hblade hnew, List.foldl_nil]
  have hlist : ((leaves.push leaf).push leaf').toList = leaves.toList ++ [leaf, leaf'] := by simp
  apply Array.toList_inj.1
  rw [merge, merge, Array.toList_filter, Array.toList_filter, ← Array.foldl_toList,
    ← Array.foldl_toList, hlist, hsum]
  simp [hzero]

end Leaf

namespace Branches

variable {leaf leaf' : Leaf K}

section

variable [Ord S] {symbol other next : S} {rest : List S} {leaves : Array (Leaf K)}
  {below beside : Branches K S}

omit [Number K]

theorem insert_of_lt (h : compare symbol other = .lt) :
    insert leaf symbol rest (cons other leaves below beside) =
      path leaf symbol rest (cons other leaves below beside) := by
  rw [insert.eq_def]
  simp only [h]

theorem insert_of_gt (h : compare symbol other = .gt) :
    insert leaf symbol rest (cons other leaves below beside) =
      cons other leaves below (insert leaf symbol rest beside) := by
  rw [insert.eq_def]
  simp only [h]

variable [Std.ReflOrd S]

theorem insert_self_nil :
    insert leaf symbol [] (cons symbol leaves below beside) =
      cons symbol (leaves.push leaf) below beside := by
  rw [insert.eq_def]
  simp only [Std.ReflOrd.compare_self]

theorem insert_self_cons :
    insert leaf symbol (next :: rest) (cons symbol leaves below beside) =
      cons symbol leaves (insert leaf next rest below) beside := by
  rw [insert.eq_def]
  simp only [Std.ReflOrd.compare_self]

end

/-- A path on its own is dropped if the two leaves at its end cancel. -/
theorem optimize_insert_path [Ord S] [Std.ReflOrd S] (hblade : leaf'.blade = leaf.blade)
    (hzero : Number.isZero (leaf.coefficient + leaf'.coefficient) = true) (symbol : S)
    (rest : List S) (beside : Branches K S) :
    (insert leaf' symbol rest (path leaf symbol rest beside)).optimize = beside.optimize := by
  induction rest generalizing symbol beside with
  | nil =>
    have hempty : leaf.blade ∉ Leaf.blades (#[] : Array (Leaf K)).toList := List.not_mem_nil
    have hmerge : Leaf.merge (#[leaf].push leaf') = #[] :=
      Leaf.merge_push_push hblade hempty hzero
    rw [path, insert_self_nil, optimize, hmerge]
    rfl
  | cons next rest ih =>
    rw [path, insert_self_cons, optimize, ih]
    rfl

/-- **Leaves that cancel are optimized away**, with the nodes that were made for them. -/
theorem optimize_insert_insert [Ord S] [Std.LawfulEqOrd S] (hblade : leaf'.blade = leaf.blade)
    (hzero : Number.isZero (leaf.coefficient + leaf'.coefficient) = true) {before : List S}
    {symbol : S} {rest : List S} {branches : Branches K S}
    (hvacant : ∀ node ∈ branches.nodes before, node.1 = before ++ symbol :: rest →
      leaf.blade ∉ Leaf.blades node.2) :
    (insert leaf' symbol rest (insert leaf symbol rest branches)).optimize =
      branches.optimize := by
  induction branches generalizing before symbol rest with
  | nil => exact optimize_insert_path hblade hzero symbol rest nil
  | cons other leaves below beside ihbelow ihbeside =>
    cases horder : compare symbol other with
    | lt =>
      rw [insert_of_lt horder]
      exact optimize_insert_path hblade hzero symbol rest _
    | gt =>
      have hbeside := ihbeside fun node hnode =>
        hvacant node (List.mem_cons_of_mem _ (List.mem_append_right _ hnode))
      rw [insert_of_gt horder, insert_of_gt horder, optimize, hbeside, optimize]
    | eq =>
      -- The path ends at this branch, where the leaves meet, or both of them go below it.
      obtain rfl : symbol = other := Std.LawfulEqOrd.eq_of_compare horder
      cases rest with
      | nil =>
        have hhere : leaf.blade ∉ Leaf.blades leaves.toList :=
          hvacant _ List.mem_cons_self rfl
        rw [insert_self_nil, insert_self_nil, optimize,
          Leaf.merge_push_push hblade hhere hzero, optimize]
      | cons next rest =>
        have hbelow : (insert leaf' next rest (insert leaf next rest below)).optimize =
            below.optimize := by
          refine @ihbelow (before ++ [symbol]) next rest fun node hnode hpath => ?_
          rw [List.append_assoc, List.singleton_append] at hpath
          exact hvacant node (List.mem_cons_of_mem _ (List.mem_append_left _ hnode)) hpath
        rw [insert_self_cons, insert_self_cons, optimize, hbelow, optimize]

/-- Optimizing keeps the paths of nodes, and adds no leaf for another blade. -/
theorem mem_nodes_optimize {path : List S} {branches : Branches K S}
    {node : List S × List (Leaf K)} (h : node ∈ branches.optimize.nodes path) :
    ∃ source ∈ branches.nodes path, source.1 = node.1 ∧
      Leaf.blades node.2 ⊆ Leaf.blades source.2 := by
  induction branches generalizing path with
  | nil => cases h
  | cons symbol leaves below beside ihbelow ihbeside =>
    have hbeside : node ∈ beside.optimize.nodes path →
        ∃ source ∈ (cons symbol leaves below beside).nodes path, source.1 = node.1 ∧
          Leaf.blades node.2 ⊆ Leaf.blades source.2 := by
      intro hnode
      obtain ⟨source, hsource, hsame⟩ := ihbeside hnode
      exact ⟨source, List.mem_cons_of_mem _ (List.mem_append_right _ hsource), hsame⟩
    rw [optimize] at h
    split at h
    · exact hbeside h
    · rw [nodes, List.mem_cons, List.mem_append] at h
      obtain rfl | h | h := h
      · exact ⟨_, List.mem_cons_self, rfl, fun _ => Leaf.mem_blades_merge⟩
      · obtain ⟨source, hsource, hsame⟩ := ihbelow h
        exact ⟨source, List.mem_cons_of_mem _ (List.mem_append_left _ hsource), hsame⟩
      · exact hbeside h

end Branches

namespace ProductTree

variable {tree : ProductTree K S} {path : List S} {leaf leaf' : Leaf K} {blade : Blade}

/-- No leaf at the end of a path has the blade. -/
def Vacant (tree : ProductTree K S) (path : List S) (blade : Blade) : Prop :=
  ∀ node ∈ tree.nodes, node.1 = path → blade ∉ Leaf.blades node.2

omit [Number K] in
theorem vacant_empty (path : List S) (blade : Blade) :
    ({} : ProductTree K S).Vacant path blade := by
  intro node hnode _
  obtain rfl := List.mem_singleton.1 hnode
  exact List.not_mem_nil

/-- Optimizing adds no leaf. -/
theorem Vacant.optimize (h : tree.Vacant path blade) : tree.optimize.Vacant path blade := by
  intro node hnode hpath hblade
  obtain rfl | hnode := List.mem_cons.1 hnode
  · exact h _ List.mem_cons_self hpath (Leaf.mem_blades_merge hblade)
  · obtain ⟨source, hsource, hsame, hblades⟩ := Branches.mem_nodes_optimize hnode
    exact h source (List.mem_cons_of_mem _ hsource) (hsame.trans hpath) (hblades hblade)

/-- **Leaves that cancel are optimized away**: nothing is left of them but the count. -/
theorem optimize_insert_insert [Ord S] [Std.LawfulEqOrd S] (hblade : leaf'.blade = leaf.blade)
    (hzero : Number.isZero (leaf.coefficient + leaf'.coefficient) = true)
    (hvacant : tree.Vacant path leaf.blade) :
    ((tree.insert path leaf).insert path leaf').optimize = tree.optimize := by
  cases path with
  | nil =>
    have hmerge := Leaf.merge_push_push hblade (hvacant _ List.mem_cons_self rfl) hzero
    simp only [insert, optimize, hmerge]
  | cons symbol rest =>
    have hbranches : (Branches.insert leaf' symbol rest
        (Branches.insert leaf symbol rest tree.branches)).optimize = tree.branches.optimize :=
      Branches.optimize_insert_insert hblade hzero fun node hnode =>
        hvacant node (List.mem_cons_of_mem _ hnode)
    simp only [insert, optimize, hbranches]

/-- Recording a term without a literal zero counts it and inserts its leaf. -/
theorem add_of_hasZero_eq_false [Ord S] {term : Term K S} (flips : Nat)
    (h : term.hasZero = false) :
    tree.add blade term flips =
      { tree.insert (pathOf term) ⟨coefficient term flips, blade⟩ with
        contributions := tree.contributions + 1 } := by
  rw [add, h]
  cases pathOf term <;> rfl

omit [Number K] in
theorem insert_contributions [Ord S] (n : Nat) :
    { tree with contributions := n }.insert path leaf =
      { tree.insert path leaf with contributions := n } := by
  cases path <;> rfl

variable [Ord S] [Std.TransOrd S] [Std.LawfulEqOrd S]

/-- **Terms that cancel are optimized away**: nothing is left of them but the count. -/
theorem optimize_add_add {term term' : Term K S} (hperm : term.Perm term') {flips flips' : Nat}
    (hzero : Number.isZero (coefficient term flips + coefficient term' flips') = true)
    (hvacant : tree.Vacant (pathOf term) blade) :
    ((tree.add blade term flips).add blade term' flips').optimize =
      { tree.optimize with
        contributions := ((tree.add blade term flips).add blade term' flips').contributions } := by
  cases hliteral : term.hasZero with
  | true =>
    have hliteral' : term'.hasZero = true := (hasZero_eq_of_perm hperm).symm.trans hliteral
    rw [add, add, if_pos hliteral, if_pos hliteral']
    rfl
  | false =>
    have hliteral' : term'.hasZero = false := (hasZero_eq_of_perm hperm).symm.trans hliteral
    have hcancel : ((tree.insert (pathOf term) ⟨coefficient term flips, blade⟩).insert
        (pathOf term) ⟨coefficient term' flips', blade⟩).optimize = tree.optimize :=
      optimize_insert_insert rfl hzero hvacant
    rw [add_of_hasZero_eq_false flips' hliteral', add_of_hasZero_eq_false flips hliteral,
      insert_contributions, ← pathOf_eq_of_perm hperm, ← hcancel]
    rfl

/-- **Terms of floating-point numbers are recorded whatever the order of their factors is.** If the
parities agree, the trees are the same, with the same bits in their coefficients. If they differ and
the coefficient is finite, nothing is left of the two terms once the tree is optimized, unless there
was a leaf to add them to. -/
theorem add_perm_cancels {term term' : Term Float S} (hperm : term.Perm term')
    (tree : ProductTree Float S) (blade : Blade) (flips flips' : Nat) :
    (flips % 2 = flips' % 2 → tree.add blade term flips = tree.add blade term' flips') ∧
      (flips % 2 ≠ flips' % 2 → (coefficient term flips).isFinite = true →
        tree.Vacant (pathOf term) blade →
          let twice := (tree.add blade term flips).add blade term' flips'
          twice.optimize.Vacant (pathOf term) blade ∧
            twice.optimize = { tree.optimize with contributions := twice.contributions }) := by
  constructor
  · intro hparity
    exact add_eq_of_perm tree blade hperm (by rw [isOdd, isOdd, hparity])
  · intro hparity hfinite hvacant twice
    have hodd : isOdd flips ≠ isOdd flips' := by
      rw [isOdd, isOdd, ne_eq, Bool.eq_iff_iff, beq_iff_eq, beq_iff_eq]
      omega
    have hzero : Number.isZero (coefficient term flips + coefficient term' flips') = true := by
      rw [coefficient_neg hperm hodd, Double.add_neg_of_isFinite hfinite]
      decide +kernel
    have htwice := optimize_add_add hperm hzero hvacant
    refine ⟨?_, htwice⟩
    rw [htwice]
    exact hvacant.optimize

/-- Three numbers and two symbols, in different orders. -/
theorem add_perm_cancels_tenths :
    let tree : ProductTree Float Handle := {}
    let term : Term Float Handle :=
      [.symbol ⟨1⟩, .number 0.1, .symbol ⟨0⟩, .number 0.3, .number 7]
    let term' : Term Float Handle :=
      [.number 7, .symbol ⟨0⟩, .number 0.1, .symbol ⟨1⟩, .number 0.3]
    let twice := (tree.add 3 term 0).add 3 term' 1
    term.Perm term' ∧ tree.add 3 term 0 = tree.add 3 term' 2 ∧
      (coefficient term 0).isFinite = true ∧ tree.Vacant (pathOf term) 3 ∧
      twice.optimize.Vacant (pathOf term) 3 ∧
      twice.optimize = { tree.optimize with contributions := twice.contributions } := by
  intro tree term term' twice
  have hperm : term.Perm term' := by decide +kernel
  have hsorted : [0.1, 0.3, 7].mergeSort Number.precedes = [(0.1 : Float), 0.3, 7] :=
    List.mergeSort_of_pairwise (by decide +kernel)
  have hfinite : (coefficient term 0).isFinite = true := by
    simp only [coefficient, term, List.filterMap_cons, List.filterMap_nil, Factor.number?,
      hsorted]
    decide +kernel
  have hvacant : tree.Vacant (pathOf term) 3 := vacant_empty _ _
  exact ⟨hperm, (add_perm_cancels hperm tree 3 0 2).1 rfl, hfinite, hvacant,
    (add_perm_cancels hperm tree 3 0 1).2 (by decide) hfinite hvacant⟩

end ProductTree

end Clifford
