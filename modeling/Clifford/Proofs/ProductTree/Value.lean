import Clifford.ProductTree
import Clifford.Proofs.Blade.Flips
import Clifford.Proofs.Number.Exact
import Clifford.Proofs.Values.Convolution
import Clifford.Proofs.Values.Sums
import Mathlib.Tactic.Abel

/-!
# Values of trees of products

When symbols have values, a tree of products stands for the coefficient function that all its
leaves add up to. Recording a term adds the value of the term, however its factors were sorted;
merging leaves and dropping empty nodes changes nothing.

## Main definitions

- `Leaf.values`, `Branches.values`, `ProductTree.values` — the coefficient functions
- `Branches.Forall`, `ProductTree.Forall` — a property of all symbols of a tree
- `Term.valueWith` — the value of a term when symbols have values

## Main results

- `ProductTree.values_add` — recording a term adds its signed value at its blade
- `ProductTree.values_optimize` — merging keeps the value of a tree
-/

namespace Clifford

variable {K S : Type}

/-! ### Symbols -/

/-- A property of all symbols of branches. -/
def Branches.Forall (p : S → Prop) : Branches K S → Prop
  | nil => True
  | cons symbol _ below beside => p symbol ∧ below.Forall p ∧ beside.Forall p

theorem Branches.isEmpty_iff {branches : Branches K S} :
    branches.isEmpty = true ↔ branches = nil := by
  cases branches <;> simp [isEmpty]

/-- A property of all symbols of a tree. -/
def ProductTree.Forall (p : S → Prop) (tree : ProductTree K S) : Prop := tree.branches.Forall p

section

variable {p : S → Prop} {branches : Branches K S} {tree : ProductTree K S}

theorem Branches.Forall.mono {p' : S → Prop} (h : branches.Forall p) (hp : ∀ t, p t → p' t) :
    branches.Forall p' := by
  induction branches with
  | nil => trivial
  | cons symbol leaves below beside ihbelow ihbeside =>
    exact ⟨hp symbol h.1, ihbelow h.2.1, ihbeside h.2.2⟩

theorem Branches.forall_path (leaf : Leaf K) {symbol : S} {rest : List S}
    (hpath : ∀ t ∈ symbol :: rest, p t) (h : branches.Forall p) :
    (path leaf symbol rest branches).Forall p := by
  induction rest generalizing symbol branches with
  | nil => exact ⟨hpath symbol List.mem_cons_self, trivial, h⟩
  | cons next rest ih =>
    refine ⟨hpath symbol List.mem_cons_self, ih (fun t ht => ?_) trivial, h⟩
    exact hpath t (List.mem_cons_of_mem symbol ht)

theorem Branches.forall_insert [Ord S] (leaf : Leaf K) {symbol : S} {rest : List S}
    (hpath : ∀ t ∈ symbol :: rest, p t) (h : branches.Forall p) :
    (insert leaf symbol rest branches).Forall p := by
  induction branches generalizing symbol rest with
  | nil => exact forall_path leaf hpath trivial
  | cons other leaves below beside ihbelow ihbeside =>
    obtain ⟨hother, hbelow, hbeside⟩ := h
    rw [insert.eq_def]
    dsimp only
    split
    · exact forall_path leaf hpath ⟨hother, hbelow, hbeside⟩
    · exact ⟨hother, hbelow, ihbeside hpath hbeside⟩
    · cases rest with
      | nil => exact ⟨hother, hbelow, hbeside⟩
      | cons next rest =>
        have hnext : ∀ t ∈ next :: rest, p t := fun t ht =>
          hpath t (List.mem_cons_of_mem symbol ht)
        exact ⟨hother, ihbelow hnext hbelow, hbeside⟩

theorem Branches.forall_optimize [Number K] (h : branches.Forall p) :
    branches.optimize.Forall p := by
  induction branches with
  | nil => trivial
  | cons symbol leaves below beside ihbelow ihbeside =>
    rw [optimize]
    split
    · exact ihbeside h.2.2
    · exact ⟨h.1, ihbelow h.2.1, ihbeside h.2.2⟩

theorem ProductTree.forall_add [Number K] [Ord S] (h : tree.Forall p) (blade : Blade)
    {term : Term K S} (hterm : ∀ t, .symbol t ∈ term → p t) (flips : Nat) :
    (tree.add blade term flips).Forall p := by
  have hpath : ∀ t ∈ pathOf term, p t := by
    intro t ht
    obtain ⟨f, hf, hsymbol⟩ :=
      List.mem_filterMap.1 ((List.mergeSort_perm (term.filterMap Factor.symbol?) _).mem_iff.1 ht)
    cases f with
    | number x => cases hsymbol
    | symbol t' =>
      obtain rfl : t' = t := Option.some.inj hsymbol
      exact hterm t' hf
  rw [add]
  split
  · exact h
  · rw [insert.eq_def]
    split
    · exact h
    · rename_i heq
      exact Branches.forall_insert _ (heq ▸ hpath) h

end

/-! ### Values -/

variable [Number K]

/-- The value of a factor when symbols have values. -/
def Factor.valueWith (ν : S → K) : Factor K S → K
  | .number x => x
  | .symbol s => ν s

/-- The value of a term when symbols have values. -/
def Term.valueWith (ν : S → K) (term : Term K S) : K := (term.map (Factor.valueWith ν)).prod

variable [ExactNumber K]

namespace Leaf

/-- What leaves contribute at the end of a path whose symbols multiply to `x`. -/
def values (x : K) (leaves : List (Leaf K)) : Values K :=
  (leaves.map fun leaf => Values.single leaf.blade (leaf.coefficient * x)).sum

@[simp] theorem values_nil (x : K) : values x [] = 0 := rfl

@[simp] theorem values_cons (x : K) (leaf : Leaf K) (rest : List (Leaf K)) :
    values x (leaf :: rest) =
      Values.single leaf.blade (leaf.coefficient * x) + values x rest := by
  rw [values, List.map_cons, List.sum_cons, values]

theorem values_append (x : K) (front rest : List (Leaf K)) :
    values x (front ++ rest) = values x front + values x rest := by
  rw [values, List.map_append, List.sum_append, values, values]

theorem values_addTo (x : K) (leaf : Leaf K) (leaves : List (Leaf K)) :
    values x (leaf.addTo leaves) =
      values x leaves + Values.single leaf.blade (leaf.coefficient * x) := by
  induction leaves with
  | nil => rw [addTo, values_cons, values_nil, add_zero, zero_add]
  | cons other rest ih =>
    rw [addTo]
    split
    · rename_i hblade
      rw [values_cons, values_cons, add_mul, Values.single_add, hblade, add_right_comm]
    · rw [values_cons, values_cons, ih, add_assoc]

theorem values_foldl_addTo (x : K) (leaves merged : List (Leaf K)) :
    values x (leaves.foldl (fun merged leaf => leaf.addTo merged) merged) =
      values x merged + values x leaves := by
  induction leaves generalizing merged with
  | nil => rw [List.foldl_nil, values_nil, add_zero]
  | cons leaf rest ih => rw [List.foldl_cons, ih, values_addTo, values_cons, add_assoc]

theorem values_filter_isZero (x : K) (leaves : List (Leaf K)) :
    values x (leaves.filter fun leaf => !Number.isZero leaf.coefficient) = values x leaves := by
  rw [values, sum_map_filter, values]
  refine congrArg List.sum (List.map_congr_left fun leaf _ => ?_)
  cases hzero : Number.isZero leaf.coefficient with
  | true => simp [Number.isZero_iff.1 hzero]
  | false => rfl

theorem values_merge (x : K) (leaves : Array (Leaf K)) :
    values x (merge leaves).toList = values x leaves.toList := by
  rw [merge, Array.toList_filter, values_filter_isZero, ← Array.foldl_toList, values_foldl_addTo,
    values_nil, zero_add]

end Leaf

namespace Branches

variable {ν : S → K}

/-- What branches contribute below a path whose symbols multiply to `running`. -/
def values (ν : S → K) (running : K) : Branches K S → Values K
  | nil => 0
  | cons symbol leaves below beside =>
    Leaf.values (running * ν symbol) leaves.toList + below.values ν (running * ν symbol) +
      beside.values ν running

theorem values_path (running : K) (leaf : Leaf K) (symbol : S) (rest : List S)
    (beside : Branches K S) :
    (path leaf symbol rest beside).values ν running =
      Values.single leaf.blade (leaf.coefficient * (running * ((symbol :: rest).map ν).prod)) +
        beside.values ν running := by
  induction rest generalizing symbol running beside with
  | nil => simp [path, values]
  | cons next rest ih =>
    rw [path, values, ih, List.map_cons, List.prod_cons, mul_assoc]
    simp [values]

theorem values_congr {ν' : S → K} (running : K) {branches : Branches K S}
    (h : branches.Forall fun t => ν' t = ν t) :
    branches.values ν' running = branches.values ν running := by
  induction branches generalizing running with
  | nil => rfl
  | cons symbol leaves below beside ihbelow ihbeside =>
    rw [values, values, h.1, ihbelow _ h.2.1, ihbeside _ h.2.2]

variable [Ord S] [Std.LawfulEqOrd S]

/-- A leaf contributes at the end of its path, wherever it is inserted. -/
theorem values_insert (running : K) (leaf : Leaf K) (symbol : S) (rest : List S)
    (branches : Branches K S) :
    (insert leaf symbol rest branches).values ν running =
      branches.values ν running +
        Values.single leaf.blade
          (leaf.coefficient * (running * ((symbol :: rest).map ν).prod)) := by
  induction branches generalizing symbol rest running with
  | nil => rw [insert.eq_def, values_path, add_comm]
  | cons other leaves below beside ihbelow ihbeside =>
    rw [insert.eq_def]
    dsimp only
    split
    · -- The path comes before the first branch.
      rw [values_path, add_comm]
    · -- The path comes after it.
      rw [values, ihbeside, values]
      simp only [add_assoc]
    · -- The path shares its first symbol with it.
      rename_i heq
      obtain rfl : symbol = other := Std.LawfulEqOrd.eq_of_compare heq
      cases rest with
      | nil =>
        rw [values, values, Array.toList_push, Leaf.values_append, Leaf.values_cons,
          Leaf.values_nil, add_zero, List.map_singleton, List.prod_singleton]
        abel
      | cons next rest =>
        have hprod : ((symbol :: next :: rest).map ν).prod =
            ν symbol * ((next :: rest).map ν).prod := by
          rw [List.map_cons, List.prod_cons]
        rw [values, values, ihbelow, hprod, ← mul_assoc running]
        abel

end Branches

/-- Merging leaves and dropping empty nodes keeps what branches contribute. -/
theorem Branches.values_optimize (ν : S → K) (running : K) (branches : Branches K S) :
    branches.optimize.values ν running = branches.values ν running := by
  induction branches generalizing running with
  | nil => rfl
  | cons symbol leaves below beside ihbelow ihbeside =>
    rw [optimize, values, ← Leaf.values_merge, ← ihbelow, ← ihbeside]
    split
    · rename_i hempty
      rw [Bool.and_eq_true] at hempty
      have hleaves : (Leaf.merge leaves).toList = [] := by
        simpa [Array.isEmpty_iff] using hempty.1
      rw [hleaves, isEmpty_iff.1 hempty.2, Leaf.values_nil, values, zero_add, zero_add]
    · rfl

namespace ProductTree

variable {ν : S → K} {tree : ProductTree K S}

/-- The coefficient function that the leaves of a tree add up to. -/
def values (ν : S → K) (tree : ProductTree K S) : Values K :=
  Leaf.values 1 tree.leaves.toList + tree.branches.values ν 1

theorem values_optimize (ν : S → K) (tree : ProductTree K S) :
    tree.optimize.values ν = tree.values ν := by
  rw [values, optimize, Leaf.values_merge, Branches.values_optimize, values]

/-- The signed product of the numbers of a term, whatever the order in which they are taken. -/
theorem coefficient_eq (term : Term K S) (flips : Nat) :
    coefficient term flips = (-1) ^ flips * (term.filterMap Factor.number?).prod := by
  have hsign := ite_isOdd_neg flips (1 : K)
  rw [mul_one] at hsign
  rw [coefficient, Number.productFrom_eq, hsign]
  congr 1
  exact (List.mergeSort_perm _ _).prod_eq

theorem prod_numbers_mul_symbols (term : Term K S) :
    (term.filterMap Factor.number?).prod * ((term.filterMap Factor.symbol?).map ν).prod =
      term.valueWith ν := by
  induction term with
  | nil => simp [Term.valueWith]
  | cons f rest ih =>
    have hrest : Term.valueWith ν (f :: rest) = f.valueWith ν * Term.valueWith ν rest := by
      rw [Term.valueWith, List.map_cons, List.prod_cons, Term.valueWith]
    rw [hrest, ← ih]
    cases f with
    | number x =>
      have hnumber : (Factor.number x : Factor K S).number? = some x := rfl
      have hsymbol : (Factor.number x : Factor K S).symbol? = none := rfl
      rw [List.filterMap_cons_some hnumber, List.filterMap_cons_none hsymbol, List.prod_cons,
        mul_assoc, Factor.valueWith]
    | symbol t =>
      have hnumber : (Factor.symbol t : Factor K S).number? = none := rfl
      have hsymbol : (Factor.symbol t : Factor K S).symbol? = some t := rfl
      rw [List.filterMap_cons_none hnumber, List.filterMap_cons_some hsymbol, List.map_cons,
        List.prod_cons, mul_left_comm, Factor.valueWith]

section

variable [Ord S]

theorem prod_pathOf (term : Term K S) :
    ((pathOf term).map ν).prod = ((term.filterMap Factor.symbol?).map ν).prod :=
  ((List.mergeSort_perm _ _).map ν).prod_eq

variable [Std.LawfulEqOrd S]

theorem values_insert (path : List S) (leaf : Leaf K) :
    (tree.insert path leaf).values ν =
      tree.values ν + Values.single leaf.blade (leaf.coefficient * (path.map ν).prod) := by
  cases path with
  | nil =>
    rw [insert, values, values, Array.toList_push, Leaf.values_append, Leaf.values_cons,
      Leaf.values_nil, add_zero, List.map_nil, List.prod_nil]
    abel
  | cons symbol rest =>
    rw [insert, values, values, Branches.values_insert, one_mul, add_assoc]

/-- **Recording a term adds its signed value at its blade.** -/
theorem values_add (tree : ProductTree K S) (blade : Blade) (term : Term K S) (flips : Nat) :
    (tree.add blade term flips).values ν =
      tree.values ν + Values.single blade ((-1) ^ flips * term.valueWith ν) := by
  rw [add]
  split
  · rename_i hzero
    obtain ⟨f, hf, hisZero⟩ := List.any_eq_true.1 hzero
    have hvalue : f.valueWith ν = 0 := by
      cases f with
      | number x => exact Number.isZero_iff.1 hisZero
      | symbol t => cases hisZero
    have hterm : term.valueWith ν = 0 :=
      List.prod_eq_zero (List.mem_map.2 ⟨f, hf, hvalue⟩)
    rw [hterm, mul_zero, Values.single_zero, add_zero]
  · rw [values_insert, coefficient_eq, mul_assoc, prod_pathOf, prod_numbers_mul_symbols]
    rfl

end

end ProductTree

end Clifford
