import Clifford.Proofs.Expression.Tree
import Clifford.Proofs.Text.Lines

/-!
# Texts of expressions

The text of an expression, read as a formula, has the value of the expression. Parentheses are
written where the place of an operand needs them.

## Main results

- `Tree.denotes_enclosed` — a formula in a place that may need parentheses
- `Arena.denotes_treeOf` — the text of a node, from the texts of its operands
- `Arena.denotes_tree` — the text of a stored expression
-/

namespace Clifford

variable {K : Type}

namespace Tree

theorem texts_eq [Numeral K] (inputName variableName : Nat → String) (outer : Nat)
    (trees : List (Tree K)) : texts inputName variableName outer trees =
      trees.map (text inputName variableName outer) := by
  induction trees with
  | nil => rfl
  | cons tree rest ih => rw [texts, ih, List.map_cons]

variable [Number K]

theorem forall₂_of_values? {R : Tree K → K → Prop} {inputs reads : Nat → Option K}
    {trees : List (Tree K)} {xs : List K} (h : values? inputs reads trees = some xs)
    (hR : ∀ t ∈ trees, ∀ x, t.value? inputs reads = some x → R t x) :
    List.Forall₂ R trees xs := by
  induction trees generalizing xs with
  | nil =>
    obtain rfl := Option.some.inj h
    exact .nil
  | cons t rest ih =>
    obtain ⟨ht, hrest⟩ := List.forall_mem_cons.1 hR
    rw [values?] at h
    obtain ⟨x, hx, h⟩ := Option.bind_eq_some_iff.1 h
    obtain ⟨ys, hys, h⟩ := Option.bind_eq_some_iff.1 h
    obtain rfl := Option.some.inj h
    exact .cons (ht x hx) (ih hys hrest)

/-- Parentheses are written where a formula binds less strongly than its place needs. -/
theorem denotes_enclosed {value : String → Option K} {own outer : Nat} {formula : String} {x : K}
    (h : Denotes value own formula x) :
    Denotes value outer (enclosed (own < outer) formula) x := by
  rw [enclosed]
  by_cases hlt : own < outer
  · rw [if_pos (decide_eq_true hlt)]
    exact h.enclosed
  · rw [if_neg (by simpa using hlt)]
    exact h.mono (Nat.not_lt.1 hlt)

end Tree

namespace Arena

variable [Number K] [Numeral K] [ExactNumber K] {literal : String → Option K} {scope : Scope K}
  {inputs reads : Nat → Option K} {inputName variableName : Nat → String} {x : K}

/-- **The text of a node** has the value of the node, if the texts of its operands have their
values. -/
theorem denotes_treeOf (hdiv : ∀ x y z : K, x * (y / z) = x * y / z) {operand : Handle → Tree K}
    {node : Node K} (hoperands : node.HasOperands)
    (hnumber : ∀ x, node = .number x → Listing.ReadsBack literal x)
    (hinput : ∀ id x, node = .input id → inputs id = some x →
      Listing.IsName (inputName id) ∧ scope (inputName id) = some x)
    (hread : ∀ id x, node = .read id → reads id = some x →
      Listing.IsName (variableName id) ∧ scope (variableName id) = some x)
    (hchildren : ∀ child ∈ node.children, ∀ x, (operand child).value? inputs reads = some x →
      ∀ outer, Denotes (Listing.wordValue literal scope) outer
        ((operand child).text inputName variableName outer) x)
    (hx : (treeOf operand node).value? inputs reads = some x) (outer : Nat) :
    Denotes (Listing.wordValue literal scope) outer
      ((treeOf operand node).text inputName variableName outer) x := by
  have hargs : ∀ (args : List Handle) xs, (∀ arg ∈ args, arg ∈ node.children) →
      Tree.values? inputs reads (args.map operand) = some xs → ∀ outer,
        List.Forall₂ (Denotes (Listing.wordValue literal scope) outer)
          (Tree.texts inputName variableName outer (args.map operand)) xs := by
    intro args xs hmem hxs outer
    rw [Tree.texts_eq, List.forall₂_map_left_iff]
    refine Tree.forall₂_of_values? hxs fun t ht x hx => ?_
    obtain ⟨arg, harg, rfl⟩ := List.mem_map.1 ht
    exact hchildren arg (hmem arg harg) x hx outer
  have hne : ∀ (args : List Handle) outer, args ≠ [] →
      Tree.texts inputName variableName outer (args.map operand) ≠ [] := by
    intro args outer h
    rw [Tree.texts_eq]
    simpa using h
  cases node with
  | number y =>
    obtain rfl := Option.some.inj hx
    exact Listing.denotes_number (hnumber y rfl)
  | input id =>
    obtain ⟨hname, hscope⟩ := hinput id x rfl hx
    exact Listing.denotes_name hname hscope
  | read id =>
    obtain ⟨hname, hscope⟩ := hread id x rfl hx
    exact Listing.denotes_name hname hscope
  | sum args =>
    obtain ⟨xs, hxs, hx⟩ := Option.bind_eq_some_iff.1 hx
    obtain rfl := Option.some.inj hx
    have hsum := Denotes.sum (hargs args xs (fun _ h => h) hxs 1) (hne args 1 hoperands)
    rw [Number.foldl_add_eq, zero_add]
    exact Tree.denotes_enclosed hsum
  | product args =>
    obtain ⟨xs, hxs, hx⟩ := Option.bind_eq_some_iff.1 hx
    obtain rfl := Option.some.inj hx
    have hproduct := Denotes.product hdiv (hargs args xs (fun _ h => h) hxs 2)
      (hne args 2 hoperands)
    rw [Number.productFrom_eq, one_mul]
    exact Tree.denotes_enclosed hproduct
  | negation arg =>
    obtain ⟨y, hy, hx⟩ := Option.bind_eq_some_iff.1 hx
    obtain rfl := Option.some.inj hx
    have harg := hchildren arg List.mem_cons_self y hy 4
    exact Tree.denotes_enclosed (harg.mono (by decide)).negated
  | binary op left right =>
    obtain ⟨y, hy, hx⟩ := Option.bind_eq_some_iff.1 hx
    obtain ⟨z, hz, hx⟩ := Option.bind_eq_some_iff.1 hx
    obtain rfl := Option.some.inj hx
    have hleft := hchildren left List.mem_cons_self y hy
    have hright := hchildren right (List.mem_cons_of_mem left List.mem_cons_self) z hz
    have hbinary := Denotes.binary op (hleft _) (hright _)
    cases op <;> exact Tree.denotes_enclosed hbinary
  | call f args =>
    obtain ⟨xs, hxs, hx⟩ := Option.bind_eq_some_iff.1 hx
    obtain rfl := Option.some.inj hx
    exact Denotes.call f (hargs args xs (fun _ h => h) hxs 0)

/-- **The text of a stored expression** has the value of the expression, if the names of its inputs
and variables stand for their values. -/
theorem denotes_tree (hdiv : ∀ x y z : K, x * (y / z) = x * y / z) {arena : Arena K}
    (h : arena.WellFormed)
    (hoperands : ∀ handle node, arena.node? handle = some node → node.HasOperands)
    (hnumbers : ∀ handle x, arena.node? handle = some (.number x) → Listing.ReadsBack literal x)
    (hreads : ∀ id x, reads id = some x →
      Listing.IsName (variableName id) ∧ scope (variableName id) = some x)
    {handle : Handle} (hinputs : ∀ id ∈ (arena.tree handle).inputs, ∀ x, inputs id = some x →
      Listing.IsName (inputName id) ∧ scope (inputName id) = some x)
    (hx : (arena.tree handle).value? inputs reads = some x) (outer : Nat) :
    Denotes (Listing.wordValue literal scope) outer
      ((arena.tree handle).text inputName variableName outer) x := by
  have hdenotes : ∀ n (handle : Handle), handle.index = n →
      (∀ id ∈ (arena.tree handle).inputs, ∀ x, inputs id = some x →
        Listing.IsName (inputName id) ∧ scope (inputName id) = some x) →
      ∀ x, (arena.tree handle).value? inputs reads = some x → ∀ outer,
        Denotes (Listing.wordValue literal scope) outer
          ((arena.tree handle).text inputName variableName outer) x := by
    intro n
    induction n using Nat.strongRecOn with
    | ind n ih =>
      rintro handle rfl hinputs x hx outer
      cases hnode : arena.node? handle with
      | none =>
        rw [tree_of_node?_eq_none hnode] at hx
        cases hx
      | some node =>
        rw [h.tree_eq hnode] at hinputs hx ⊢
        refine denotes_treeOf hdiv (hoperands handle node hnode) ?_ ?_ (fun id x _ => hreads id x)
          ?_ hx outer
        · rintro x rfl
          exact hnumbers handle x hnode
        · rintro id x rfl
          exact hinputs id List.mem_cons_self x
        · intro child hchild
          exact ih child.index (h.children_lt handle node hnode child hchild) child rfl
            fun id hid => hinputs id (mem_leaves_of_child hchild hid)
  exact hdenotes handle.index handle rfl hinputs x hx outer

end Arena

end Clifford
