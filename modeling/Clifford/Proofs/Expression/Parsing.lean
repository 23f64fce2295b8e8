import Clifford.Program.Listing
import Clifford.Proofs.Expression.Sharing
import Clifford.Proofs.Text.Spelling

/-!
# Parsing displayed expressions

The text of an expression is a formula, and the formula has the value of the expression. A tree
shows its text in places of every strength, with parentheses where the place needs more than the
tree has.

## Main definitions

- `Tree.Legible` — names are names, numbers read back, and there are no sums or products of nothing
- `Tree.valueOf?`, `Tree.Spelled` — the value of a tree by names, and a text that has this value
- `Arena.Call.Legible` — the same of a call that makes an expression
- `Arena.Makes` — expressions that legible calls have made, among any other calls

## Main results

- `Tree.Legible.spelled` — the text of a legible tree, in places of every strength
- `Arena.Canonical.shows_perform` — a legible call on legible expressions makes another one
- `Program.formula_parses` — the text of an expression parses back to its value

## Design notes

A negative literal is written with its minus, and yet counts as a number that needs no parentheses.
So a text in a place of strength 4 is a formula of strength 3 only. Such places are the operands of
a minus, and there the grammar asks for no more.
-/

namespace Clifford

open Formula (ReadsBack Spells)

variable {K : Type}

namespace Tree

variable [Number K] {literal : String → K} {inputName inputName' variableName : Nat → String}
  {t : Tree K}

/-- Parentheses are written where a formula binds less strongly than its place needs. -/
theorem spells_enclosed {own outer : Nat} {formula : String} {v : (String → K) → K}
    (h : Spells literal own formula v) :
    Spells literal (min 3 outer) (enclosed (own < outer) formula) v := by
  rw [enclosed]
  by_cases hlt : own < outer
  · rw [if_pos (decide_eq_true hlt)]
    exact (h.mono (Nat.zero_le own)).enclosed.mono (by omega)
  · rw [if_neg (by simpa using hlt)]
    exact h.mono (by omega)

/-- The value of a tree where inputs and variables have the values of their names. -/
def valueOf? (inputName variableName : Nat → String) (values : String → K) (t : Tree K) :
    Option K :=
  t.value? (fun id => some (values (inputName id))) fun id => some (values (variableName id))

variable [Numeral K]

/-- The text of the tree can be read: its names are names, its numbers are read back, and its sums
and products have operands. -/
inductive Legible (literal : String → K) (inputName variableName : Nat → String) :
    Tree K → Prop where
  /-- A number that is read back. -/
  | number {x : K} : ReadsBack literal x → Legible literal inputName variableName (.number x)
  /-- An input with a name. -/
  | input {id : Nat} : Lexeme.IsName (inputName id) →
      Legible literal inputName variableName (.input id)
  /-- A variable with a name. -/
  | read {id : Nat} : Lexeme.IsName (variableName id) →
      Legible literal inputName variableName (.read id)
  /-- A sum of something. -/
  | sum {args : List (Tree K)} : args ≠ [] →
      (∀ t ∈ args, Legible literal inputName variableName t) →
      Legible literal inputName variableName (.sum args)
  /-- A product of something. -/
  | product {args : List (Tree K)} : args ≠ [] →
      (∀ t ∈ args, Legible literal inputName variableName t) →
      Legible literal inputName variableName (.product args)
  /-- A negation. -/
  | negation {arg : Tree K} : Legible literal inputName variableName arg →
      Legible literal inputName variableName (.negation arg)
  /-- A binary operator. -/
  | binary {op : Operator} {left right : Tree K} : Legible literal inputName variableName left →
      Legible literal inputName variableName right →
      Legible literal inputName variableName (.binary op left right)
  /-- A function. -/
  | call {f : ScalarFunction} {args : List (Tree K)} :
      (∀ t ∈ args, Legible literal inputName variableName t) →
      Legible literal inputName variableName (.call f args)

/-- Only the inputs that have names matter. -/
theorem Legible.congr (h : t.Legible literal inputName variableName)
    (hnames : ∀ id, Lexeme.IsName (inputName id) → inputName' id = inputName id) :
    t.Legible literal inputName' variableName := by
  induction h with
  | number hx => exact .number hx
  | input hid => exact .input ((hnames _ hid).symm ▸ hid)
  | read hid => exact .read hid
  | sum hne _ ih => exact .sum hne ih
  | product hne _ ih => exact .product hne ih
  | negation _ ih => exact .negation ih
  | binary _ _ ihl ihr => exact .binary ihl ihr
  | call _ ih => exact .call ih

/-- The tree has a value for all values of names, and its text is a formula with this value. -/
def Spelled (literal : String → K) (inputName variableName : Nat → String) (t : Tree K) : Prop :=
  ∃ v, (∀ values, t.valueOf? inputName variableName values = some (v values)) ∧
    ∀ outer, Spells literal (min 3 outer) (t.text inputName variableName outer) v

theorem exists_values_of_spelled {args : List (Tree K)}
    (h : ∀ t ∈ args, t.Spelled literal inputName variableName) :
    ∃ vs : List ((String → K) → K), (∀ values,
        values? (fun id => some (values (inputName id))) (fun id => some (values (variableName id)))
          args = some (vs.map fun v => v values)) ∧
      ∀ outer, List.Forall₂ (Spells literal (min 3 outer))
        (texts inputName variableName outer args) vs := by
  induction args with
  | nil => exact ⟨[], fun _ => rfl, fun _ => .nil⟩
  | cons t rest ih =>
    obtain ⟨⟨v, hv, hspells⟩, hrest⟩ := List.forall_mem_cons.1 h
    obtain ⟨vs, hvs, hall⟩ := ih hrest
    refine ⟨v :: vs, fun values => ?_, fun outer => .cons (hspells outer) (hall outer)⟩
    have hfirst := hv values
    rw [valueOf?] at hfirst
    rw [values?, hfirst, hvs]
    rfl

omit [Number K] in
theorem texts_ne_nil {args : List (Tree K)} (h : args ≠ []) (outer : Nat) :
    texts inputName variableName outer args ≠ [] := by
  cases args with
  | nil => exact absurd rfl h
  | cons t rest => exact List.cons_ne_nil _ _

/-- **The text of a legible tree is a formula with the value of the tree**, in places of every
strength. -/
theorem Legible.spelled [ExactNumber K] (hdiv : ∀ x y z : K, x * (y / z) = x * y / z)
    (h : t.Legible literal inputName variableName) :
    t.Spelled literal inputName variableName := by
  induction h with
  | @number x hx => exact ⟨fun _ => x, fun _ => rfl, fun _ => (Spells.number hx).mono (by omega)⟩
  | input hid => exact ⟨_, fun _ => rfl, fun _ => (Spells.name hid).mono (by omega)⟩
  | read hid => exact ⟨_, fun _ => rfl, fun _ => (Spells.name hid).mono (by omega)⟩
  | sum hne _ ih =>
    obtain ⟨vs, hvs, hall⟩ := exists_values_of_spelled ih
    refine ⟨_, fun values => ?_, fun outer =>
      spells_enclosed (Spells.sum (hall 1) (texts_ne_nil hne 1))⟩
    rw [valueOf?, value?, hvs values, ← zero_add (List.sum _), ← Number.foldl_add_eq]
    rfl
  | product hne _ ih =>
    obtain ⟨vs, hvs, hall⟩ := exists_values_of_spelled ih
    refine ⟨_, fun values => ?_, fun outer =>
      spells_enclosed (Spells.product hdiv (hall 2) (texts_ne_nil hne 2))⟩
    rw [valueOf?, value?, hvs values, ← one_mul (List.prod _), ← Number.productFrom_eq]
    rfl
  | negation _ ih =>
    obtain ⟨v, hv, hspells⟩ := ih
    refine ⟨fun values => -v values, fun values => ?_, fun outer =>
      spells_enclosed (hspells 4).negated⟩
    have harg := hv values
    rw [valueOf?] at harg ⊢
    rw [value?, harg]
    rfl
  | @binary op left right _ _ ihl ihr =>
    obtain ⟨v, hv, hleft⟩ := ihl
    obtain ⟨w, hw, hright⟩ := ihr
    refine ⟨fun values => op.eval (v values) (w values), fun values => ?_, fun outer => ?_⟩
    · have hl := hv values
      have hr := hw values
      rw [valueOf?] at hl hr ⊢
      rw [value?, hl, hr]
      rfl
    · have hbinary := Spells.binary op ((hleft op.strength).mono (by cases op <;> decide))
        ((hright (op.strength + 1)).mono (by cases op <;> decide))
      cases op <;> exact spells_enclosed hbinary
  | @call f args _ ih =>
    obtain ⟨vs, hvs, hall⟩ := exists_values_of_spelled ih
    refine ⟨fun values => f.eval (vs.map fun v => v values), fun values => ?_, fun outer =>
      (Spells.call f (hall 0)).mono (by omega)⟩
    rw [valueOf?, value?, hvs values]
    rfl

end Tree

namespace Arena

variable [Number K] [Numeral K] {literal : String → K} {variableName : Nat → String}
  {arena arena' : Arena K} {node : Node K} {call : Call K} {handle : Handle}
  {handles : List Handle}

/-- The names of inputs in formulas. -/
def displayName (arena : Arena K) (id : Nat) : String := (arena.inputName? id).getD "?"

/-- What the call makes can be read: a number is read back, a name is one. A sum and a product of
nothing are numbers. -/
def Call.Legible (literal : String → K) (variableName : Nat → String) : Call K → Prop
  | .number x => ReadsBack literal x
  | .input name => Lexeme.IsName name
  | .read id => Lexeme.IsName (variableName id)
  | .sum [] => ReadsBack literal (0 : K)
  | .product [] => ReadsBack literal (1 : K)
  | .sum _ | .product _ | .negate _ | .binary _ _ _ | .call _ _ => True

/-- **The handles of expressions that legible calls have made**, each on handles that are among
them. Anything else may have been stored before and between. -/
inductive Makes (literal : String → K) (variableName : Nat → String) :
    Arena K → List Handle → Prop where
  /-- Nothing was made by such a call. -/
  | start {arena : Arena K} : arena.Reachable → Makes literal variableName arena []
  /-- One more legible call. -/
  | make {arena : Arena K} {handles : List Handle} (call : Call K) :
      Makes literal variableName arena handles → (∀ operand ∈ call.operands, operand ∈ handles) →
      call.Legible literal variableName →
      Makes literal variableName (call.perform.run arena).2
        ((call.perform.run arena).1 :: handles)
  /-- Any other call. -/
  | next {arena arena' : Arena K} {handles : List Handle} :
      Makes literal variableName arena handles → Next arena arena' →
      Makes literal variableName arena' handles

/-- The expression is stored, and its tree is legible. -/
structure Shows (literal : String → K) (variableName : Nat → String) (arena : Arena K)
    (handle : Handle) : Prop where
  stored : handle.index < arena.size
  legible : (arena.tree handle).Legible literal arena.displayName variableName

omit [Numeral K] in
/-- Inputs that have names keep them. -/
theorem Extends.displayName_eq (hext : arena.Extends arena') {id : Nat}
    (hname : Lexeme.IsName (arena.displayName id)) :
    arena'.displayName id = arena.displayName id := by
  rw [displayName] at hname
  cases hinput : arena.inputName? id with
  | none =>
    rw [hinput] at hname
    exact absurd hname (by decide)
  | some name => rw [displayName, displayName, hinput, hext.inputs id name hinput]

theorem Shows.of_extends (h : Shows literal variableName arena handle)
    (hcanonical : arena.Canonical) (hcanonical' : arena'.Canonical) (hext : arena.Extends arena') :
    Shows literal variableName arena' handle where
  stored := hext.stored h.stored
  legible := by
    rw [hcanonical.tree_eq_of_extends hcanonical' hext h.stored]
    exact h.legible.congr fun _ => hext.displayName_eq

namespace Canonical

/-- A node that is stored unfolds to the trees that its operands had. -/
theorem shows_store (h : arena.Canonical) (node : Node K)
    (hchildren : ∀ child ∈ node.children, child.index < arena.size)
    (hlegible : (treeOf arena.tree node).Legible literal arena.displayName variableName) :
    Shows literal variableName ((store node).run arena).2 ((store node).run arena).1 := by
  have hcanonical : (arena.intern node).2.Canonical := h.intern hchildren
  have hext : arena.Extends (arena.intern node).2 := intern_extends node
  have hnode := h.node?_intern node
  refine ⟨index_lt_of_node? hnode, ?_⟩
  have htree : (arena.intern node).2.tree (arena.intern node).1 = treeOf arena.tree node := by
    rw [hcanonical.tree_eq hnode]
    exact treeOf_congr fun child hchild =>
      h.tree_eq_of_extends hcanonical hext (hchildren child hchild)
  change ((arena.intern node).2.tree (arena.intern node).1).Legible literal _ variableName
  rw [htree]
  exact hlegible.congr fun _ => hext.displayName_eq

theorem shows_number [ExactNumber K] (h : arena.Canonical) {x : K} (hx : ReadsBack literal x) :
    Shows literal variableName ((number x).run arena).2 ((number x).run arena).1 := by
  have hnode : Node.ofNumber x = .number x := by
    by_cases hzero : x = 0 <;> simp [Node.ofNumber, hzero]
  have hstore := h.shows_store (.number x) (by simp [Node.children])
    (.number hx : Tree.Legible literal _ variableName _)
  rwa [← hnode] at hstore

theorem shows_input (h : arena.Canonical) {name : String} (hname : Lexeme.IsName name) :
    Shows literal variableName ((input name).run arena).2 ((input name).run arena).1 := by
  have hnamed : (arena.withInput name).displayName (arena.inputs.intern name).1 = name := by
    rw [displayName]
    exact congrArg (fun name? : Option String => name?.getD "?")
      (Interner.value?_intern h.inputs_inverse name)
  refine (h.withInput name).shows_store (.input (arena.inputs.intern name).1)
    (by simp [Node.children]) (.input ?_)
  rw [hnamed]
  exact hname

/-- The negation of a negation is the expression that was negated, which is legible as well. -/
theorem shows_negate (h : arena.Canonical) (hshows : Shows literal variableName arena handle) :
    Shows literal variableName ((negate handle).run arena).2 ((negate handle).run arena).1 := by
  obtain ⟨node, hnode⟩ := exists_node? hshows.stored
  cases hnegated : node.negated? with
  | some inner =>
    have hrun : (negate handle).run arena = (pure inner : StateM (Arena K) Handle).run arena := by
      simp [negate, hnode, hnegated]
    obtain rfl : node = .negation inner := by
      cases node <;> simp_all [Node.negated?]
    have hlt := h.children_lt handle _ hnode inner List.mem_cons_self
    have hlegible := hshows.legible
    rw [h.tree_eq hnode] at hlegible
    rw [hrun]
    cases hlegible with
    | negation hlegible => exact ⟨hlt.trans hshows.stored, hlegible⟩
  | none =>
    have hrun : (negate handle).run arena = (store (.negation handle)).run arena := by
      simp [negate, hnode, hnegated]
    rw [hrun]
    refine h.shows_store _ ?_ (.negation hshows.legible)
    simpa [Node.children] using hshows.stored

/-- **A legible call on legible expressions makes another one.** -/
theorem shows_perform [ExactNumber K] (h : arena.Canonical)
    (hlegible : call.Legible literal variableName)
    (hoperands : ∀ operand ∈ call.operands, Shows literal variableName arena operand) :
    Shows literal variableName (call.perform.run arena).2 (call.perform.run arena).1 := by
  have hstored : ∀ operand ∈ call.operands, operand.index < arena.size :=
    fun operand hoperand => (hoperands operand hoperand).stored
  have hsorted : ∀ {args : List Handle} {arg : Handle}, arg ∈ sorted args → arg ∈ args :=
    fun harg => (List.mergeSort_perm _ _).mem_iff.1 harg
  have htrees : ∀ {args : List Handle}, (∀ arg ∈ args, Shows literal variableName arena arg) →
      ∀ t ∈ args.map arena.tree, t.Legible literal arena.displayName variableName := by
    rintro args hargs t ht
    obtain ⟨arg, harg, rfl⟩ := List.mem_map.1 ht
    exact (hargs arg harg).legible
  have hne : ∀ (a b : Handle) (rest : List Handle),
      (sorted (a :: b :: rest)).map arena.tree ≠ [] := by
    intro a b rest hnil
    have hlength := congrArg List.length hnil
    simp [sorted] at hlength
  -- Sums and products of less than two operands are no nodes of their own.
  cases call with
  | number x => exact h.shows_number hlegible
  | input name => exact h.shows_input hlegible
  | read id => exact h.shows_store (.read id) (by simp [Node.children]) (.read hlegible)
  | negate arg => exact h.shows_negate (hoperands arg List.mem_cons_self)
  | binary op left right =>
    exact h.shows_store _ hstored (.binary (hoperands left List.mem_cons_self).legible
      (hoperands right (List.mem_cons_of_mem _ List.mem_cons_self)).legible)
  | call f args => exact h.shows_store _ hstored (.call (htrees hoperands))
  | sum args =>
    rcases args with - | ⟨a, - | ⟨b, rest⟩⟩
    · exact h.shows_number hlegible
    · exact hoperands a List.mem_cons_self
    · exact h.shows_store _ (fun child hchild => hstored child (hsorted hchild))
        (.sum (hne a b rest) (htrees fun arg harg => hoperands arg (hsorted harg)))
  | product args =>
    rcases args with - | ⟨a, - | ⟨b, rest⟩⟩
    · exact h.shows_number hlegible
    · exact hoperands a List.mem_cons_self
    · exact h.shows_store _ (fun child hchild => hstored child (hsorted hchild))
        (.product (hne a b rest) (htrees fun arg harg => hoperands arg (hsorted harg)))

end Canonical

/-- **All expressions that legible calls have made are legible**, whatever was stored since. -/
theorem Makes.shows [ExactNumber K] (h : Makes literal variableName arena handles) :
    arena.Canonical ∧ ∀ handle ∈ handles, Shows literal variableName arena handle := by
  induction h with
  | start hreachable =>
    exact ⟨(wellFormed_empty.canonical.run_next hreachable).1, nofun⟩
  | @make arena _ call _ hoperands hlegible ih =>
    obtain ⟨hcanonical, hshows⟩ := ih
    have hgiven : ∀ operand ∈ call.operands, Shows literal variableName arena operand :=
      fun operand hoperand => hshows operand (hoperands operand hoperand)
    have hsettles := hcanonical.perform fun operand hoperand => (hgiven operand hoperand).stored
    refine ⟨hsettles.canonical, List.forall_mem_cons.2
      ⟨hcanonical.shows_perform hlegible hgiven, fun handle hmem => ?_⟩⟩
    exact (hshows handle hmem).of_extends hcanonical hsettles.canonical hsettles.extends_run
  | next _ hnext ih =>
    obtain ⟨hcanonical, hshows⟩ := ih
    obtain ⟨hcanonical', hext⟩ := hcanonical.next hnext
    exact ⟨hcanonical', fun handle hmem =>
      (hshows handle hmem).of_extends hcanonical hcanonical' hext⟩

end Arena

namespace Program

variable [Number K] [Numeral K] [ExactNumber K]

/-- **A displayed expression parses back to its value.** The text of an expression that legible
calls have made is a formula of the grammar in one way only, and for all values of names, the
formula and the expression have the same value. -/
theorem formula_parses (hdiv : ∀ x y z : K, x * (y / z) = x * y / z) (literal : String → K)
    (program : Program K) (handles : List Handle)
    (hmade : program.arena.Makes literal program.variableName handles) (handle : Handle)
    (hhandle : handle ∈ handles) :
    ∃ e, Formula.Parses 0 (Lexeme.lex (program.formula handle)) e ∧
      (∀ e', Formula.Parses 0 (Lexeme.lex (program.formula handle)) e' → e' = e) ∧
      ∀ values : String → K,
        (program.arena.tree handle).valueOf? program.inputName program.variableName values =
          some (e.value literal values) := by
  have hlegible := (hmade.shows.2 handle hhandle).legible
  obtain ⟨v, hv, hspells⟩ := hlegible.spelled hdiv
  obtain ⟨e, hparses, hunique, hvalue⟩ := (hspells 0).exists_unique
  refine ⟨e, hparses, hunique, fun values => ?_⟩
  rw [hvalue]
  exact hv values

/-- Integers, written as numerals. -/
abbrev integral : Numeral ℚ where
  plain q := q.num.repr
  pointed q := (if q < 0 then "-" else "") ++ q.num.natAbs.repr ++ ".0"

/-- The negation of a product of a negative number and a difference from it. -/
theorem formula_parses_negated :
    let literal : String → ℚ := fun text => if text = "2.0" then 2 else 0
    let number := (Arena.number (-2 : ℚ)).run {}
    let input := (Arena.input "a").run number.2
    let read := (Arena.read 0).run input.2
    let difference := (Arena.binary .sub read.1 number.1).run read.2
    let product := (Arena.product [difference.1, input.1, number.1]).run difference.2
    let negation := (Arena.negate product.1).run product.2
    let program : Program ℚ := { arena := negation.2, declared := #[{ name := "t" }] }
    let handles :=
      [negation.1, product.1, difference.1, read.1, input.1, number.1]
    (∀ x y z : ℚ, x * (y / z) = x * y / z) ∧
      @Arena.Makes ℚ _ integral literal program.variableName program.arena handles ∧
      negation.1 ∈ handles ∧
      ∃ e, Formula.Parses 0 (Lexeme.lex (@formula ℚ _ integral program negation.1)) e ∧
        (∀ e', Formula.Parses 0 (Lexeme.lex (@formula ℚ _ integral program negation.1)) e' →
          e' = e) ∧
        ∀ values : String → ℚ,
          (program.arena.tree negation.1).valueOf? program.inputName program.variableName values =
            some (e.value literal values) := by
  intro literal number input read difference product negation program handles
  let _ : Numeral ℚ := integral
  have hdiv : ∀ x y z : ℚ, x * (y / z) = x * y / z := fun x y z => (mul_div_assoc x y z).symm
  have hnumber : ReadsBack literal (-2) := ⟨"2.0", by decide, .inr ⟨by decide, by decide⟩⟩
  have h₁ : number.2.Makes literal program.variableName [number.1] :=
    .make (.number (-2)) (.start .refl) nofun hnumber
  have h₂ : input.2.Makes literal program.variableName [input.1, number.1] :=
    .make (.input "a") h₁ nofun (by decide : Lexeme.IsName "a")
  have h₃ : read.2.Makes literal program.variableName [read.1, input.1, number.1] :=
    .make (.read 0) h₂ nofun (by decide : Lexeme.IsName "t")
  have h₄ : difference.2.Makes literal program.variableName
      [difference.1, read.1, input.1, number.1] :=
    .make (.binary .sub read.1 number.1) h₃ (by simp [Arena.Call.operands]) trivial
  have h₅ : product.2.Makes literal program.variableName
      [product.1, difference.1, read.1, input.1, number.1] :=
    .make (.product [difference.1, input.1, number.1]) h₄ (by simp [Arena.Call.operands]) trivial
  have h₆ : negation.2.Makes literal program.variableName handles :=
    .make (.negate product.1) h₅ (by simp [Arena.Call.operands]) trivial
  have hmade : program.arena.Makes literal program.variableName handles := by
    dsimp only [program]
    exact h₆
  have hmem : negation.1 ∈ handles := List.mem_cons_self
  exact ⟨hdiv, hmade, hmem,
    formula_parses hdiv literal program handles hmade negation.1 hmem⟩

end Program

end Clifford
