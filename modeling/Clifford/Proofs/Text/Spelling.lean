import Clifford.Proofs.Text.Grammar

/-!
# Spelling of formulas

Texts that are formulas, and how they are put together. The text of a sum shows no parentheses
around operands that are sums, so its syntax is another one than that of the sum; their values are
the same.

## Main definitions

- `Formula.ReadsBack` — a number whose text is a numeral with its value, or a negated one
- `Formula.Spells` — a text is a formula with given values

## Main results

- `Formula.Parses.join` — an operator before a formula of the same strength
- `Formula.Spells.binary`, `Formula.Spells.negated`, `Formula.Spells.enclosed`,
  `Formula.Spells.call`, `Formula.Spells.sum`, `Formula.Spells.product` — formulas that are put
  together
- `Formula.Spells.exists_unique` — a text has one syntax
-/

namespace Clifford

theorem Operator.char_mem_symbols (op : Operator) : op.char ∈ Lexeme.symbols := by
  cases op <;> decide

namespace Formula

variable {K : Type} [Number K] {literal : String → K} {level level' : Nat} {a b : List Lexeme}
  {e e' : Formula}

/-- **An operator before a formula of the same strength** takes its first operand, and what is
behind that operand acts on the result. This has the same value where the operators associate. -/
theorem Parses.join {op : Operator}
    (hassoc : ∀ op' : Operator, op'.strength = op.strength → ∀ x y z : K,
      op.eval x (op'.eval y z) = op'.eval (op.eval x y) z)
    (ha : Parses op.strength a e) (hb : Parses level b e') (hlevel : op.strength = level) :
    ∃ joined, Parses op.strength (a ++ .symbol op.char :: b) joined ∧ ∀ values,
      joined.value literal values = op.eval (e.value literal values) (e'.value literal values) := by
  -- The induction goes down the left side of the second formula, as far as operators of this
  -- strength reach; the operand found there becomes the right operand of the new one.
  induction hb with
  | numeral | name | enclosed | call | negation => cases op <;> cases hlevel
  | weaken hb _ =>
    subst hlevel
    exact ⟨_, .binary op ha hb, fun _ => rfl⟩
  | @binary op' left right l r _ hr ihl _ =>
    obtain ⟨joined, hjoined, hvalue⟩ := ihl hlevel
    rw [hlevel] at hjoined ⊢
    refine ⟨.binary op' joined r, ?_, fun values => ?_⟩
    · rw [← List.cons_append, ← List.append_assoc]
      exact .binary op' hjoined hr
    · rw [value, value, hvalue, hassoc op' hlevel.symm]

/-- The number is written as a numeral with its value, or as a minus and a numeral. -/
def ReadsBack [Numeral K] (literal : String → K) (x : K) : Prop :=
  ∃ word, Lexeme.IsNumeral word ∧
    (Numeral.pointed x = word ∧ literal word = x ∨
      Numeral.pointed x = "-" ++ word ∧ -literal word = x)

/-- **The text is a formula** where the strength `level` is needed. Its value is `v`, which depends
on the values of names. -/
def Spells (literal : String → K) (level : Nat) (text : String) (v : (String → K) → K) : Prop :=
  ∃ lexemes e, Lexeme.Cuts text lexemes ∧ Parses level lexemes e ∧
    ∀ values, e.value literal values = v values

namespace Spells

variable {s t : String} {v w : (String → K) → K}

theorem mono (h : Spells literal level s v) (hle : level' ≤ level) : Spells literal level' s v := by
  obtain ⟨lexemes, e, hcuts, hparses, hvalue⟩ := h
  exact ⟨lexemes, e, hcuts, hparses.mono hle, hvalue⟩

theorem name (hs : Lexeme.IsName s) : Spells literal 4 s fun values => values s :=
  ⟨_, _, hs.cuts, .name s, fun _ => rfl⟩

theorem numeral (hs : Lexeme.IsNumeral s) : Spells literal 4 s fun _ => literal s :=
  ⟨_, _, hs.cuts, .numeral s, fun _ => rfl⟩

theorem negated (h : Spells literal 3 s v) :
    Spells literal 3 ("-" ++ s) fun values => -v values := by
  obtain ⟨lexemes, e, hcuts, hparses, hvalue⟩ := h
  refine ⟨_, _, hcuts.prefixed (c := '-') (by decide), hparses.negation, fun values => ?_⟩
  rw [value, hvalue]

/-- A number is written as a numeral, or as a negated one. -/
theorem number [Numeral K] {x : K} (h : ReadsBack literal x) :
    Spells literal 3 (Numeral.pointed x) fun _ => x := by
  obtain ⟨word, hword, ⟨htext, rfl⟩ | ⟨htext, rfl⟩⟩ := h
  · rw [htext]
    exact (numeral hword).mono (by decide)
  · rw [htext]
    exact ((numeral hword).mono (by decide)).negated

theorem enclosed (h : Spells literal 0 s v) : Spells literal 4 ("(" ++ s ++ ")") v := by
  obtain ⟨lexemes, e, hcuts, hparses, hvalue⟩ := h
  exact ⟨_, e, hcuts.enclosed, hparses.enclosed, hvalue⟩

theorem binary (op : Operator) (hs : Spells literal op.strength s v)
    (ht : Spells literal (op.strength + 1) t w) :
    Spells literal op.strength (s ++ " " ++ op.token ++ " " ++ t)
      fun values => op.eval (v values) (w values) := by
  obtain ⟨a, e, hcuts, hparses, hvalue⟩ := hs
  obtain ⟨b, e', hcuts', hparses', hvalue'⟩ := ht
  rw [op.token_eq]
  refine ⟨_, _, hcuts.operator op.char_mem_symbols hcuts', .binary op hparses hparses', fun values => ?_⟩
  rw [value, hvalue, hvalue']

/-- Operands side by side, with an operator that associates with all of its strength. -/
theorem chain (op : Operator) {separator : String} {total : List K → K}
    (hseparator : separator = " " ++ op.token ++ " ")
    (hassoc : ∀ op' : Operator, op'.strength = op.strength → ∀ x y z : K,
      op.eval x (op'.eval y z) = op'.eval (op.eval x y) z)
    (hsingle : ∀ x, total [x] = x) (htotal : ∀ x xs, total (x :: xs) = op.eval x (total xs))
    {texts : List String} {vs : List ((String → K) → K)}
    (h : List.Forall₂ (Spells literal op.strength) texts vs) (hne : texts ≠ []) :
    Spells literal op.strength (separator.intercalate texts)
      fun values => total (vs.map fun v => v values) := by
  induction h with
  | nil => exact absurd rfl hne
  | @cons s v texts vs hs hrest ih =>
    cases hrest with
    | nil =>
      simp only [List.map_cons, List.map_nil, hsingle]
      rw [String.intercalate_singleton]
      exact hs
    | cons ht hrest =>
      obtain ⟨a, e, hcuts, hparses, hvalue⟩ := hs
      obtain ⟨b, e', hcuts', hparses', hvalue'⟩ := ih (List.cons_ne_nil _ _)
      -- The operands behind the first one are a formula already, which the first one joins.
      obtain ⟨joined, hjoined, hvalues⟩ := hparses.join hassoc hparses' rfl
      refine ⟨_, joined, ?_, hjoined, fun values => ?_⟩
      · have hoperator := hcuts.operator op.char_mem_symbols hcuts'
        rw [← op.token_eq] at hoperator
        rwa [String.intercalate_cons_cons, hseparator, ← String.append_assoc,
          ← String.append_assoc, ← hseparator]
      · rw [hvalues, hvalue, hvalue']
        exact (htotal _ _).symm

/-- **The arguments of a function** may be any formulas. -/
theorem call (f : ScalarFunction) {texts : List String} {vs : List ((String → K) → K)}
    (h : List.Forall₂ (Spells literal 0) texts vs) :
    Spells literal 4 (f.name ++ "(" ++ ", ".intercalate texts ++ ")")
      fun values => f.eval (vs.map fun v => v values) := by
  have hargs : ∃ args : List (List Lexeme × Formula), args.length = texts.length ∧
      Lexeme.Cuts (", ".intercalate texts) ([.symbol ','].intercalate (args.map Prod.fst)) ∧
      (∀ arg ∈ args, Parses 0 arg.1 arg.2) ∧ ∀ values,
        valueAll literal values (args.map Prod.snd) = vs.map fun v => v values := by
    induction h with
    | nil => exact ⟨[], rfl, .empty, by simp, fun _ => rfl⟩
    | @cons s v texts vs hs hrest ih =>
      obtain ⟨a, e, hcuts, hparses, hvalue⟩ := hs
      obtain ⟨args, hlength, hcuts', hparses', hvalues⟩ := ih
      refine ⟨(a, e) :: args, congrArg Nat.succ hlength, ?_,
        List.forall_mem_cons.2 ⟨hparses, hparses'⟩, fun values => ?_⟩
      · match args, texts, hlength with
        | [], [], _ => simpa using hcuts
        | next :: args, t :: texts, _ =>
          have hseparated := hcuts.separated hcuts'
          rw [String.intercalate_cons_cons, List.map_cons, List.map_cons,
            List.intercalate_cons_cons]
          simpa using hseparated
      · rw [List.map_cons, valueAll, hvalue, hvalues, List.map_cons]
  obtain ⟨args, -, hcuts, hparses, hvalues⟩ := hargs
  have hname : Lexeme.IsName f.name := by cases f <;> decide
  refine ⟨_, _, hcuts.call hname, .call f hparses, fun values => ?_⟩
  rw [value, hvalues]

/-- The text by itself has one syntax, which has the given values. -/
theorem exists_unique (h : Spells literal level s v) :
    ∃ e, Parses level (Lexeme.lex s) e ∧ (∀ e', Parses level (Lexeme.lex s) e' → e' = e) ∧
      ∀ values, e.value literal values = v values := by
  obtain ⟨lexemes, e, hcuts, hparses, hvalue⟩ := h
  rw [hcuts.lex_eq]
  exact ⟨e, hparses, fun e' h' => h'.unique hparses, hvalue⟩

variable [ExactNumber K]

/-- **The operands of a sum stand side by side.** -/
theorem sum {texts : List String} {vs : List ((String → K) → K)}
    (h : List.Forall₂ (Spells literal 1) texts vs) (hne : texts ≠ []) :
    Spells literal 1 (" + ".intercalate texts) fun values => (vs.map fun v => v values).sum := by
  refine chain .add (by decide) (fun op hop x y z => ?_) (fun x => List.sum_singleton)
    (fun x xs => List.sum_cons) h hne
  cases op with
  | add => exact (add_assoc x y z).symm
  | sub => exact (add_sub_assoc x y z).symm
  | mul | div => cases hop

/-- **The operands of a product stand side by side**, if a quotient may be multiplied by multiplying
its numerator. -/
theorem product (hdiv : ∀ x y z : K, x * (y / z) = x * y / z) {texts : List String}
    {vs : List ((String → K) → K)} (h : List.Forall₂ (Spells literal 2) texts vs)
    (hne : texts ≠ []) :
    Spells literal 2 (" * ".intercalate texts) fun values => (vs.map fun v => v values).prod := by
  refine chain .mul (by decide) (fun op hop x y z => ?_) (fun x => List.prod_singleton)
    (fun x xs => List.prod_cons) h hne
  cases op with
  | mul => exact (mul_assoc x y z).symm
  | div => exact hdiv x y z
  | add | sub => cases hop

end Spells

end Formula

end Clifford
