import Clifford.Proofs.Text.Formula
import Clifford.Proofs.Text.Lexing

/-!
# The grammar of formulas

Formulas are made of names, numerals, calls and parentheses with the operators of arithmetic. A
minus before an operand may be repeated and binds more strongly than products and quotients, and
these bind more strongly than sums and differences; operators of one strength group from the left.

## Main definitions

- `Formula` — the syntax of a formula, and `Formula.value` — its value
- `Formula.Parses` — the grammar: lexemes are a formula in places of a given strength
- `Formula.read` — reads lexemes from left to right and without going back

## Main results

- `Formula.Parses.reads` — what the grammar derives is what is read
- `Formula.Parses.unique` — the grammar is unambiguous

## Design notes

The strengths are those of operators, 1 and 2, with 3 for a minus before an operand and 4 for what
needs no parentheses anywhere. Everything may stand in a place of strength 0.

A reader has no choice at any lexeme, so that lexemes have one syntax at most. It waits for operands
in the same way as a calculation does, and puts syntax together instead of values.
-/

namespace Clifford

/-- The syntax of a formula. Parentheses leave no trace in it. -/
inductive Formula where
  /-- A numeral. -/
  | numeral (text : String)
  /-- A name. -/
  | name (text : String)
  /-- A minus before an operand. -/
  | negation (arg : Formula)
  /-- An operator between two operands. -/
  | binary (op : Operator) (left right : Formula)
  /-- A function of arguments. -/
  | call (f : ScalarFunction) (args : List Formula)

namespace Formula

variable {K : Type}

section Value

variable [Number K]

mutual

/-- The value of a formula, from the values of numerals and names. -/
def value (literal values : String → K) : Formula → K
  | numeral text => literal text
  | name text => values text
  | negation arg => -arg.value literal values
  | binary op left right => op.eval (left.value literal values) (right.value literal values)
  | call f args => f.eval (valueAll literal values args)

/-- The values of several formulas. -/
def valueAll (literal values : String → K) : List Formula → List K
  | [] => []
  | e :: rest => e.value literal values :: valueAll literal values rest

end

end Value

/-- **The grammar of formulas.** The lexemes are a formula where at least the strength `level` is
needed. -/
inductive Parses : Nat → List Lexeme → Formula → Prop where
  /-- A numeral. -/
  | numeral (text : String) : Parses 4 [.numeral text] (.numeral text)
  /-- A name. -/
  | name (text : String) : Parses 4 [.name text] (.name text)
  /-- Any formula in parentheses. -/
  | enclosed {a : List Lexeme} {e : Formula} : Parses 0 a e →
      Parses 4 (.symbol '(' :: (a ++ [.symbol ')'])) e
  /-- The name of a function, and its arguments in parentheses. -/
  | call (f : ScalarFunction) {args : List (List Lexeme × Formula)} :
      (∀ arg ∈ args, Parses 0 arg.1 arg.2) →
      Parses 4
        (.name f.name :: .symbol '(' ::
          ([.symbol ','].intercalate (args.map Prod.fst) ++ [.symbol ')']))
        (.call f (args.map Prod.snd))
  /-- A minus, which may be repeated. -/
  | negation {a : List Lexeme} {e : Formula} : Parses 3 a e →
      Parses 3 (.symbol '-' :: a) (.negation e)
  /-- An operator, with operators of its strength on the left only. -/
  | binary (op : Operator) {a b : List Lexeme} {e e' : Formula} : Parses op.strength a e →
      Parses (op.strength + 1) b e' →
      Parses op.strength (a ++ .symbol op.char :: b) (.binary op e e')
  /-- What binds more strongly than needed. -/
  | weaken {level : Nat} {a : List Lexeme} {e : Formula} : Parses (level + 1) a e →
      Parses level a e

variable {level level' : Nat} {a b rest : List Lexeme} {e e' : Formula}

theorem Parses.mono (h : Parses level a e) (hle : level' ≤ level) : Parses level' a e := by
  induction hle with
  | refl => exact h
  | step _ ih => exact ih h.weaken

/-! ### Reading without a choice -/

/-- What waits for the right operand of an operator. -/
def after (op : Operator) (e : Formula) (sum : Formula → Formula) : Pending Formula :=
  if op.strength = 1 then { sum := binary op (sum e) } else { sum, product := binary op e }

/-- Reads one lexeme, other than the name of a function. -/
def step : Calculation Formula → Lexeme → Option (Calculation Formula)
  | .before pending outer, .numeral text => some (pending.apply (numeral text) outer)
  | .before pending outer, .name text => some (pending.apply (name text) outer)
  | .before pending outer, .symbol '-' =>
    some (.before { pending with sign := fun e => pending.sign (negation e) } outer)
  | .before pending outer, .symbol '(' => some (.before {} (.operand pending :: outer))
  | .before _ (.arguments f [] pending :: outer), .symbol ')' =>
    some (pending.apply (call f []) outer)
  | .behind e sum outer, .symbol '+' => some (.before (after .add e sum) outer)
  | .behind e sum outer, .symbol '-' => some (.before (after .sub e sum) outer)
  | .behind e sum outer, .symbol '*' => some (.before (after .mul e sum) outer)
  | .behind e sum outer, .symbol '/' => some (.before (after .div e sum) outer)
  | .behind e sum (.operand pending :: outer), .symbol ')' => some (pending.apply (sum e) outer)
  | .behind e sum (.arguments f args pending :: outer), .symbol ')' =>
    some (pending.apply (call f (args ++ [sum e])) outer)
  | .behind e sum (.arguments f args pending :: outer), .symbol ',' =>
    some (.before {} (.arguments f (args ++ [sum e]) pending :: outer))
  | _, _ => none

/-- Reads several lexemes. A name with a parenthesis behind it is that of a function. -/
def read : Calculation Formula → List Lexeme → Option (Calculation Formula)
  | c, [] => some c
  | .before pending outer, .name text :: .symbol '(' :: rest => do
    let f ← ScalarFunction.named? text
    read (.before {} (.arguments f [] pending :: outer)) rest
  | c, lexeme :: rest => do
    let c' ← step c lexeme
    read c' rest

/-- No parenthesis opens at the beginning. -/
def Behind (rest : List Lexeme) : Prop := rest.head? ≠ some (.symbol '(')

theorem read_symbol {c c' : Calculation Formula} {char : Char}
    (h : step c (.symbol char) = some c') (rest : List Lexeme) :
    read c (.symbol char :: rest) = read c' rest := by
  rw [read, h]
  · rfl
  · nofun

theorem read_operand {lexeme : Lexeme} {pending : Pending Formula}
    {outer : List (Enclosure Formula)}
    (h : step (.before pending outer) lexeme = some (pending.apply e outer)) (hrest : Behind rest) :
    read (.before pending outer) (lexeme :: rest) = read (pending.apply e outer) rest := by
  rw [read, h]
  · rfl
  · rintro _ _ text more - - rfl
    exact hrest rfl

theorem read_operator (op : Operator) (e : Formula) (sum : Formula → Formula)
    (outer : List (Enclosure Formula)) (rest : List Lexeme) :
    read (.behind e sum outer) (.symbol op.char :: rest) =
      read (.before (after op e sum) outer) rest := by
  refine read_symbol ?_ rest
  cases op <;> rfl

theorem read_call (f : ScalarFunction) (pending : Pending Formula)
    (outer : List (Enclosure Formula)) (rest : List Lexeme) :
    read (.before pending outer) (.name f.name :: .symbol '(' :: rest) =
      read (.before {} (.arguments f [] pending :: outer)) rest := by
  rw [read, ScalarFunction.named?_name]
  rfl

theorem behind_nil : Behind [] := nofun

theorem behind_symbol (char : Char) (hchar : char ≠ '(') (rest : List Lexeme) :
    Behind (.symbol char :: rest) := by
  rintro ⟨⟩
  exact hchar rfl

theorem behind_operator (op : Operator) (rest : List Lexeme) :
    Behind (.symbol op.char :: rest) :=
  behind_symbol op.char (by cases op <;> decide) rest

/-- A formula of the strength `level` may be read: nothing waits that would bind more strongly. -/
structure Admits (pending : Pending Formula) (level : Nat) : Prop where
  product : level ≤ 2 → pending.sign = id ∧ pending.product = id
  sum : level ≤ 1 → pending.sum = id

theorem admits_start (level : Nat) : Admits {} level := ⟨fun _ => ⟨rfl, rfl⟩, fun _ => rfl⟩

/-- **Reading the lexemes comes to the same as reading one operand**, `e`. Of a sum, the last
operand may still wait for another factor. -/
def Reads (level : Nat) (a : List Lexeme) (e : Formula) : Prop :=
  ∀ (pending : Pending Formula) (outer : List (Enclosure Formula)), Admits pending level →
    ∃ last sum, (∀ rest, Behind rest →
        read (.before pending outer) (a ++ rest) = read (.behind last sum outer) rest) ∧
      sum last = pending.sum (pending.product (pending.sign e)) ∧
      (2 ≤ level → last = pending.product (pending.sign e) ∧ sum = pending.sum)

namespace Reads

theorem of_apply (h : ∀ (pending : Pending Formula) outer rest, Behind rest →
    read (.before pending outer) (a ++ rest) = read (pending.apply e outer) rest) :
    Reads level a e :=
  fun pending outer _ => ⟨_, _, h pending outer, rfl, fun _ => ⟨rfl, rfl⟩⟩

theorem weaken (h : Reads (level + 1) a e) : Reads level a e := by
  intro pending outer hadmits
  have hadmits' : Admits pending (level + 1) :=
    ⟨fun hle => hadmits.product (by omega), fun hle => hadmits.sum (by omega)⟩
  obtain ⟨last, sum, hread, hsum, hsame⟩ := h pending outer hadmits'
  exact ⟨last, sum, hread, hsum, fun hle => hsame (by omega)⟩

theorem enclosed (h : Reads 0 a e) : Reads level (.symbol '(' :: (a ++ [.symbol ')'])) e := by
  refine of_apply fun pending outer rest _ => ?_
  obtain ⟨last, sum, hread, hsum, -⟩ := h {} (.operand pending :: outer) (admits_start 0)
  have hclose : step (.behind last sum (.operand pending :: outer)) (.symbol ')') =
      some (pending.apply e outer) := congrArg (fun e => some (pending.apply e outer)) hsum
  rw [List.cons_append, read_symbol rfl, List.append_assoc,
    List.singleton_append, hread _ (behind_symbol ')' (by decide) _)]
  exact read_symbol hclose rest

theorem negation (h : Reads 3 a e) : Reads level (.symbol '-' :: a) (.negation e) := by
  refine of_apply fun pending outer rest hrest => ?_
  have hadmits : Admits { pending with sign := fun e => pending.sign (.negation e) } 3 :=
    ⟨fun hle => absurd hle (by decide), fun hle => absurd hle (by decide)⟩
  obtain ⟨last, sum, hread, -, hsame⟩ := h _ outer hadmits
  obtain ⟨rfl, rfl⟩ := hsame (by decide)
  rw [List.cons_append, read_symbol rfl]
  exact hread rest hrest

theorem binary (op : Operator) (ha : Reads op.strength a e) (hb : Reads (op.strength + 1) b e') :
    Reads op.strength (a ++ .symbol op.char :: b) (.binary op e e') := by
  intro pending outer hadmits
  obtain ⟨last, sum, hread, hsum, hsame⟩ := ha pending outer hadmits
  have hadmits' : Admits (after op last sum) (op.strength + 1) := by
    cases op with
    | add | sub => exact ⟨fun _ => ⟨rfl, rfl⟩, fun hle => absurd hle (by decide)⟩
    | mul | div => exact ⟨fun hle => absurd hle (by decide), fun hle => absurd hle (by decide)⟩
  obtain ⟨last', sum', hread', hsum', hsame'⟩ := hb (after op last sum) outer hadmits'
  have hall : ∀ rest, Behind rest →
      read (.before pending outer) (a ++ .symbol op.char :: b ++ rest) =
        read (.behind last' sum' outer) rest := by
    intro rest hrest
    rw [List.append_assoc, List.cons_append, hread _ (behind_operator op _), read_operator]
    exact hread' rest hrest
  have hstrength : op.strength = 1 ∨ op.strength = 2 := by cases op <;> simp [Operator.strength]
  rcases hstrength with hone | htwo
  · -- The sum that was read is the left operand, and nothing else waits.
    rw [hone] at hadmits
    obtain ⟨hsign, hproduct⟩ := hadmits.product (by decide)
    have hwaits : after op last sum = { sum := .binary op (sum last) } := if_pos hone
    rw [hsign, hproduct, hadmits.sum le_rfl] at hsum ⊢
    rw [hwaits, hsum] at hsum'
    exact ⟨last', sum', hall, hsum', fun hle => absurd (hone ▸ hle) (by decide)⟩
  · -- The product that was read is the left operand, and the sum before it waits on.
    rw [htwo] at hadmits
    obtain ⟨hsign, hproduct⟩ := hadmits.product le_rfl
    obtain ⟨rfl, rfl⟩ := hsame htwo.ge
    have hwaits : after op (pending.product (pending.sign e)) pending.sum =
        { sum := pending.sum, product := .binary op e } := by
      rw [after, htwo, hsign, hproduct]
      rfl
    rw [hwaits] at hsum' hsame'
    rw [hsign, hproduct]
    exact ⟨last', sum', hall, hsum', fun _ => hsame' (by omega)⟩

/-- The arguments of a function, of which the first ones were read. -/
theorem arguments {args : List (List Lexeme × Formula)} (h : ∀ arg ∈ args, Reads 0 arg.1 arg.2)
    {f : ScalarFunction} {before : List Formula} {pending : Pending Formula}
    {outer : List (Enclosure Formula)} (hbefore : args = [] → before = []) :
    read (.before {} (.arguments f before pending :: outer))
        ([.symbol ','].intercalate (args.map Prod.fst) ++ .symbol ')' :: rest) =
      read (pending.apply (.call f (before ++ args.map Prod.snd)) outer) rest := by
  induction args generalizing before with
  | nil =>
    rw [hbefore rfl]
    exact read_symbol rfl rest
  | cons arg args ih =>
    obtain ⟨hfirst, hargs⟩ := List.forall_mem_cons.1 h
    obtain ⟨last, sum, hread, hsum, -⟩ :=
      hfirst {} (.arguments f before pending :: outer) (admits_start 0)
    change sum last = arg.2 at hsum
    cases args with
    | nil =>
      have hclose : step (.behind last sum (.arguments f before pending :: outer)) (.symbol ')') =
          some (pending.apply (.call f (before ++ [arg.2])) outer) := by
        rw [← hsum]
        rfl
      rw [List.map_singleton, List.intercalate_singleton,
        hread _ (behind_symbol ')' (by decide) _)]
      exact read_symbol hclose rest
    | cons next args =>
      have hcomma : step (.behind last sum (.arguments f before pending :: outer)) (.symbol ',') =
          some (.before {} (.arguments f (before ++ [arg.2]) pending :: outer)) := by
        rw [← hsum]
        rfl
      have hrest := @ih hargs (before ++ [arg.2]) fun h => absurd h (List.cons_ne_nil _ _)
      rw [List.map_cons, List.map_cons, List.intercalate_cons_cons, List.append_assoc,
        List.append_assoc, List.singleton_append, hread _ (behind_symbol ',' (by decide) _),
        read_symbol hcomma]
      rw [List.map_cons, List.append_assoc] at hrest
      exact hrest

theorem call (f : ScalarFunction) {args : List (List Lexeme × Formula)}
    (h : ∀ arg ∈ args, Reads 0 arg.1 arg.2) :
    Reads level (.name f.name :: .symbol '(' ::
      ([.symbol ','].intercalate (args.map Prod.fst) ++ [.symbol ')']))
      (.call f (args.map Prod.snd)) := by
  refine of_apply fun pending outer rest _ => ?_
  rw [List.cons_append, List.cons_append, read_call, List.append_assoc]
  exact arguments h fun _ => rfl

end Reads

/-- **What the grammar derives is what is read.** -/
theorem Parses.reads (h : Parses level a e) : Reads level a e := by
  induction h with
  | numeral text => exact .of_apply fun _ _ _ hrest => read_operand rfl hrest
  | name text => exact .of_apply fun _ _ _ hrest => read_operand rfl hrest
  | enclosed _ ih => exact ih.enclosed
  | call f _ ih => exact .call f ih
  | negation _ ih => exact ih.negation
  | binary op _ _ ihl ihr => exact ihl.binary op ihr
  | weaken _ ih => exact ih.weaken

/-- **The grammar is unambiguous.** -/
theorem Parses.unique (h : Parses level a e) (h' : Parses level' a e') : e = e' := by
  obtain ⟨last, sum, hread, hsum, -⟩ := h.reads {} [] (admits_start level)
  obtain ⟨last', sum', hread', hsum', -⟩ := h'.reads {} [] (admits_start level')
  have hsame := (hread [] behind_nil).symm.trans (hread' [] behind_nil)
  obtain ⟨rfl, rfl, -⟩ := Calculation.behind.inj (Option.some.inj hsame)
  exact hsum.symm.trans hsum'

end Formula

end Clifford
