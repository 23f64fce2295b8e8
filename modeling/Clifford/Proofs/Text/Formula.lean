import Clifford.Proofs.Number.Exact
import Clifford.Proofs.Text.Tokens
import Clifford.Script.Vocabulary
import Mathlib.Algebra.Group.Basic
import Mathlib.Data.List.Forall2

/-!
# Values of formulas

Formulas are evaluated while they are read, from left to right and without going back. What is
before an operand is kept as a change of sign, a product and a sum that wait for it; products bind
more strongly than sums, and operators of one strength act from left to right.

## Main definitions

- `Pending` — what waits for an operand
- `Calculation` — how far a formula was read
- `Calculation.step`, `Calculation.evaluate` — reads one token, and a formula with the semicolon
  behind it
- `Denotes` — a text has a value in places of a given strength

## Main results

- `Denotes.binary`, `Denotes.negated`, `Denotes.enclosed`, `Denotes.call` — the values of formulas
  that are put together
- `Denotes.sum`, `Denotes.product` — operands side by side

## Design notes

The text of a sum shows no parentheses around operands that are sums, so it is read in another
order than the one in which it was put together. A place of a given strength is one in which this
makes no difference to operators of that strength.
-/

namespace Clifford

variable {K : Type}

/-- How strongly an operator binds. -/
def Operator.strength : Operator → Nat
  | .add | .sub => 1
  | .mul | .div => 2

/-- The character of an operator. -/
def Operator.char : Operator → Char
  | .add => '+'
  | .sub => '-'
  | .mul => '*'
  | .div => '/'

theorem Operator.token_eq (op : Operator) : op.token = String.singleton op.char := by
  cases op <;> decide

theorem Operator.char_mem (op : Operator) : op.char ∈ Token.operators := by
  cases op <;> decide

/-- What waits for an operand. Its sign is changed first, then it is multiplied, and then added. -/
structure Pending (K : Type) where
  /-- What the finished product is added to. -/
  sum : K → K := id
  /-- What the operand is multiplied to. -/
  product : K → K := id
  /-- The signs before the operand. -/
  sign : K → K := id

/-- A parenthesis that is open. -/
inductive Enclosure (K : Type) where
  /-- A parenthesis around an operand. -/
  | operand (pending : Pending K)
  /-- The arguments of a function, of which several may have been read. -/
  | arguments (f : ScalarFunction) (args : List K) (pending : Pending K)

/-- How far a formula was read. -/
inductive Calculation (K : Type) where
  /-- An operand comes next. -/
  | before (pending : Pending K) (outer : List (Enclosure K))
  /-- Behind an operand, or behind a product of several. -/
  | behind (x : K) (sum : K → K) (outer : List (Enclosure K))
  /-- Behind the semicolon. -/
  | finished (x : K)

namespace Pending

/-- The calculation behind an operand. -/
def apply (pending : Pending K) (x : K) (outer : List (Enclosure K)) : Calculation K :=
  .behind (pending.product (pending.sign x)) pending.sum outer

variable [Number K]

/-- What waits for the right operand of an operator. -/
def after (op : Operator) (x : K) (sum : K → K) : Pending K :=
  if op.strength = 1 then { sum := op.eval (sum x) } else { sum, product := op.eval x }

/-- An operand may be read where a result of operators of the strength `level` is expected: it makes
no difference whether they act on the operand or on what waits for it. -/
structure Admits (pending : Pending K) (level : Nat) : Prop where
  sign : level ≤ 2 → pending.sign = id
  product : level ≤ 1 → pending.product = id
  products : level ≤ 2 → ∀ op : Operator, op.strength = 2 → ∀ x y,
    pending.product (op.eval x y) = op.eval (pending.product x) y
  sums : level ≤ 1 → ∀ op : Operator, op.strength = 1 → ∀ x y,
    pending.sum (op.eval x y) = op.eval (pending.sum x) y

/-- A formula by itself may be any operand. -/
theorem admits_start (level : Nat) : ({} : Pending K).Admits level :=
  ⟨fun _ => rfl, fun _ => rfl, fun _ _ _ _ _ => rfl, fun _ _ _ _ _ => rfl⟩

/-- What binds more strongly than all operators may stand anywhere. -/
theorem admits_of_lt (pending : Pending K) {level : Nat} (h : 2 < level) : pending.Admits level :=
  ⟨fun hle => absurd h (Nat.not_lt.2 hle), fun hle => absurd h (by omega),
    fun hle => absurd h (Nat.not_lt.2 hle), fun hle => absurd h (by omega)⟩

/-- The right operand of an operator may bind more strongly. -/
theorem admits_after (op : Operator) (x : K) (sum : K → K) :
    (after op x sum).Admits (op.strength + 1) := by
  cases op with
  | add | sub => exact ⟨fun _ => rfl, fun h => absurd h (by decide), fun _ _ _ _ _ => rfl,
      fun h => absurd h (by decide)⟩
  | mul | div => exact admits_of_lt _ (Nat.lt_succ_self 2)

end Pending

namespace Calculation

variable [Number K]

/-- Reads one token. -/
def step (value : String → Option K) : Calculation K → Token → Option (Calculation K)
  | before pending outer, .word text => do
    let x ← value text
    some (pending.apply x outer)
  | before pending outer, .symbol '-' =>
    some (before { pending with sign := fun x => pending.sign (-x) } outer)
  | before pending outer, .symbol '(' => some (before {} (.operand pending :: outer))
  | before pending outer, .call name => do
    let f ← ScalarFunction.named? name
    some (before {} (.arguments f [] pending :: outer))
  | before _ (.arguments f [] pending :: outer), .symbol ')' =>
    some (pending.apply (f.eval []) outer)
  | behind x sum outer, .symbol '+' => some (before (.after .add x sum) outer)
  | behind x sum outer, .symbol '-' => some (before (.after .sub x sum) outer)
  | behind x sum outer, .symbol '*' => some (before (.after .mul x sum) outer)
  | behind x sum outer, .symbol '/' => some (before (.after .div x sum) outer)
  | behind x sum (.operand pending :: outer), .symbol ')' => some (pending.apply (sum x) outer)
  | behind x sum (.arguments f args pending :: outer), .symbol ')' =>
    some (pending.apply (f.eval (args ++ [sum x])) outer)
  | behind x sum (.arguments f args pending :: outer), .symbol ',' =>
    some (before {} (.arguments f (args ++ [sum x]) pending :: outer))
  | behind x sum [], .symbol ';' => some (finished (sum x))
  | _, _ => none

/-- Reads several tokens. -/
def run (value : String → Option K) (c : Calculation K) (tokens : List Token) :
    Option (Calculation K) :=
  tokens.foldlM (step value) c

/-- The value of a formula with a semicolon behind it. -/
def evaluate (value : String → Option K) (tokens : List Token) : Option K :=
  match run value (before {} []) tokens with
  | some (finished x) => some x
  | _ => none

variable {value : String → Option K}

theorem run_append (c : Calculation K) (a b : List Token) :
    run value c (a ++ b) = (run value c a).bind fun c => run value c b :=
  List.foldlM_append

theorem run_cons {c c' : Calculation K} {token : Token} (h : step value c token = some c')
    (rest : List Token) : run value c (token :: rest) = run value c' rest := by
  rw [run, List.foldlM_cons, h]
  rfl

theorem step_operator (op : Operator) (x : K) (sum : K → K) (outer : List (Enclosure K)) :
    step value (behind x sum outer) (.symbol op.char) = some (before (.after op x sum) outer) := by
  cases op <;> rfl

end Calculation

variable [Number K]

/-- **The text has the value `x`** in places of the strength `level`: reading it comes to the same
as reading one operand with that value. In the place of an operand of a sum, only the sum that is left
behind has to be the same, which may have been drawn together in another order. -/
def Denotes (value : String → Option K) (level : Nat) (text : String) (x : K) : Prop :=
  ∃ tokens, Token.Lexes text tokens ∧
    ∀ (pending : Pending K) (outer : List (Enclosure K)), pending.Admits level →
      ∃ y sum, Calculation.run value (.before pending outer) tokens = some (.behind y sum outer) ∧
        sum y = pending.sum (pending.product (pending.sign x)) ∧
        (2 ≤ level → y = pending.product (pending.sign x) ∧ sum = pending.sum)

namespace Denotes

open Calculation

variable {value : String → Option K} {level level' : Nat} {s t : String} {x y : K}

theorem of_apply {tokens : List Token} (hlexes : Token.Lexes s tokens)
    (hrun : ∀ (pending : Pending K) outer,
      run value (.before pending outer) tokens = some (pending.apply x outer)) :
    Denotes value level s x :=
  ⟨tokens, hlexes, fun pending outer _ => ⟨_, _, hrun pending outer, rfl, fun _ => ⟨rfl, rfl⟩⟩⟩

theorem mono (h : Denotes value level s x) (hle : level' ≤ level) : Denotes value level' s x := by
  obtain ⟨tokens, hlexes, hrun⟩ := h
  refine ⟨tokens, hlexes, fun pending outer hadmits => ?_⟩
  have hadmits' : pending.Admits level :=
    ⟨fun h => hadmits.sign (hle.trans h), fun h => hadmits.product (hle.trans h),
      fun h => hadmits.products (hle.trans h), fun h => hadmits.sums (hle.trans h)⟩
  obtain ⟨y, sum, hy, hsum, hsame⟩ := hrun pending outer hadmits'
  exact ⟨y, sum, hy, hsum, fun h => hsame (h.trans hle)⟩

/-- A word stands for its value. -/
theorem word (hs : Token.IsWord s) (hx : value s = some x) : Denotes value level s x := by
  refine of_apply (.word hs) fun pending outer => ?_
  have hstep : step value (.before pending outer) (.word s) = some (pending.apply x outer) := by
    rw [step, hx]
    rfl
  exact run_cons hstep []

theorem negated (h : Denotes value 3 s x) : Denotes value level ("-" ++ s) (-x) := by
  obtain ⟨tokens, hlexes, hrun⟩ := h
  refine of_apply (hlexes.prefixed (c := '-') (by decide)) fun pending outer => ?_
  obtain ⟨y, sum, hy, -, hsame⟩ := hrun { pending with sign := fun x => pending.sign (-x) } outer
    (Pending.admits_of_lt _ (by decide))
  obtain ⟨rfl, rfl⟩ := hsame (by decide)
  exact (run_cons rfl tokens).trans hy

theorem enclosed (h : Denotes value level s x) :
    Denotes value level' ("(" ++ s ++ ")") x := by
  obtain ⟨tokens, hlexes, hrun⟩ := h
  refine of_apply hlexes.enclosed fun pending outer => ?_
  obtain ⟨y, sum, hy, hsum, -⟩ := hrun {} (.operand pending :: outer) (Pending.admits_start level)
  have hopen : step value (.before pending outer) (.symbol '(') =
      some (.before {} (.operand pending :: outer)) := rfl
  rw [run_cons hopen, run_append, hy, Option.bind_some]
  have hclose : step value (.behind y sum (.operand pending :: outer)) (.symbol ')') =
      some (pending.apply x outer) := congrArg (fun x => some (pending.apply x outer)) hsum
  exact run_cons hclose []

/-- **An operator between two formulas.** The right one stands in a place that what waits for the
right operand admits. -/
theorem operator {op : Operator} (hs : Denotes value op.strength s x)
    (ht : Denotes value level t y) (hlevel : op.strength ≤ level)
    (hadmits : ∀ z sum, (Pending.after op z sum : Pending K).Admits level) :
    Denotes value op.strength (s ++ " " ++ op.token ++ " " ++ t) (op.eval x y) := by
  obtain ⟨left, hleft, hrunLeft⟩ := hs
  obtain ⟨right, hright, hrunRight⟩ := ht
  have hlexes := (hleft.spaced (.operator op.char_mem)).spaced hright
  rw [← op.token_eq] at hlexes
  refine ⟨_, hlexes, fun pending outer hp => ?_⟩
  obtain ⟨y₁, sum₁, hy₁, hsum₁, hsame₁⟩ := hrunLeft pending outer hp
  obtain ⟨y₂, sum₂, hy₂, hsum₂, hsame₂⟩ := hrunRight _ outer (hadmits y₁ sum₁)
  have hrun : run value (.before pending outer) (left ++ [.symbol op.char] ++ right) =
      some (.behind y₂ sum₂ outer) := by
    rw [run_append, run_append, hy₁, Option.bind_some, run_cons (step_operator op y₁ sum₁ outer)]
    exact hy₂
  have hstrength : op.strength = 1 ∨ op.strength = 2 := by cases op <;> simp [Operator.strength]
  rcases hstrength with hone | htwo
  · -- What is before the operator was a sum, and is now added up.
    refine ⟨y₂, sum₂, hrun, ?_, fun h => absurd (hone ▸ h) (by decide)⟩
    rw [hone] at hp
    have hafter : Pending.after op y₁ sum₁ = { sum := op.eval (sum₁ y₁) } := if_pos hone
    rw [hafter] at hsum₂
    rw [hsum₂, hsum₁, hp.sign (by decide), hp.product (by decide)]
    exact (hp.sums (by decide) op hone x y).symm
  · have hafter : Pending.after op y₁ sum₁ = { sum := sum₁, product := op.eval y₁ } :=
      if_neg (by rw [htwo]; decide)
    rw [htwo] at hp
    obtain ⟨rfl, rfl⟩ := hsame₁ (htwo ▸ le_rfl)
    obtain ⟨rfl, rfl⟩ := hsame₂ (htwo ▸ hlevel)
    have hproduct : (Pending.after op (pending.product (pending.sign x)) pending.sum).product
        ((Pending.after op (pending.product (pending.sign x)) pending.sum).sign y) =
          pending.product (pending.sign (op.eval x y)) := by
      rw [hafter, hp.sign (by decide)]
      exact (hp.products (by decide) op htwo x y).symm
    refine ⟨_, _, hrun, ?_, fun _ => ⟨hproduct, by rw [hafter]⟩⟩
    rw [hproduct, hafter]

/-- The operands of a binary operator, of which the right one binds more strongly. -/
theorem binary (op : Operator) (hs : Denotes value op.strength s x)
    (ht : Denotes value (op.strength + 1) t y) :
    Denotes value op.strength (s ++ " " ++ op.token ++ " " ++ t) (op.eval x y) :=
  operator hs ht (Nat.le_succ _) (Pending.admits_after op)

/-- Operands side by side, which are put together from the right and read from the left. -/
theorem chain (op : Operator) {separator : String} {total : List K → K}
    (hseparator : separator = " " ++ op.token ++ " ")
    (hadmits : ∀ z sum, (Pending.after op z sum : Pending K).Admits op.strength)
    (hsingle : ∀ x, total [x] = x) (htotal : ∀ x xs, total (x :: xs) = op.eval x (total xs))
    {texts : List String} {xs : List K}
    (h : List.Forall₂ (Denotes value op.strength) texts xs) (hne : texts ≠ []) :
    Denotes value op.strength (separator.intercalate texts) (total xs) := by
  induction h with
  | nil => exact absurd rfl hne
  | @cons s x texts xs hs hrest ih =>
    cases hrest with
    | nil =>
      rw [String.intercalate_singleton, hsingle]
      exact hs
    | cons ht hrest =>
      rw [String.intercalate_cons_cons, htotal, hseparator, ← String.append_assoc,
        ← String.append_assoc, ← hseparator]
      exact operator hs (ih (List.cons_ne_nil _ _)) le_rfl hadmits

/-- **The arguments of a function.** -/
theorem call (f : ScalarFunction) {texts : List String} {xs : List K}
    (h : List.Forall₂ (Denotes value 0) texts xs) :
    Denotes value level (f.name ++ "(" ++ ", ".intercalate texts ++ ")") (f.eval xs) := by
  have hargs : ∃ tokens, Token.Lexes (", ".intercalate texts) tokens ∧
      ∀ args (pending : Pending K) outer, (texts = [] → args = []) →
        run value (.before {} (.arguments f args pending :: outer)) (tokens ++ [.symbol ')']) =
          some (pending.apply (f.eval (args ++ xs)) outer) := by
    have hadmits : Pending.Admits ({} : Pending K) 0 := Pending.admits_start 0
    induction h with
    | nil =>
      refine ⟨[], .empty, fun args pending outer hnone => ?_⟩
      rw [hnone rfl]
      rfl
    | @cons s x texts xs hs hrest ih =>
      obtain ⟨first, hfirst, hrunFirst⟩ := hs
      cases hrest with
      | nil =>
        refine ⟨first, by rwa [String.intercalate_singleton], fun args pending outer _ => ?_⟩
        obtain ⟨y, sum, hy, hsum, -⟩ := hrunFirst {} (.arguments f args pending :: outer) hadmits
        rw [run_append, hy]
        exact congrArg (fun x => some (pending.apply (f.eval (args ++ [x])) outer)) hsum
      | cons ht hrest =>
        obtain ⟨others, hothers, hrunOthers⟩ := ih
        refine ⟨first ++ .symbol ',' :: others, ?_, fun args pending outer _ => ?_⟩
        · rw [String.intercalate_cons_cons]
          exact hfirst.separated hothers
        · obtain ⟨y, sum, hy, hsum, -⟩ := hrunFirst {} (.arguments f args pending :: outer) hadmits
          have hcomma : step value (.behind y sum (.arguments f args pending :: outer))
              (.symbol ',') = some (.before {} (.arguments f (args ++ [x]) pending :: outer)) :=
            congrArg (fun x => some (before {} (.arguments f (args ++ [x]) pending :: outer))) hsum
          rw [List.append_assoc, run_append, hy, Option.bind_some, List.cons_append,
            run_cons hcomma, hrunOthers _ pending outer fun h => absurd h (List.cons_ne_nil _ _),
            List.append_assoc]
          rfl
  obtain ⟨tokens, hlexes, hrun⟩ := hargs
  have hname : Token.IsWord f.name := by cases f <;> decide
  refine of_apply (hlexes.call hname) fun pending outer => ?_
  have hopen : step value (.before pending outer) (.call f.name) =
      some (.before {} (.arguments f [] pending :: outer)) := by
    rw [step, ScalarFunction.named?_name]
    rfl
  rw [run_cons hopen]
  exact hrun [] pending outer fun _ => rfl

/-- The value of a formula with a semicolon behind it. -/
theorem evaluate_eq (h : Denotes value 0 s x) :
    ∃ tokens, Token.Lexes s tokens ∧ evaluate value (tokens ++ [.symbol ';']) = some x := by
  obtain ⟨tokens, hlexes, hrun⟩ := h
  obtain ⟨y, sum, hy, hsum, -⟩ := hrun {} [] (Pending.admits_start 0)
  refine ⟨tokens, hlexes, ?_⟩
  rw [evaluate, run_append, hy, Option.bind_some]
  exact congrArg some hsum

variable [ExactNumber K]

/-- **The operands of a sum stand side by side.** -/
theorem sum {texts : List String} {xs : List K} (h : List.Forall₂ (Denotes value 1) texts xs)
    (hne : texts ≠ []) : Denotes value 1 (" + ".intercalate texts) xs.sum := by
  refine chain .add (by decide) (fun z sum => ⟨fun _ => rfl, fun _ => rfl,
    fun _ _ _ _ _ => rfl, fun _ op hop x y => ?_⟩) (fun x => List.sum_singleton)
    (fun x xs => List.sum_cons) h hne
  change sum z + op.eval x y = op.eval (sum z + x) y
  cases op with
  | add => exact (add_assoc _ x y).symm
  | sub => exact (add_sub_assoc _ x y).symm
  | mul | div => cases hop

/-- **The operands of a product stand side by side**, if a quotient may be multiplied by multiplying
its numerator. -/
theorem product (hdiv : ∀ x y z : K, x * (y / z) = x * y / z) {texts : List String} {xs : List K}
    (h : List.Forall₂ (Denotes value 2) texts xs) (hne : texts ≠ []) :
    Denotes value 2 (" * ".intercalate texts) xs.prod := by
  refine chain .mul (by decide) (fun z sum => ⟨fun _ => rfl, fun h => absurd h (by decide),
    fun _ op hop x y => ?_, fun h => absurd h (by decide)⟩) (fun x => List.prod_singleton)
    (fun x xs => List.prod_cons) h hne
  change z * op.eval x y = op.eval (z * x) y
  cases op with
  | mul => exact (mul_assoc z x y).symm
  | div => exact hdiv z x y
  | add | sub => cases hop

end Denotes

end Clifford
