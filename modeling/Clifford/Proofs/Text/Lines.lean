import Clifford.Proofs.Text.Formula
import Mathlib.Logic.Function.Basic

/-!
# Reading listings

A listing is read line by line. A line declares a name with a value, adds to the value of a name or
subtracts from it, or has no meaning. Whatever a name stood for is forgotten once it is declared.

## Main definitions

- `Scope` — what the names stand for
- `Listing.readLine`, `Listing.read` — the scope after a line, and after a text
- `Listing.IsName` — a text that can be the name of a variable
- `Listing.ReadsBack` — a number whose text is read as the number

## Main results

- `Listing.reads_declare`, `Listing.reads_change` — what lines do
- `Listing.read_join` — lines are read one after the other
-/

namespace Clifford

/-- The values that names stand for. -/
abbrev Scope (K : Type) := String → Option K

namespace Listing

variable {K : Type} [Number K]

/-- Whether a word is a number. -/
def isNumber (word : String) : Bool := word.toList.head?.any Char.isDigit

/-- The value of a word. Words that begin with a digit are numbers; all others are names. -/
def wordValue (literal : String → Option K) (scope : Scope K) (word : String) : Option K :=
  if isNumber word then literal word else scope word

/-- The scope after the tokens of a line. A line without tokens or with a remark does nothing. -/
def readTokens (literal : String → Option K) (scope : Scope K) :
    List Token → Option (Scope K)
  | [] | .symbol '/' :: .symbol '/' :: _ => some scope
  | .word "let" :: .word "mut" :: .word name :: .symbol '=' :: formula
  | .word "let" :: .word name :: .symbol '=' :: formula => do
    let x ← Calculation.evaluate (wordValue literal scope) formula
    some (Function.update scope name (some x))
  | .word name :: .symbol '+' :: .symbol '=' :: formula => do
    let x ← Calculation.evaluate (wordValue literal scope) formula
    let total ← scope name
    some (Function.update scope name (some (total + x)))
  | .word name :: .symbol '-' :: .symbol '=' :: formula => do
    let x ← Calculation.evaluate (wordValue literal scope) formula
    let total ← scope name
    some (Function.update scope name (some (total - x)))
  | _ => none

/-- The scope after a line. -/
def readLine (literal : String → Option K) (scope : Scope K) (line : List Char) :
    Option (Scope K) :=
  readTokens literal scope (Token.scan [] line)

/-- The scope after a text. -/
def read (literal : String → Option K) (scope : Scope K) (text : String) : Option (Scope K) :=
  (text.toList.splitOn '\n').foldlM (readLine literal) scope

/-- The text can be the name of a variable. -/
structure IsName (name : String) : Prop where
  isWord : Token.IsWord name
  isNumber_eq : isNumber name = false

/-- The text of the number is that of a literal with its value, or of a negated one. -/
def ReadsBack [Numeral K] (literal : String → Option K) (x : K) : Prop :=
  ∃ word y, Token.IsWord word ∧ isNumber word = true ∧ literal word = some y ∧
    (Numeral.pointed x = word ∧ x = y ∨ Numeral.pointed x = "-" ++ word ∧ x = -y)

variable {literal : String → Option K} {scope : Scope K} {name formula : String} {x total : K}
  {level : Nat}

theorem denotes_name (hname : IsName name) (hx : scope name = some x) :
    Denotes (wordValue literal scope) level name x := by
  refine .word hname.isWord ?_
  rw [wordValue, hname.isNumber_eq]
  exact hx

theorem denotes_number [Numeral K] (h : ReadsBack literal x) :
    Denotes (wordValue literal scope) level (Numeral.pointed x) x := by
  obtain ⟨word, y, hword, hnumber, hy, h⟩ := h
  have hvalue : wordValue literal scope word = some y := by
    rw [wordValue, hnumber]
    exact hy
  rcases h with ⟨htext, rfl⟩ | ⟨htext, rfl⟩
  · rw [htext]
    exact .word hword hvalue
  · rw [htext]
    exact .negated (.word hword hvalue)

/-! ### Lines -/

/-- The line stays on one line, and takes the scope to another one. -/
structure Reads (literal : String → Option K) (scope : Scope K) (line : String)
    (scope' : Scope K) : Prop where
  unbroken : '\n' ∉ line.toList
  readLine_eq : readLine literal scope line.toList = some scope'

theorem reads_empty : Reads literal scope "" scope := ⟨List.not_mem_nil, rfl⟩

theorem reads_remark {text : String} (h : '\n' ∉ text.toList) :
    Reads literal scope ("// " ++ text) scope where
  unbroken := Token.Lexes.unbroken_append (by decide) h
  readLine_eq := by
    have hslashes : ("// " ++ text).toList = '/' :: '/' :: (' ' :: text.toList) := by simp
    rw [readLine, hslashes, Token.scan_operator (by decide), Token.scan_operator (by decide)]
    rfl

/-- A line that ends with a formula. -/
theorem reads_formula {beginning : String} {tokens : List Token} {scope' : Scope K}
    (hbeginning : Token.Lexes beginning tokens)
    (hformula : Denotes (wordValue literal scope) 0 formula x)
    (hread : ∀ rest, Calculation.evaluate (wordValue literal scope) rest = some x →
      readTokens literal scope (tokens ++ rest) = some scope') :
    Reads literal scope (beginning ++ " " ++ formula ++ ";") scope' := by
  obtain ⟨rest, hlexes, hx⟩ := hformula.evaluate_eq
  have hline := hbeginning.spaced hlexes
  refine ⟨Token.Lexes.unbroken_append hline.unbroken (by decide), ?_⟩
  rw [readLine, hline.line, List.append_assoc]
  exact hread _ hx

theorem lexes_equals : Token.Lexes "=" [.symbol '='] := .operator (c := '=') (by decide)

/-- **A declaration** gives the name a new value. -/
theorem reads_declare (isMutable : Bool) (hname : IsName name)
    (hformula : Denotes (wordValue literal scope) 0 formula x) :
    Reads literal scope
      ((if isMutable then "let mut " else "let ") ++ name ++ " = " ++ formula ++ ";")
      (Function.update scope name (some x)) := by
  have hkeyword : ∀ keyword tokens, Token.Lexes keyword tokens →
      (∀ rest, Calculation.evaluate (wordValue literal scope) rest = some x →
        readTokens literal scope (tokens ++ .word name :: .symbol '=' :: rest) =
          some (Function.update scope name (some x))) →
      Reads literal scope (keyword ++ " " ++ name ++ " = " ++ formula ++ ";")
        (Function.update scope name (some x)) := by
    intro keyword tokens hlexes hread
    have hbeginning := (hlexes.spaced (.word hname.isWord)).spaced lexes_equals
    have htext : keyword ++ " " ++ name ++ " " ++ "=" ++ " " ++ formula ++ ";" =
        keyword ++ " " ++ name ++ " = " ++ formula ++ ";" := by
      rw [← String.toList_inj]
      simp
    refine htext ▸ reads_formula hbeginning hformula fun rest hx => ?_
    rw [List.append_assoc, List.append_assoc]
    exact hread rest hx
  have hlet : Token.Lexes "let" [.word "let"] := .word (by decide)
  have hmut : Token.Lexes "mut" [.word "mut"] := .word (by decide)
  cases isMutable with
  | false => exact hkeyword "let" _ hlet fun rest hx => by simp [readTokens, hx]
  | true => exact hkeyword "let mut" _ (hlet.spaced hmut) fun rest hx => by simp [readTokens, hx]

/-- **A change** of a name that has a value. -/
theorem reads_change (op : Operator) (hop : op.strength = 1) (hname : IsName name)
    (htotal : scope name = some total)
    (hformula : Denotes (wordValue literal scope) 0 formula x) :
    Reads literal scope (name ++ (" " ++ op.token ++ "= ") ++ formula ++ ";")
      (Function.update scope name (some (op.eval total x))) := by
  have hbeginning := (Token.Lexes.word hname.isWord).spaced (lexes_equals.prefixed op.char_mem)
  have hread : Reads literal scope (name ++ " " ++ (String.singleton op.char ++ "=") ++ " " ++
      formula ++ ";") (Function.update scope name (some (op.eval total x))) := by
    refine reads_formula hbeginning hformula fun rest hx => ?_
    cases op with
    | add | sub => simp [Operator.char, readTokens, hx, htotal, Operator.eval]
    | mul | div => cases hop
  have htext : name ++ " " ++ (String.singleton op.char ++ "=") ++ " " ++ formula ++ ";" =
      name ++ (" " ++ op.token ++ "= ") ++ formula ++ ";" := by
    rw [op.token_eq, ← String.toList_inj]
    simp
  exact htext ▸ hread

/-! ### Texts -/

/-- **Lines are read one after the other**, if none of them has a line break. -/
theorem read_join (literal : String → Option K) (scope : Scope K) {lines : List String}
    (h : ∀ line ∈ lines, '\n' ∉ line.toList) :
    read literal scope (String.join (lines.map (· ++ "\n"))) =
      lines.foldlM (fun scope line => readLine literal scope line.toList) scope := by
  have hchars : (String.join (lines.map (· ++ "\n"))).toList =
      ['\n'].intercalate (lines.map String.toList ++ [[]]) := by
    rw [String.toList_join]
    clear h
    induction lines with
    | nil => rfl
    | cons line rest ih =>
      rw [List.map_cons, List.flatMap_cons, ih, List.map_cons, List.cons_append,
        List.intercalate_cons_of_ne_nil (by simp), String.toList_append]
      rfl
  have hsplit : (String.join (lines.map (· ++ "\n"))).toList.splitOn '\n' =
      lines.map String.toList ++ [[]] := by
    rw [hchars]
    refine List.splitOn_intercalate '\n' ?_ (by simp)
    rw [List.forall_mem_append, List.forall_mem_map, List.forall_mem_singleton]
    exact ⟨h, List.not_mem_nil⟩
  rw [read, hsplit, List.foldlM_append, List.foldlM_map]
  exact bind_pure _

end Listing

end Clifford
