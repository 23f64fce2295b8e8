import Clifford.Scalar

/-!
# Lexing of formulas

A formula is cut into names, numerals and symbols, each as long as possible. Blanks between them
have no meaning. A sign belongs to a numeral only behind the letter of an exponent, so `1e-7` is one
numeral and `a-7` is not one name.

## Main definitions

- `Lexeme` — a name, a numeral or a symbol
- `Lexeme.lex` — the lexemes of a text
- `Lexeme.IsName`, `Lexeme.IsNumeral` — a text that is one name, and one that is one numeral
- `Lexeme.Cuts` — a text that has the same lexemes wherever it stands in a formula

## Main results

- `Lexeme.IsWord.cuts` — a word is one lexeme
- `Lexeme.Cuts.prefixed`, `Lexeme.Cuts.operator`, `Lexeme.Cuts.separated`, `Lexeme.Cuts.enclosed`,
  `Lexeme.Cuts.call` — the lexemes of texts that are put together

## Design notes

The tokens of a listing are words between blanks and brackets, which is enough to read what a
listing writes. Lexemes are those of usual formulas, in which no blank has to stand beside an
operator.
-/

namespace Clifford

/-- The smallest part of a formula that has a meaning. -/
inductive Lexeme where
  /-- A number, which begins with a digit. -/
  | numeral (text : String)
  /-- The name of a variable or of a function. -/
  | name (text : String)
  /-- A character that stands by itself. -/
  | symbol (char : Char)
  deriving DecidableEq, Repr

namespace Lexeme

/-! ### Words -/

/-- The characters of names: letters, digits, underscores, and all that are not ASCII. -/
def isNameChar (c : Char) : Bool := c.isAlphanum || c == '_' || 128 ≤ c.toNat

/-- Whether a numeral goes on with a character: its point, or a sign of its exponent. -/
def isNumeralChar (word : List Char) (c : Char) : Bool :=
  word.head?.any Char.isDigit &&
    (c == '.' || (c == '+' || c == '-') && word.getLast?.any fun last => last == 'e' || last == 'E')

/-- Whether a word goes on with a character. The empty word is one that has not begun. -/
def continues (word : List Char) (c : Char) : Bool := isNameChar c || isNumeralChar word c

/-- The characters go on with a word, one after the other. -/
def Continued (word : List Char) : List Char → Prop
  | [] => True
  | c :: rest => continues word c = true ∧ Continued (word ++ [c]) rest

instance decidableContinued : (word rest : List Char) → Decidable (Continued word rest)
  | _, [] => .isTrue trivial
  | word, c :: rest =>
    have := decidableContinued (word ++ [c]) rest
    inferInstanceAs (Decidable (_ ∧ _))

/-- Whether a text begins with a digit. -/
def startsWithDigit (text : String) : Bool := text.toList.head?.any Char.isDigit

/-- The text is one word: each of its characters goes on with those before it. -/
def IsWord (text : String) : Prop := text ≠ "" ∧ Continued [] text.toList

instance (text : String) : Decidable (IsWord text) := inferInstanceAs (Decidable (_ ∧ _))

/-- The text is a name. -/
def IsName (text : String) : Prop := IsWord text ∧ startsWithDigit text = false

instance (text : String) : Decidable (IsName text) := inferInstanceAs (Decidable (_ ∧ _))

/-- The text is a numeral. -/
def IsNumeral (text : String) : Prop := IsWord text ∧ startsWithDigit text = true

instance (text : String) : Decidable (IsNumeral text) := inferInstanceAs (Decidable (_ ∧ _))

/-- The lexeme of a word. -/
def ofWord (word : String) : Lexeme := if startsWithDigit word then .numeral word else .name word

/-! ### Lexing -/

/-- Puts the lexeme of a word that has ended before others. Nothing is the lexeme of no word. -/
def ended (word : List Char) (rest : List Lexeme) : List Lexeme :=
  if word.isEmpty then rest else ofWord (String.ofList word) :: rest

/-- The lexemes of a text, after the beginning of a word was read. -/
def lexFrom (word : List Char) : List Char → List Lexeme
  | [] => ended word []
  | c :: rest =>
    if continues word c then lexFrom (word ++ [c]) rest
    else if c.isWhitespace then ended word (lexFrom [] rest)
    else ended word (.symbol c :: lexFrom [] rest)

/-- The lexemes of a text. -/
def lex (text : String) : List Lexeme := lexFrom [] text.toList

/-- The characters that end every word. -/
def closers : List Char := [' ', '(', ')', ',']

/-- Nothing goes on with a word that stands before the characters. -/
def Closed (rest : List Char) : Prop := ∀ c ∈ rest.head?, c ∈ closers

/-- The text has the lexemes `lexemes`, whatever stands behind it. -/
def Cuts (text : String) (lexemes : List Lexeme) : Prop :=
  ∀ rest, Closed rest → lexFrom [] (text.toList ++ rest) = lexemes ++ lexFrom [] rest

variable {word rest : List Char} {s t text : String} {a b : List Lexeme} {c : Char}

theorem closed_nil : Closed [] := nofun

theorem closed_cons (hc : c ∈ closers) : Closed (c :: rest) := by
  rintro d ⟨⟩
  exact hc

theorem continues_closer (hc : c ∈ closers) : continues word c = false := by
  have hall : closers.all (fun c => !isNameChar c && c != '.' && c != '+' && c != '-') = true := by
    decide
  have hother : ((isNameChar c = false ∧ c ≠ '.') ∧ c ≠ '+') ∧ c ≠ '-' := by
    simpa using List.all_eq_true.1 hall c hc
  simp [continues, isNumeralChar, hother]

/-- A word ends before a character that does not go on with it. -/
theorem lexFrom_closed (h : Closed rest) : lexFrom word rest = ended word (lexFrom [] rest) := by
  cases rest with
  | nil => rfl
  | cons c rest =>
    have hc : ∀ word, continues word c = false := fun word => continues_closer (h c rfl)
    rw [lexFrom, lexFrom, hc, hc]
    cases c.isWhitespace <;> rfl

theorem lexFrom_continued (h : Continued word text.toList) :
    lexFrom word (text.toList ++ rest) = lexFrom (word ++ text.toList) rest := by
  generalize text.toList = chars at h
  induction chars generalizing word with
  | nil => rw [List.append_nil, List.nil_append]
  | cons c chars ih =>
    rw [List.cons_append, lexFrom, if_pos h.1, ih h.2, List.append_assoc]
    rfl

/-- **A word is one lexeme.** -/
theorem IsWord.cuts (h : IsWord text) : Cuts text [ofWord text] := by
  intro rest hrest
  have hne : text.toList.isEmpty = false := by
    simpa [List.isEmpty_iff] using h.1
  rw [lexFrom_continued h.2, List.nil_append, lexFrom_closed hrest, ended, hne,
    String.ofList_toList]
  rfl

theorem IsName.cuts (h : IsName text) : Cuts text [.name text] := by
  have hcuts := h.1.cuts
  rwa [ofWord, h.2] at hcuts

theorem IsNumeral.cuts (h : IsNumeral text) : Cuts text [.numeral text] := by
  have hcuts := h.1.cuts
  rwa [ofWord, h.2] at hcuts

/-- A sign goes on with an exponent, but not with a name. -/
example : lex "e-1e-7" = [.name "e", .symbol '-', .numeral "1e-7"] := by decide

/-! ### Texts that are put together -/

theorem lexFrom_blank : lexFrom [] (' ' :: rest) = lexFrom [] rest := rfl

/-- The characters that are symbols wherever no word has begun. -/
def symbols : List Char := ['+', '-', '*', '/', '(', ')', ',']

theorem lexFrom_symbol (hc : c ∈ symbols) :
    lexFrom [] (c :: rest) = .symbol c :: lexFrom [] rest := by
  have hall : symbols.all (fun c => !continues [] c && !c.isWhitespace) = true := by decide
  have hsymbol : continues [] c = false ∧ c.isWhitespace = false := by
    simpa using List.all_eq_true.1 hall c hc
  rw [lexFrom, hsymbol.1, hsymbol.2]
  rfl

namespace Cuts

theorem empty : Cuts "" [] := fun _ _ => rfl

/-- The lexemes of a text by itself. -/
theorem lex_eq (h : Cuts text a) : lex text = a := by
  have hnil : lexFrom [] [] = [] := rfl
  have hend := h [] closed_nil
  rwa [hnil, List.append_nil, List.append_nil] at hend

theorem prefixed (hc : c ∈ symbols) (hs : Cuts s a) :
    Cuts (String.singleton c ++ s) (.symbol c :: a) := by
  intro rest hrest
  have htext : (String.singleton c ++ s).toList ++ rest = c :: (s.toList ++ rest) := by simp
  rw [htext, lexFrom_symbol hc, hs rest hrest, List.cons_append]

/-- A symbol between two texts, with blanks around it. -/
theorem operator (hc : c ∈ symbols) (hs : Cuts s a) (ht : Cuts t b) :
    Cuts (s ++ " " ++ String.singleton c ++ " " ++ t) (a ++ .symbol c :: b) := by
  intro rest hrest
  have htext : (s ++ " " ++ String.singleton c ++ " " ++ t).toList ++ rest =
      s.toList ++ ' ' :: c :: ' ' :: (t.toList ++ rest) := by simp
  rw [htext, hs _ (closed_cons (by decide)), lexFrom_blank, lexFrom_symbol hc, lexFrom_blank,
    ht rest hrest, List.append_assoc, List.cons_append]

/-- Arguments stand behind each other with a comma. -/
theorem separated (hs : Cuts s a) (ht : Cuts t b) :
    Cuts (s ++ ", " ++ t) (a ++ .symbol ',' :: b) := by
  intro rest hrest
  have htext : (s ++ ", " ++ t).toList ++ rest =
      s.toList ++ ',' :: ' ' :: (t.toList ++ rest) := by simp
  rw [htext, hs _ (closed_cons (by decide)), lexFrom_symbol (by decide), lexFrom_blank,
    ht rest hrest, List.append_assoc, List.cons_append]

theorem enclosed (hs : Cuts s a) :
    Cuts ("(" ++ s ++ ")") (.symbol '(' :: (a ++ [.symbol ')'])) := by
  intro rest _
  have htext : ("(" ++ s ++ ")").toList ++ rest = '(' :: (s.toList ++ ')' :: rest) := by simp
  rw [htext, lexFrom_symbol (by decide), hs _ (closed_cons (by decide)),
    lexFrom_symbol (by decide), List.cons_append, List.append_assoc]
  rfl

/-- A name with arguments in parentheses behind it. -/
theorem call (ht : IsName t) (hs : Cuts s a) :
    Cuts (t ++ "(" ++ s ++ ")") (.name t :: .symbol '(' :: (a ++ [.symbol ')'])) := by
  intro rest hrest
  have htext : (t ++ "(" ++ s ++ ")").toList ++ rest =
      t.toList ++ '(' :: (s.toList ++ ')' :: rest) := by simp
  rw [htext, ht.cuts _ (closed_cons (by decide)), lexFrom_symbol (by decide),
    hs _ (closed_cons (by decide)), lexFrom_symbol (by decide)]
  simp

end Cuts

end Lexeme

end Clifford
