import Clifford.Scalar

/-!
# Tokens of listings

The line of a listing is read as words and symbols. A symbol stands by itself where no word has
begun; inside of a word, the same character belongs to the word, as the minus in `1e-7` does.

## Main definitions

- `Token` — a word, the opening of a call, or a symbol
- `Token.scan` — the tokens of a text
- `Token.IsWord` — a text that is one word
- `Token.Lexes` — a text that has the same tokens wherever it stands in a line

## Main results

- `Token.Lexes.word` — a word is one token
- `Token.Lexes.spaced`, `Token.Lexes.separated`, `Token.Lexes.enclosed`, `Token.Lexes.prefixed`,
  `Token.Lexes.call` — the tokens of texts that are put together
-/

namespace Clifford

/-- The smallest part of a line that has a meaning. -/
inductive Token where
  /-- A name, a number or a keyword. -/
  | word (text : String)
  /-- The name of a function with the parenthesis behind it. -/
  | call (name : String)
  /-- A character that is no part of a word. -/
  | symbol (char : Char)
  deriving DecidableEq, Repr

namespace Token

/-- The characters behind which a new word begins. -/
def closers : List Char := [' ', ')', ',', ';']

/-- The characters that no word begins with. -/
def operators : List Char := ['+', '-', '*', '/', '=']

/-- The token of a word, unless it is empty. -/
def ofWord (word : List Char) : List Token :=
  if word.isEmpty then [] else [.word (String.ofList word)]

/-- The token of an opening parenthesis behind a word, which may be empty. -/
def opening (word : List Char) : Token :=
  if word.isEmpty then .symbol '(' else .call (String.ofList word)

/-- The tokens of a text, after the beginning of a word was read. -/
def scan (word : List Char) : List Char → List Token
  | [] => ofWord word
  | c :: rest =>
    if c = '(' then opening word :: scan [] rest
    else if c = ' ' then ofWord word ++ scan [] rest
    else if c ∈ closers then ofWord word ++ .symbol c :: scan [] rest
    else if word.isEmpty ∧ c ∈ operators then .symbol c :: scan [] rest
    else scan (word ++ [c]) rest

/-- The character may stand inside of a word. -/
def IsInner (c : Char) : Prop := c ≠ '(' ∧ c ≠ '\n' ∧ c ∉ closers

instance (c : Char) : Decidable (IsInner c) := inferInstanceAs (Decidable (_ ∧ _ ∧ _))

/-- The text is one word: it does not begin with an operator, and nothing in it ends a word or a
line. -/
def IsWord (text : String) : Prop :=
  text.toList ≠ [] ∧ text.toList.head? ∉ operators.map some ∧ ∀ c ∈ text.toList, IsInner c

instance (text : String) : Decidable (IsWord text) :=
  -- looks at the characters of the text only, never at all characters
  let _ : Decidable (∀ c ∈ text.toList, IsInner c) := List.decidableBAll _ _
  inferInstanceAs (Decidable (_ ∧ _ ∧ _))

/-- The text has the given tokens, wherever it stands in a line at the beginning of a word and
before the end of one. -/
structure Lexes (text : String) (tokens : List Token) : Prop where
  /-- The text stays on one line. -/
  unbroken : '\n' ∉ text.toList
  /-- What is behind the text does not change its tokens. -/
  scan_append : ∀ c ∈ closers, ∀ rest,
    scan [] (text.toList ++ c :: rest) = tokens ++ scan [] (c :: rest)

variable {s t text : String} {a b : List Token} {c : Char}

/-! ### Scanning -/

theorem scan_space (rest : List Char) : scan [] (' ' :: rest) = scan [] rest := rfl

theorem scan_closer (hc : c ∈ closers) (hspace : c ≠ ' ') (rest : List Char) :
    scan [] (c :: rest) = .symbol c :: scan [] rest := by
  have hopening : c ≠ '(' := by
    rintro rfl
    revert hc
    decide
  rw [scan, if_neg hopening, if_neg hspace, if_pos hc]
  rfl

/-- An operator where no word has begun. -/
theorem scan_operator (hc : c ∈ operators) (rest : List Char) :
    scan [] (c :: rest) = .symbol c :: scan [] rest := by
  have hother : ∀ c ∈ operators, c ≠ '(' ∧ c ≠ ' ' ∧ c ∉ closers := by
    simp [operators, closers]
  obtain ⟨hopening, hspace, hcloser⟩ := hother c hc
  rw [scan, if_neg hopening, if_neg hspace, if_neg hcloser, if_pos ⟨rfl, hc⟩]

theorem scan_inner {begun : List Char} (hc : IsInner c) (hword : begun ≠ [] ∨ c ∉ operators)
    (rest : List Char) : scan begun (c :: rest) = scan (begun ++ [c]) rest := by
  obtain ⟨hopening, -, hcloser⟩ := hc
  have hspace : c ≠ ' ' := by
    rintro rfl
    exact hcloser (by decide)
  have hno : ¬ (begun.isEmpty ∧ c ∈ operators) := fun h =>
    hword.elim (fun hne => hne (List.isEmpty_iff.1 h.1)) fun hnot => hnot h.2
  rw [scan, if_neg hopening, if_neg hspace, if_neg hcloser, if_neg hno]

/-- The rest of a word that was begun. -/
theorem scan_word {begun more : List Char} (hbegun : begun ≠ []) (hmore : ∀ c ∈ more, IsInner c)
    (rest : List Char) : scan begun (more ++ rest) = scan (begun ++ more) rest := by
  induction more generalizing begun with
  | nil => rw [List.append_nil, List.nil_append]
  | cons c more ih =>
    obtain ⟨hc, hmore⟩ := List.forall_mem_cons.1 hmore
    have hne : begun ++ [c] ≠ [] := List.append_ne_nil_of_right_ne_nil begun (List.cons_ne_nil c [])
    rw [List.cons_append, scan_inner hc (.inl hbegun), ih hne hmore, List.append_assoc]
    rfl

theorem IsWord.scan_append (h : IsWord text) (rest : List Char) :
    scan [] (text.toList ++ rest) = scan text.toList rest := by
  obtain ⟨hne, hhead, hmem⟩ := h
  generalize text.toList = word at hne hhead hmem
  cases word with
  | nil => exact absurd rfl hne
  | cons c more =>
    obtain ⟨hc, hmore⟩ := List.forall_mem_cons.1 hmem
    have hoperator : c ∉ operators := fun hc => hhead (List.mem_map_of_mem hc)
    rw [List.cons_append, scan_inner hc (.inr hoperator)]
    exact scan_word (List.cons_ne_nil c []) hmore rest

theorem IsWord.isEmpty_eq (h : IsWord text) : text.toList.isEmpty = false :=
  Bool.eq_false_iff.2 fun hempty => h.1 (List.isEmpty_iff.1 hempty)

/-! ### Texts and their tokens -/

namespace Lexes

theorem unbroken_append (hs : '\n' ∉ s.toList) (ht : '\n' ∉ t.toList) :
    '\n' ∉ (s ++ t).toList := by
  rw [String.toList_append, List.mem_append, not_or]
  exact ⟨hs, ht⟩

theorem empty : Lexes "" [] := ⟨List.not_mem_nil, fun _ _ _ => rfl⟩

/-- **A word is one token.** -/
theorem word (h : IsWord text) : Lexes text [.word text] where
  unbroken hmem := (h.2.2 _ hmem).2.1 rfl
  scan_append c hc rest := by
    rw [h.scan_append]
    have hopening : c ≠ '(' := by
      rintro rfl
      revert hc
      decide
    have hword : ofWord text.toList = [.word text] := by
      rw [ofWord, h.isEmpty_eq, String.ofList_toList]
      rfl
    by_cases hspace : c = ' '
    · rw [scan, if_neg hopening, if_pos hspace, hspace, scan_space, hword]
    · rw [scan_closer hc hspace, scan, if_neg hopening, if_neg hspace, if_pos hc, hword]

/-- An operator at the beginning of a word. -/
theorem prefixed (hc : c ∈ operators) (hs : Lexes s a) :
    Lexes (String.singleton c ++ s) (.symbol c :: a) where
  unbroken := by
    refine unbroken_append (fun hmem => ?_) hs.unbroken
    rw [String.toList_singleton, List.mem_singleton] at hmem
    subst hmem
    revert hc
    decide
  scan_append d hd rest := by
    have hoperator : (String.singleton c ++ s).toList ++ d :: rest =
        c :: (s.toList ++ d :: rest) := by simp
    rw [hoperator, scan_operator hc, hs.scan_append d hd, List.cons_append]

theorem operator (hc : c ∈ operators) : Lexes (String.singleton c) [.symbol c] := by
  have hprefixed := prefixed hc empty
  rwa [String.append_empty] at hprefixed

theorem spaced (hs : Lexes s a) (ht : Lexes t b) : Lexes (s ++ " " ++ t) (a ++ b) where
  unbroken := unbroken_append (unbroken_append hs.unbroken (by decide)) ht.unbroken
  scan_append c hc rest := by
    have hspace : (s ++ " " ++ t).toList ++ c :: rest =
        s.toList ++ ' ' :: (t.toList ++ c :: rest) := by simp
    rw [hspace, hs.scan_append ' ' (by decide), scan_space, ht.scan_append c hc, List.append_assoc]

/-- Operands of a call stand behind each other with a comma. -/
theorem separated (hs : Lexes s a) (ht : Lexes t b) :
    Lexes (s ++ ", " ++ t) (a ++ .symbol ',' :: b) where
  unbroken := unbroken_append (unbroken_append hs.unbroken (by decide)) ht.unbroken
  scan_append c hc rest := by
    have hcomma : (s ++ ", " ++ t).toList ++ c :: rest =
        s.toList ++ ',' :: ' ' :: (t.toList ++ c :: rest) := by simp
    rw [hcomma, hs.scan_append ',' (by decide), scan_closer (by decide) (by decide), scan_space,
      ht.scan_append c hc, List.append_assoc]
    rfl

theorem enclosed (hs : Lexes s a) :
    Lexes ("(" ++ s ++ ")") (.symbol '(' :: (a ++ [.symbol ')'])) where
  unbroken := unbroken_append (unbroken_append (by decide) hs.unbroken) (by decide)
  scan_append c _ rest := by
    have hparentheses : ("(" ++ s ++ ")").toList ++ c :: rest =
        '(' :: (s.toList ++ ')' :: c :: rest) := by simp
    have hopening : ∀ more, scan [] ('(' :: more) = .symbol '(' :: scan [] more := fun _ => rfl
    rw [hparentheses, hopening, hs.scan_append ')' (by decide),
      scan_closer (by decide) (by decide), List.cons_append, List.append_assoc]
    rfl

/-- The name of a function belongs to the parenthesis behind it. -/
theorem call (h : IsWord text) (hs : Lexes s a) :
    Lexes (text ++ "(" ++ s ++ ")") (.call text :: (a ++ [.symbol ')'])) where
  unbroken := unbroken_append (unbroken_append
    (unbroken_append (Lexes.word h).unbroken (by decide)) hs.unbroken) (by decide)
  scan_append c _ rest := by
    have hparentheses : (text ++ "(" ++ s ++ ")").toList ++ c :: rest =
        text.toList ++ '(' :: (s.toList ++ ')' :: c :: rest) := by simp
    have hopening : opening text.toList = .call text := by
      rw [opening, h.isEmpty_eq, String.ofList_toList]
      rfl
    rw [hparentheses, h.scan_append, scan, if_pos rfl, hopening, hs.scan_append ')' (by decide),
      scan_closer (by decide) (by decide), List.cons_append, List.append_assoc]
    rfl

/-- The tokens of a line that ends with a semicolon. -/
theorem line (hs : Lexes s a) : scan [] (s ++ ";").toList = a ++ [.symbol ';'] := by
  have hsemicolon : (s ++ ";").toList = s.toList ++ ';' :: [] := by simp
  rw [hsemicolon, hs.scan_append ';' (by decide), scan_closer (by decide) (by decide)]
  rfl

end Lexes

end Token

end Clifford
