import Clifford.Proofs.Number.Rational
import Clifford.Proofs.Text.Lines
import Std.Data.String.ToNat

/-!
# Texts of rationals

Rationals are written as fractions with a decimal point in the numerator, and read back as such.

## Main definitions

- the instance of `Numeral` for the rationals
- `Listing.fraction?` — the value of a fraction

## Main results

- `Listing.readsBack_fraction` — every rational is read back
-/

namespace Clifford

namespace Listing

/-- The text of a fraction. -/
def fraction (numerator denominator : Nat) : String :=
  numerator.repr ++ ".0/" ++ denominator.repr

/-- The value of the text of a fraction. -/
def fraction? (text : String) : Option ℚ :=
  match text.toList.splitOn '.' with
  | [numerator, '0' :: '/' :: denominator] => do
    let n ← (String.ofList numerator).toNat?
    let d ← (String.ofList denominator).toNat?
    some (n / d)
  | _ => none

end Listing

instance : Numeral ℚ where
  plain q := (if q < 0 then "-" else "") ++ Listing.fraction q.num.natAbs q.den
  pointed q := (if q < 0 then "-" else "") ++ Listing.fraction q.num.natAbs q.den

namespace Listing

theorem isDigit_of_mem_repr {n : Nat} {c : Char} (h : c ∈ n.repr.toList) : c.isDigit = true := by
  rw [Nat.toList_repr] at h
  exact Nat.isDigit_of_mem_toDigits (by decide) (by decide) h

theorem toList_fraction (n d : Nat) :
    (fraction n d).toList = n.repr.toList ++ '.' :: '0' :: '/' :: d.repr.toList := by
  simp [fraction]

theorem fraction?_fraction (n d : Nat) : fraction? (fraction n d) = some ((n : ℚ) / d) := by
  have hpoint : ∀ n : Nat, '.' ∉ n.repr.toList := by
    intro n h
    have hdigit := isDigit_of_mem_repr h
    revert hdigit
    decide
  have hparts : (fraction n d).toList =
      ['.'].intercalate [n.repr.toList, '0' :: '/' :: d.repr.toList] := by
    rw [toList_fraction, List.intercalate_cons_cons, List.intercalate_singleton, List.append_assoc]
    rfl
  have hsplit : (fraction n d).toList.splitOn '.' =
      [n.repr.toList, '0' :: '/' :: d.repr.toList] := by
    rw [hparts]
    refine List.splitOn_intercalate '.' ?_ (List.cons_ne_nil _ _)
    rw [List.forall_mem_cons, List.forall_mem_singleton]
    exact ⟨hpoint n, by simpa using hpoint d⟩
  rw [fraction?, hsplit]
  change (do
    let a ← (String.ofList n.repr.toList).toNat?
    let b ← (String.ofList d.repr.toList).toNat?
    some ((a : ℚ) / b)) = _
  rw [String.ofList_toList, String.ofList_toList, Nat.toNat?_repr, Nat.toNat?_repr]
  rfl

/-- The text of a fraction is one word, and begins with a digit. -/
theorem isWord_fraction (n d : Nat) :
    Token.IsWord (fraction n d) ∧ isNumber (fraction n d) = true := by
  have hne : ∀ {c d : Char}, c.isDigit = true → d.isDigit = false → c ≠ d := by
    rintro c d hc hd rfl
    rw [hc] at hd
    cases hd
  have hclosers : ∀ d ∈ Token.closers, d.isDigit = false := by simp [Token.closers]
  have hoperators : ∀ d ∈ Token.operators, d.isDigit = false := by simp [Token.operators]
  have hinner : ∀ c, c.isDigit = true → Token.IsInner c := fun c hc =>
    ⟨hne hc (by decide), hne hc (by decide), fun hmem => hne hc (hclosers c hmem) rfl⟩
  obtain ⟨c, rest, hdigits⟩ := List.exists_cons_of_ne_nil (Nat.toDigits_ne_nil (n := n) (b := 10))
  have hc : c.isDigit = true := isDigit_of_mem_repr (n := n) (by
    rw [Nat.toList_repr, hdigits]
    exact List.mem_cons_self)
  have hhead : (fraction n d).toList.head? = some c := by
    rw [toList_fraction, Nat.toList_repr, hdigits]
    rfl
  refine ⟨⟨?_, ?_, ?_⟩, ?_⟩
  · intro hnil
    rw [hnil] at hhead
    cases hhead
  · rw [hhead]
    intro hmem
    obtain ⟨d, hd, hcd⟩ := List.mem_map.1 hmem
    exact hne hc (hoperators d hd) (Option.some.inj hcd).symm
  · rw [toList_fraction]
    intro e he
    rcases List.mem_append.1 he with he | he
    · exact hinner e (isDigit_of_mem_repr he)
    · simp only [List.mem_cons] at he
      rcases he with rfl | rfl | rfl | he
      · decide
      · decide
      · decide
      · exact hinner e (isDigit_of_mem_repr he)
  · rw [isNumber, hhead]
    exact hc

/-- **Every rational is read back.** -/
theorem readsBack_fraction (q : ℚ) : ReadsBack fraction? q := by
  obtain ⟨hword, hnumber⟩ := isWord_fraction q.num.natAbs q.den
  refine ⟨_, _, hword, hnumber, fraction?_fraction q.num.natAbs q.den, ?_⟩
  change (if q < 0 then "-" else "") ++ _ = _ ∧ _ ∨ (if q < 0 then "-" else "") ++ _ = _ ∧ _
  rw [Nat.cast_natAbs]
  by_cases hneg : q < 0
  · refine .inr ⟨by rw [if_pos hneg], ?_⟩
    rw [abs_of_neg (Rat.num_neg.2 hneg), Int.cast_neg, neg_div, neg_neg, Rat.num_div_den]
  · refine .inl ⟨by rw [if_neg hneg, String.empty_append], ?_⟩
    rw [abs_of_nonneg (Rat.num_nonneg.2 (not_lt.1 hneg)), Rat.num_div_den]

end Listing

end Clifford
