import Clifford.Blade.Naming
import Clifford.Proofs.Blade.Vectors
import Mathlib.Data.List.Sort

/-!
# What the name of a blade tells

The default name of a blade is the letter `e` followed by the numbers of its basis vectors. There
are at most 31 of these, so that their numbers have one digit or two; where one number ends and the
next one begins is not written down. The numbers ascend, which leaves only one way to misread them:
the vectors `x` and `y`, of one digit each, may stand for the vector `10 x + y`, as in `e12`.

## Main definitions

- `numerals` — numbers written one after the other
- `Joins` — one list of numbers arises from another by reading two neighbours as one number
- `Alike` — two lists are equal, or two numbers of one digit are joined in one of them
- `Blade.numbers` — the numbers of the basis vectors of a blade, which start from one
- `Blade.name` — the default name of a blade
- `Blade.RunsTogether` — two vectors of a blade that may be read as one
- `Blade.Ambiguous` — a blade with two such vectors
- `Blade.joined` — the blade in which that one vector takes the place of the two

## Main results

- `alike_of_numerals_eq` — ascending numbers of at most two digits can be told from how they are
  written, unless two of them are joined
- `Blade.eq_or_joined_of_name_eq` — two blades have the same name only if they are equal, or if one
  is the other with two vectors joined
- `Blade.RunsTogether.name_joined` — and then they have
- `Blade.not_ambiguous` — no name is ambiguous over less than twelve vectors
-/

namespace Clifford

/-! ### Numbers without a separator -/

/-- Decimal numbers, written one after the other. -/
def numerals (l : List Nat) : List Char := l.flatMap (Nat.toDigits 10)

@[simp] theorem numerals_nil : numerals [] = [] := rfl

@[simp] theorem numerals_cons (i : Nat) (l : List Nat) :
    numerals (i :: l) = Nat.toDigits 10 i ++ numerals l := List.flatMap_cons

theorem numerals_ne_nil (i : Nat) (l : List Nat) : numerals (i :: l) ≠ [] := by
  rw [numerals_cons]
  exact List.append_ne_nil_of_left_ne_nil Nat.toDigits_ne_nil _

theorem toDigits_ten_injective : Function.Injective (Nat.toDigits 10) := by
  intro i j h
  have hread := congrArg (Nat.ofDigitChars 10 · 0) h
  simpa using hread

theorem length_toDigits_one {i : Nat} (hi : i < 10) : (Nat.toDigits 10 i).length = 1 := by
  rw [Nat.toDigits_of_lt_base hi, List.length_singleton]

theorem length_toDigits_two {i : Nat} (h : 10 ≤ i) (hi : i < 100) :
    (Nat.toDigits 10 i).length = 2 := by
  rw [Nat.toDigits_of_base_le (by decide) h, List.length_append, List.length_singleton,
    length_toDigits_one (by omega)]

theorem length_numerals {l : List Nat} (h : ∀ i ∈ l, 10 ≤ i ∧ i < 100) :
    (numerals l).length = 2 * l.length := by
  induction l with
  | nil => rfl
  | cons i rest ih =>
    obtain ⟨hi, hrest⟩ := List.forall_mem_cons.1 h
    rw [numerals_cons, List.length_append, length_toDigits_two hi.1 hi.2, ih hrest,
      List.length_cons]
    omega

/-! ### Two numbers read as one -/

/-- A list of numbers in which two neighbours `x` and `y` are replaced by the number that is
written like them. -/
inductive Joins (x y : Nat) : List Nat → List Nat → Prop
  | here (l : List Nat) : Joins x y (x :: y :: l) ((10 * x + y) :: l)
  | there (i : Nat) {l l' : List Nat} : Joins x y l l' → Joins x y (i :: l) (i :: l')

namespace Joins

variable {x y : Nat} {l l' : List Nat}

/-- Both lists are written in the same way. -/
theorem numerals_eq (h : Joins x y l l') (hx : 0 < x) (hy : y < 10) : numerals l = numerals l' := by
  induction h with
  | here l =>
    rw [numerals_cons, numerals_cons, numerals_cons, ← List.append_assoc,
      Nat.toDigits_append_toDigits (by decide) hx hy]
  | there i _ ih => rw [numerals_cons, numerals_cons, ih]

theorem mem (h : Joins x y l l') : x ∈ l ∧ y ∈ l ∧ 10 * x + y ∈ l' := by
  induction h with
  | here l => simp
  | there i _ ih =>
    obtain ⟨hx, hy, hxy⟩ := ih
    exact ⟨.tail i hx, .tail i hy, .tail i hxy⟩

/-- The joint number lies between those that come before and after the two. -/
theorem apart (h : Joins x y l l') (hl : l.Pairwise (· < ·)) (hl' : l'.Pairwise (· < ·)) :
    ∀ z ∈ l, z ≤ x ∨ z = y ∨ 10 * x + y < z := by
  induction h with
  | here l =>
    intro z hz
    rw [List.mem_cons, List.mem_cons] at hz
    obtain rfl | rfl | hz := hz
    · exact .inl le_rfl
    · exact .inr (.inl rfl)
    · exact .inr (.inr ((List.pairwise_cons.1 hl').1 z hz))
  | there i h ih =>
    obtain ⟨hi, hl⟩ := List.pairwise_cons.1 hl
    intro z hz
    rw [List.mem_cons] at hz
    obtain rfl | hz := hz
    · exact .inl (hi x h.mem.1).le
    · exact ih hl (List.pairwise_cons.1 hl').2 z hz

/-- Nothing but the two numbers is lost, and nothing but the joint one is new. -/
theorem mem_iff (h : Joins x y l l') (hl : l.Pairwise (· < ·)) (hxy : x < y) {z : Nat} :
    z ∈ l' ↔ z = 10 * x + y ∨ z ∈ l ∧ z ≠ x ∧ z ≠ y := by
  induction h with
  | here l =>
    obtain ⟨hx, hl⟩ := List.pairwise_cons.1 hl
    have hz : z ∈ l → x < z := fun hz => hx z (.tail y hz)
    have hz' : z ∈ l → y < z := (List.pairwise_cons.1 hl).1 z
    simp only [List.mem_cons]
    grind
  | there i h ih =>
    obtain ⟨hi, hl⟩ := List.pairwise_cons.1 hl
    have hix := hi x h.mem.1
    rw [List.mem_cons, List.mem_cons, ih hl]
    grind

/-- If the joint number fits between those before and after the two, then they are neighbours. -/
theorem next_of_apart (hxy : x < y) (hl : (x :: l).Pairwise (· < ·)) (hy : y ∈ l)
    (h : ∀ z ∈ x :: l, z ≤ x ∨ z = y ∨ 10 * x + y < z) :
    ∃ rest, l = y :: rest ∧ ∀ z ∈ rest, 10 * x + y < z := by
  obtain ⟨hx, hl⟩ := List.pairwise_cons.1 hl
  cases l with
  | nil => cases hy
  | cons j rest =>
    obtain ⟨hj, -⟩ := List.pairwise_cons.1 hl
    have hxj := hx j List.mem_cons_self
    have hjy : j ≤ y := by
      obtain rfl | hy := List.mem_cons.1 hy
      · exact le_rfl
      · exact (hj y hy).le
    obtain rfl : j = y := by
      have hcase := h j (.tail x List.mem_cons_self)
      omega
    refine ⟨rest, rfl, fun z hz => ?_⟩
    have hcase := h z (.tail x (.tail j hz))
    have hjz := hj z hz
    omega

/-- Two numbers are joined if the joint number fits between those before and after them. -/
theorem exists_of_apart (hxy : x < y) (hl : l.Pairwise (· < ·)) (hx : x ∈ l) (hy : y ∈ l)
    (h : ∀ z ∈ l, z ≤ x ∨ z = y ∨ 10 * x + y < z) :
    ∃ l', Joins x y l l' ∧ l'.Pairwise (· < ·) := by
  induction l with
  | nil => cases hx
  | cons i l ih =>
    obtain ⟨hi, hpairwise⟩ := List.pairwise_cons.1 hl
    by_cases hix : i = x
    · subst hix
      have hy : y ∈ l := (List.mem_cons.1 hy).resolve_left (Nat.ne_of_gt hxy)
      obtain ⟨rest, rfl, hlast⟩ := next_of_apart hxy hl hy h
      exact ⟨_, .here rest, .cons hlast (List.pairwise_cons.1 hpairwise).2⟩
    · have hx : x ∈ l := (List.mem_cons.1 hx).resolve_left (Ne.symm hix)
      have hlow := hi x hx
      have hy : y ∈ l := (List.mem_cons.1 hy).resolve_left (by omega)
      obtain ⟨l', hjoins, hl'⟩ := ih hpairwise hx hy fun z hz => h z (.tail i hz)
      refine ⟨i :: l', .there i hjoins, .cons (fun z hz => ?_) hl'⟩
      obtain rfl | ⟨hz, -⟩ := (hjoins.mem_iff hpairwise hxy).1 hz
      · omega
      · exact hi z hz

end Joins

/-! ### Telling numbers apart -/

/-- Ascending numbers that have at most two digits, where the tens are at most three. -/
structure Ascending (l : List Nat) : Prop where
  pairwise : l.Pairwise (· < ·)
  pos : ∀ i ∈ l, 0 < i
  le : ∀ i ∈ l, i ≤ 31

namespace Ascending

variable {i : Nat} {l : List Nat}

theorem tail (h : Ascending (i :: l)) : Ascending l :=
  ⟨(List.pairwise_cons.1 h.pairwise).2, fun j hj => h.pos j (.tail i hj),
    fun j hj => h.le j (.tail i hj)⟩

theorem lt (h : Ascending (i :: l)) : ∀ j ∈ l, i < j := (List.pairwise_cons.1 h.pairwise).1

theorem head_pos (h : Ascending (i :: l)) : 0 < i := h.pos i List.mem_cons_self

theorem head_le (h : Ascending (i :: l)) : i ≤ 31 := h.le i List.mem_cons_self

/-- After a number of two digits, all have two. -/
theorem two_digits (h : Ascending (i :: l)) (hi : 10 ≤ i) : ∀ j ∈ i :: l, 10 ≤ j ∧ j < 100 := by
  intro j hj
  have hle := h.le j hj
  obtain rfl | hj := List.mem_cons.1 hj
  · omega
  · have hij := h.lt j hj
    omega

end Ascending

/-- One list joins two neighbouring numbers of one digit in the other. -/
def JoinsDigits (l l' : List Nat) : Prop := ∃ x y, 0 < x ∧ x < y ∧ y < 10 ∧ Joins x y l l'

theorem JoinsDigits.there {l l' : List Nat} (i : Nat) (h : JoinsDigits l l') :
    JoinsDigits (i :: l) (i :: l') := by
  obtain ⟨x, y, hx, hxy, hy, hjoins⟩ := h
  exact ⟨x, y, hx, hxy, hy, .there i hjoins⟩

/-- Two lists are equal but for two numbers that one of them may join. -/
def Alike (l l' : List Nat) : Prop := l = l' ∨ JoinsDigits l l' ∨ JoinsDigits l' l

namespace Alike

variable {l l' : List Nat}

theorem symm (h : Alike l l') : Alike l' l := by
  obtain rfl | h | h := h
  · exact .inl rfl
  · exact .inr (.inr h)
  · exact .inr (.inl h)

theorem there (i : Nat) (h : Alike l l') : Alike (i :: l) (i :: l') := by
  obtain rfl | h | h := h
  · exact .inl rfl
  · exact .inr (.inl (h.there i))
  · exact .inr (.inr (h.there i))

end Alike

/-- Where one list goes on with a number of one digit and the other with one of two, that number
is the joint one. -/
theorem head_of_numerals_eq {i j : Nat} {l l' : List Nat} (hi : i < 10) (hj : 10 ≤ j)
    (h : Ascending (i :: l)) (h' : Ascending (j :: l'))
    (heq : numerals (i :: l) = numerals (j :: l')) :
    ∃ y rest, l = y :: rest ∧ j = 10 * i + y ∧ y < 10 ∧ numerals rest = numerals l' := by
  have hjle := h'.head_le
  -- the first digit of the joint number
  obtain ⟨y, hy, rfl⟩ : ∃ y < 10, j = 10 * i + y := by
    refine ⟨j % 10, Nat.mod_lt _ (by decide), ?_⟩
    rw [numerals_cons, numerals_cons, Nat.toDigits_of_lt_base hi,
      Nat.toDigits_of_base_le (by decide) hj, Nat.toDigits_of_lt_base (by omega)] at heq
    have hdigit : Nat.toDigits 10 i = Nat.toDigits 10 (j / 10) := by
      rw [Nat.toDigits_of_lt_base hi, Nat.toDigits_of_lt_base (by omega), (List.cons.inj heq).1]
    have htens := toDigits_ten_injective hdigit
    omega
  have hrest : numerals l = Nat.toDigits 10 y ++ numerals l' := by
    have hsplit := Nat.toDigits_append_toDigits (by decide : 1 < 10) h.head_pos hy
    rw [numerals_cons, numerals_cons, ← hsplit, List.append_assoc] at heq
    exact List.append_cancel_left heq
  cases l with
  | nil =>
    have hlength := congrArg List.length hrest
    simp [length_toDigits_one hy] at hlength
    omega
  | cons k rest =>
    rw [numerals_cons] at hrest
    by_cases hk : k < 10
    · have hlength := (length_toDigits_one hk).trans (length_toDigits_one hy).symm
      obtain ⟨hdigit, hnumerals⟩ := List.append_inj hrest hlength
      obtain rfl := toDigits_ten_injective hdigit
      exact ⟨k, rest, rfl, rfl, hy, hnumerals⟩
    · -- from here on, all numbers of both lists have two digits, but one digit is left over
      have hlength := congrArg List.length hrest
      have htwo := length_numerals (h.tail.two_digits (by omega))
      have htwo' := length_numerals fun z hz => h'.two_digits hj z (.tail _ hz)
      rw [numerals_cons] at htwo
      rw [htwo, List.length_append, htwo', length_toDigits_one hy] at hlength
      omega

/-- There the two lists differ by the joint number only: behind it, no further numbers of one
digit are left that could be joined. -/
theorem joins_of_numerals_eq {i j : Nat} {l l' : List Nat} (hi : i < 10) (hj : 10 ≤ j)
    (h : Ascending (i :: l)) (h' : Ascending (j :: l'))
    (heq : numerals (i :: l) = numerals (j :: l'))
    (ih : ∀ rest, rest.length < l.length → Ascending rest → numerals rest = numerals l' →
      Alike rest l') :
    JoinsDigits (i :: l) (j :: l') := by
  obtain ⟨y, rest, rfl, rfl, hy, hrest⟩ := head_of_numerals_eq hi hj h h' heq
  have hiy := h.lt y List.mem_cons_self
  have hpos := h.head_pos
  obtain rfl | hlater | hlater := ih rest (Nat.lt_succ_self _) h.tail.tail hrest
  · exact ⟨i, y, hpos, hiy, hy, .here rest⟩
  · -- a later joint number would be at least 34
    obtain ⟨x, z, -, hxz, -, hjoins⟩ := hlater
    have hyx := h.tail.lt x hjoins.mem.1
    have hle := h'.le (10 * x + z) (.tail _ hjoins.mem.2.2)
    omega
  · obtain ⟨x, z, -, hxz, hz, hjoins⟩ := hlater
    have hjx := h'.lt x hjoins.mem.1
    omega

theorem length_toDigits_eq {i j : Nat} (hi : i ≤ 31) (hj : j ≤ 31) (h : i < 10 ↔ j < 10) :
    (Nat.toDigits 10 i).length = (Nat.toDigits 10 j).length := by
  by_cases hone : i < 10
  · rw [length_toDigits_one hone, length_toDigits_one (h.1 hone)]
  · rw [length_toDigits_two (by omega) (by omega), length_toDigits_two (by omega) (by omega)]

/-- **Ascending numbers can be told from how they are written**, unless two are joined. -/
theorem alike_of_numerals_eq {l l' : List Nat} (h : Ascending l) (h' : Ascending l')
    (heq : numerals l = numerals l') : Alike l l' := by
  match l, l' with
  | [], [] => exact .inl rfl
  | [], j :: l' => exact absurd heq.symm (numerals_ne_nil j l')
  | i :: l, [] => exact absurd heq (numerals_ne_nil i l)
  | i :: l, j :: l' =>
    by_cases hdigits : i < 10 ↔ j < 10
    · rw [numerals_cons, numerals_cons] at heq
      obtain ⟨hnumber, hrest⟩ :=
        List.append_inj heq (length_toDigits_eq h.head_le h'.head_le hdigits)
      obtain rfl := toDigits_ten_injective hnumber
      exact (alike_of_numerals_eq h.tail h'.tail hrest).there i
    · obtain ⟨hi, hj⟩ | ⟨hj, hi⟩ : i < 10 ∧ 10 ≤ j ∨ j < 10 ∧ 10 ≤ i := by omega
      · refine .inr (.inl (joins_of_numerals_eq hi hj h h' heq fun rest _ hrest hnumerals => ?_))
        exact alike_of_numerals_eq hrest h'.tail hnumerals
      · refine .inr (.inr (joins_of_numerals_eq hj hi h' h heq.symm
          fun rest _ hrest hnumerals => ?_))
        exact (alike_of_numerals_eq h.tail hrest hnumerals.symm).symm
termination_by l.length + l'.length

/-! ### Numbers of vectors -/

namespace Blade

variable {b c : Blade} {n i x y : Nat}

/-- The numbers of the basis vectors of a blade, ascending. -/
def numbers (b : Blade) : List Nat := b.positions.map (· + 1)

theorem numbers_zero : numbers 0 = [] := by rw [numbers, positions_zero, List.map_nil]

theorem mem_numbers : i ∈ b.numbers ↔ 0 < i ∧ b.getLsbD (i - 1) = true := by
  rw [numbers, List.mem_map]
  constructor
  · intro h
    obtain ⟨j, hj, rfl⟩ := h
    exact ⟨Nat.succ_pos j, mem_positions.1 hj⟩
  · intro h
    obtain ⟨hi, hset⟩ := h
    exact ⟨i - 1, mem_positions.2 hset, Nat.sub_add_cancel hi⟩

theorem getLsbD_iff_mem_numbers : b.getLsbD i = true ↔ i + 1 ∈ b.numbers := by
  rw [mem_numbers, Nat.add_sub_cancel]
  exact (and_iff_right (Nat.succ_pos i)).symm

theorem pairwise_numbers (b : Blade) : b.numbers.Pairwise (· < ·) := by
  rw [numbers, List.pairwise_map]
  exact b.pairwise_positions.imp (Nat.succ_lt_succ ·)

theorem ext_numbers (h : ∀ i, i ∈ b.numbers ↔ i ∈ c.numbers) : b = c := by
  refine BitVec.eq_of_getLsbD_eq fun i _ => ?_
  rw [Bool.eq_iff_iff, getLsbD_iff_mem_numbers, getLsbD_iff_mem_numbers, h]

theorem ascending_numbers (hn : n ≤ 31) (h : ∀ i ∈ b.numbers, i ≤ n) : Ascending b.numbers :=
  ⟨b.pairwise_numbers, fun _ hi => (mem_numbers.1 hi).1, fun i hi => (h i hi).trans hn⟩

/-! ### Names -/

/-- The default name of a blade. -/
def name (b : Blade) : String :=
  if b = 0 then "1" else "e" ++ String.join (b.positions.map fun i => toString (i + 1))

theorem name_zero : name 0 = "1" := if_pos rfl

theorem toList_name (hb : b ≠ 0) : b.name.toList = 'e' :: numerals b.numbers := by
  have hnumber : ∀ i, (toString (i + 1)).toList = Nat.toDigits 10 (i + 1) := fun i => by
    rw [Nat.toString_eq_repr, Nat.toList_repr]
  rw [name, if_neg hb, String.toList_append, String.toList_join, numbers, numerals,
    List.flatMap_map, List.flatMap_map]
  simp only [hnumber]
  rfl

theorem numerals_numbers_eq_nil : numerals b.numbers = [] ↔ b = 0 := by
  constructor
  · intro h
    cases hnumbers : b.numbers with
    | nil => exact ext_numbers fun i => by rw [hnumbers, numbers_zero]
    | cons i rest =>
      rw [hnumbers] at h
      exact absurd h (numerals_ne_nil i rest)
  · intro hb
    rw [hb, numbers_zero, numerals_nil]

/-- The name tells the digits of the numbers, and nothing else. -/
theorem name_eq_iff : b.name = c.name ↔ numerals b.numbers = numerals c.numbers := by
  have hscalar : ∀ {a : Blade}, a ≠ 0 → a.name ≠ name 0 := by
    intro a ha hname
    have hchars := congrArg String.toList hname
    rw [toList_name ha, name_zero] at hchars
    exact absurd (List.cons.inj hchars).1 (by decide)
  by_cases hb : b = 0 <;> by_cases hc : c = 0
  · rw [hb, hc]
    simp
  · have hdigits := mt numerals_numbers_eq_nil.1 hc
    rw [hb, numerals_numbers_eq_nil.2 rfl]
    exact iff_of_false (hscalar hc).symm (Ne.symm hdigits)
  · have hdigits := mt numerals_numbers_eq_nil.1 hb
    rw [hc, numerals_numbers_eq_nil.2 rfl]
    exact iff_of_false (hscalar hb) hdigits
  · rw [← String.toList_inj, toList_name hb, toList_name hc, List.cons_inj_right]

theorem count_mono : Monotone count := by
  intro m n h
  rw [count, count, Nat.shiftLeft_eq, Nat.shiftLeft_eq]
  exact Nat.mul_le_mul_left 1 (Nat.pow_le_pow_right (by decide) h)

theorem defaultNames_getElem? (hb : b.toNat < count n) :
    (defaultNames n)[b.toNat]? = some b.name := by
  have hword : BitVec.ofNat 32 b.toNat = b := by simp
  have hzero : b.toNat = 0 ↔ b = 0 := BitVec.toNat_inj (y := 0)
  rw [defaultNames, table, List.getElem?_map, List.getElem?_range hb, Option.map_some, hword, name]
  simp only [hzero]

/-! ### Vectors that run together -/

/-- The vectors of the numbers `x` and `y`, of one digit each, are followed by no vector that
would come before `10 x + y`, so that the two may be read as that one. -/
structure RunsTogether (n : Nat) (b : Blade) (x y : Nat) : Prop where
  lt : x < y
  digit : y < 10
  /-- There is a vector of the joint number. -/
  le : 10 * x + y ≤ n
  left : x ∈ b.numbers
  right : y ∈ b.numbers
  apart : ∀ z ∈ b.numbers, z ≤ x ∨ z = y ∨ 10 * x + y < z

/-- A blade over `n` basis vectors whose name may be read in another way, as a greater blade. -/
def Ambiguous (n : Nat) (b : Blade) : Prop := ∃ x y, b.RunsTogether n x y

instance : Decidable (b.RunsTogether n x y) :=
  decidable_of_iff ((x < y ∧ y < 10 ∧ 10 * x + y ≤ n) ∧
      (0 < x ∧ b.getLsbD (x - 1) = true ∧ b.getLsbD (y - 1) = true) ∧
      ∀ i : Fin 32, b.getLsbD i = true → i + 1 ≤ x ∨ i + 1 = y ∨ 10 * x + y < i + 1) <| by
    constructor
    · intro h
      obtain ⟨⟨hlt, hdigit, hle⟩, ⟨hpos, hleft, hright⟩, hapart⟩ := h
      refine ⟨hlt, hdigit, hle, mem_numbers.2 ⟨hpos, hleft⟩, mem_numbers.2 ⟨by omega, hright⟩, ?_⟩
      intro z hz
      obtain ⟨hz, hset⟩ := mem_numbers.1 hz
      simpa only [Nat.sub_add_cancel hz] using hapart ⟨z - 1, lt_of_getLsbD hset⟩ hset
    · intro h
      obtain ⟨hpos, hleft⟩ := mem_numbers.1 h.left
      obtain ⟨-, hright⟩ := mem_numbers.1 h.right
      refine ⟨⟨h.lt, h.digit, h.le⟩, ⟨hpos, hleft, hright⟩, fun i hset => ?_⟩
      exact h.apart (i + 1) (getLsbD_iff_mem_numbers.1 hset)

instance : Decidable (b.Ambiguous n) :=
  decidable_of_iff (∃ y ∈ List.range 10, ∃ x ∈ List.range y, b.RunsTogether n x y) <| by
    constructor
    · intro h
      obtain ⟨y, -, x, -, hruns⟩ := h
      exact ⟨x, y, hruns⟩
    · intro h
      obtain ⟨x, y, hruns⟩ := h
      exact ⟨y, List.mem_range.2 hruns.digit, x, List.mem_range.2 hruns.lt, hruns⟩

/-- The blade in which the vector of the joint number takes the place of two vectors. -/
def joined (b : Blade) (x y : Nat) : Blade :=
  vector (10 * x + y - 1) ^^^ (vector (x - 1) ^^^ (vector (y - 1) ^^^ b))

/-- **Up to eleven vectors, no name is ambiguous.** -/
theorem not_ambiguous (hn : n ≤ 11) : ¬ b.Ambiguous n := by
  intro h
  obtain ⟨x, y, hruns⟩ := h
  have hx := (mem_numbers.1 hruns.left).1
  have hxy := hruns.lt
  have hle := hruns.le
  omega

/-- From twelve vectors on, the name of the first two is that of the twelfth as well. -/
theorem runsTogether_first_two (hn : 12 ≤ n) : (3 : Blade).RunsTogether n 1 2 := by
  have h : (3 : Blade).RunsTogether 12 1 2 := by decide
  exact { h with le := hn }

namespace RunsTogether

variable {x' y' : Nat}

theorem pos (h : b.RunsTogether n x y) : 0 < x := (mem_numbers.1 h.left).1

/-- A blade has at most two such vectors. -/
theorem unique (h : b.RunsTogether n x y) (h' : b.RunsTogether n x' y') : x = x' ∧ y = y' := by
  have hlt := h.lt
  have hlt' := h'.lt
  have hdigit := h.digit
  have hdigit' := h'.digit
  have hpos := h.pos
  have hpos' := h'.pos
  have hleft := h.apart x' h'.left
  have hright := h.apart y' h'.right
  have hleft' := h'.apart x h.left
  have hright' := h'.apart y h.right
  omega

/-- The joint number is not among the numbers of the blade. -/
theorem getLsbD_joint (h : b.RunsTogether n x y) : b.getLsbD (10 * x + y - 1) = false := by
  have hpos := h.pos
  rw [← Bool.not_eq_true, getLsbD_iff_mem_numbers]
  intro hmem
  have hcase := h.apart _ hmem
  omega

theorem mem_numbers_joined (h : b.RunsTogether n x y) (hn : n ≤ 31) {z : Nat} :
    z ∈ (b.joined x y).numbers ↔ z = 10 * x + y ∨ z ∈ b.numbers ∧ z ≠ x ∧ z ≠ y := by
  have hpos := h.pos
  have hlt := h.lt
  have hle := h.le
  obtain ⟨-, hleft⟩ := mem_numbers.1 h.left
  obtain ⟨-, hright⟩ := mem_numbers.1 h.right
  have hjoint := h.getLsbD_joint
  rw [mem_numbers, joined, getLsbD_vector_xor (by omega), getLsbD_vector_xor (by omega),
    getLsbD_vector_xor (by omega), mem_numbers]
  grind

/-- **An ambiguous name** is that of the joined blade as well. -/
theorem joins (h : b.RunsTogether n x y) (hn : n ≤ 31) :
    Joins x y b.numbers (b.joined x y).numbers := by
  obtain ⟨l, hjoins, hl⟩ := Joins.exists_of_apart h.lt b.pairwise_numbers h.left h.right h.apart
  have hnumbers : (b.joined x y).numbers = l := by
    refine (pairwise_numbers _).eq_of_mem_iff hl fun z => ?_
    rw [h.mem_numbers_joined hn, hjoins.mem_iff b.pairwise_numbers h.lt]
  rwa [hnumbers]

theorem name_joined (h : b.RunsTogether n x y) (hn : n ≤ 31) : (b.joined x y).name = b.name :=
  name_eq_iff.2 ((h.joins hn).numerals_eq h.pos h.digit).symm

example : (3 : Blade).name = "e12" ∧ (2048 : Blade).name = "e12" := by decide +kernel

/-- The joined blade has the greater word, as the joint number is above the two others. -/
theorem lt_joined (h : b.RunsTogether n x y) (hn : n ≤ 31) :
    b.toNat < (b.joined x y).toNat := by
  have hlt := h.lt
  have hsucc : 10 * x + y - 1 + 1 = 10 * x + y := by omega
  refine Nat.lt_of_testBit (10 * x + y - 1) ?_ ?_ fun j hj => ?_
  · rw [BitVec.testBit_toNat, h.getLsbD_joint]
  · rw [BitVec.testBit_toNat, getLsbD_iff_mem_numbers, hsucc, h.mem_numbers_joined hn]
    exact .inl rfl
  · have hjoint : j + 1 ≠ 10 * x + y := by omega
    have hothers : j + 1 ≠ x ∧ j + 1 ≠ y := by omega
    rw [BitVec.testBit_toNat, BitVec.testBit_toNat, Bool.eq_iff_iff, getLsbD_iff_mem_numbers,
      getLsbD_iff_mem_numbers, h.mem_numbers_joined hn, or_iff_right hjoint,
      and_iff_left hothers]

/-- Reading two numbers as one leads to the joined blade. -/
theorem of_joins (hn : n ≤ 31) (hc : ∀ i ∈ c.numbers, i ≤ n) (hxy : x < y) (hy : y < 10)
    (h : Joins x y b.numbers c.numbers) : b.RunsTogether n x y ∧ c = b.joined x y := by
  obtain ⟨hleft, hright, hjoint⟩ := h.mem
  have hruns : b.RunsTogether n x y :=
    ⟨hxy, hy, hc _ hjoint, hleft, hright, h.apart b.pairwise_numbers c.pairwise_numbers⟩
  refine ⟨hruns, ext_numbers fun z => ?_⟩
  rw [h.mem_iff b.pairwise_numbers hxy, hruns.mem_numbers_joined hn]

end RunsTogether

/-- **Two blades of one name** are equal, or one of them is the other with two vectors joined. -/
theorem eq_or_joined_of_name_eq (hn : n ≤ 31) (hb : ∀ i ∈ b.numbers, i ≤ n)
    (hc : ∀ i ∈ c.numbers, i ≤ n) (h : b.name = c.name) :
    b = c ∨ (∃ x y, b.RunsTogether n x y ∧ c = b.joined x y) ∨
      ∃ x y, c.RunsTogether n x y ∧ b = c.joined x y := by
  have halike := alike_of_numerals_eq (ascending_numbers hn hb) (ascending_numbers hn hc)
    (name_eq_iff.1 h)
  obtain heq | ⟨x, y, -, hxy, hy, hjoins⟩ | ⟨x, y, -, hxy, hy, hjoins⟩ := halike
  · exact .inl (ext_numbers fun i => by rw [heq])
  · exact .inr (.inl ⟨x, y, RunsTogether.of_joins hn hc hxy hy hjoins⟩)
  · exact .inr (.inr ⟨x, y, RunsTogether.of_joins hn hb hxy hy hjoins⟩)

end Blade

end Clifford
