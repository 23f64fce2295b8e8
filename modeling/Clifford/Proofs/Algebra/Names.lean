import Clifford.Proofs.Algebra.Closure
import Clifford.Proofs.Algebra.Elements
import Clifford.Proofs.Blade.Names

/-!
# Blades and their names

An algebra finds a blade by its name in a table, and takes the last one of several blades with the
same name. With the default names, that is the blade itself unless two of its vectors may be read
as one. Components that are given by names are added for the blades that are found.

## Main definitions

- `Algebra.HasDefaultNames` — the table of names is the default one

## Main results

- `Algebra.bladeNamed?_eq_some_iff` — the last blade with a name is found
- `Algebra.HasDefaultNames.bladeNamed?_joined` — the blade that an ambiguous name leads to
- `Algebra.HasDefaultNames.bladeNamed?_self_iff` — which blades are found by their names
- `Algebra.ofNamed_found_gives` — components that are given by the names of such blades
-/

namespace Clifford

variable {σ K S V : Type}

/-- In a falling list, the first number with a property is the greatest one. -/
theorem find?_eq_some_iff_greatest {p : Nat → Bool} {l : List Nat} (hl : l.Pairwise (· > ·))
    {w : Nat} : l.find? p = some w ↔ w ∈ l ∧ p w = true ∧ ∀ v ∈ l, p v = true → v ≤ w := by
  induction l with
  | nil => simp
  | cons i rest ih =>
    obtain ⟨hi, hrest⟩ := List.pairwise_cons.1 hl
    by_cases hp : p i = true
    · rw [List.find?_cons_of_pos hp, Option.some_inj]
      constructor
      · intro hw
        subst hw
        refine ⟨List.mem_cons_self, hp, fun v hv _ => ?_⟩
        obtain rfl | hv := List.mem_cons.1 hv
        · exact le_rfl
        · exact (hi v hv).le
      · intro h
        obtain ⟨hw, -, hgreatest⟩ := h
        obtain rfl | hw := List.mem_cons.1 hw
        · rfl
        · exact absurd (hi w hw) (hgreatest i List.mem_cons_self hp).not_gt
    · rw [List.find?_cons_of_neg hp, ih hrest]
      grind

namespace Algebra

variable {A : Algebra K S} {b c : Blade} {name : String}

/-! ### Tables of names -/

/-- The indices of the table are the words of the blades of the algebra. -/
theorem exists_contains_of_lt {word : Nat} (h : word < A.names.size) :
    ∃ b, A.Contains b ∧ b.toNat = word := by
  have hcount : A.names.size ≤ Blade.count 31 := A.size_names ▸ Blade.count_mono A.dimension_le
  have hfits : Blade.count 31 < 2 ^ 32 := by decide
  have hword : (BitVec.ofNat 32 word).toNat = word := by
    rw [BitVec.toNat_ofNat]
    exact Nat.mod_eq_of_lt (by omega)
  refine ⟨BitVec.ofNat 32 word, ?_, hword⟩
  rw [Contains, hword]
  exact A.size_names ▸ h

/-- **The last blade with a name is found.** -/
theorem bladeNamed?_eq_some_iff : A.bladeNamed? name = some b ↔
    A.Contains b ∧ A.bladeName b = name ∧
      ∀ c, A.Contains c → A.bladeName c = name → c.toNat ≤ b.toNat := by
  have hentry : ∀ {c : Blade}, A.Contains c →
      ((A.names[c.toNat]? == some name) = true ↔ A.bladeName c = name) := by
    intro c hc
    rw [hc.bladeName, beq_iff_eq, Option.some_inj]
  have hlt : ∀ {c : Blade}, A.Contains c → c.toNat < A.names.size := fun hc => A.size_names ▸ hc
  have hfalling : (List.range A.names.size).reverse.Pairwise (· > ·) :=
    List.pairwise_reverse.2 List.pairwise_lt_range
  rw [bladeNamed?, Option.map_eq_some_iff]
  simp only [find?_eq_some_iff_greatest hfalling, List.mem_reverse, List.mem_range]
  constructor
  · intro h
    obtain ⟨word, ⟨hword, hname, hgreatest⟩, hb⟩ := h
    obtain ⟨c, hc, rfl⟩ := exists_contains_of_lt hword
    obtain rfl : c = b := by simpa using hb
    refine ⟨hc, (hentry hc).1 hname, fun d hd hdname => ?_⟩
    exact hgreatest d.toNat (hlt hd) ((hentry hd).2 hdname)
  · intro h
    obtain ⟨hb, hname, hgreatest⟩ := h
    refine ⟨b.toNat, ⟨hlt hb, (hentry hb).2 hname, fun word hword hsame => ?_⟩, by simp⟩
    obtain ⟨c, hc, rfl⟩ := exists_contains_of_lt hword
    exact hgreatest c hc ((hentry hc).1 hsame)

/-! ### Default names -/

theorem Contains.numbers_le (hb : A.Contains b) : ∀ i ∈ b.numbers, i ≤ A.dimension := by
  intro i hi
  obtain ⟨hpos, hset⟩ := Blade.mem_numbers.1 hi
  have hlt := contains_iff.1 hb _ hset
  omega

/-- The joint vector of two is one of the algebra. -/
theorem Contains.joined {x y : Nat} (hb : A.Contains b) (h : b.RunsTogether A.dimension x y) :
    A.Contains (b.joined x y) := by
  rw [contains_iff]
  intro i hi
  have hmem := (h.mem_numbers_joined A.dimension_le).1 (Blade.getLsbD_iff_mem_numbers.1 hi)
  obtain hi | ⟨hi, -⟩ := hmem
  · have hle := h.le
    omega
  · exact hb.numbers_le _ hi

/-- The blades have their default names. -/
def HasDefaultNames (A : Algebra K S) : Prop :=
  A.names = (Blade.defaultNames A.dimension).toArray

namespace HasDefaultNames

variable {x y : Nat}

theorem bladeName_eq (h : A.HasDefaultNames) (hb : A.Contains b) : A.bladeName b = b.name := by
  rw [Algebra.bladeName, h, Array.getD_eq_getD_getElem?, List.getElem?_toArray,
    Blade.defaultNames_getElem? hb, Option.getD_some]

theorem bladeName_eq_iff (h : A.HasDefaultNames) (hb : A.Contains b) (hc : A.Contains c) :
    A.bladeName b = A.bladeName c ↔ b.name = c.name := by
  rw [h.bladeName_eq hb, h.bladeName_eq hc]

/-- **An ambiguous name leads to the joined blade**, which is the greater of the two. -/
theorem bladeNamed?_joined (h : A.HasDefaultNames) (hb : A.Contains b)
    (hruns : b.RunsTogether A.dimension x y) :
    A.bladeNamed? (A.bladeName b) = some (b.joined x y) := by
  have hdim : A.dimension ≤ 31 := A.dimension_le
  have hjoined := hb.joined hruns
  refine bladeNamed?_eq_some_iff.2 ⟨hjoined, ?_, fun c hc hname => ?_⟩
  · rw [h.bladeName_eq_iff hjoined hb, hruns.name_joined hdim]
  · have hgreater := hruns.lt_joined hdim
    have hsame := ((h.bladeName_eq_iff hc hb).1 hname).symm
    obtain heq | ⟨x', y', hruns', heq⟩ | ⟨x', y', hruns', heq⟩ :=
      Blade.eq_or_joined_of_name_eq hdim hb.numbers_le hc.numbers_le hsame
    · exact heq ▸ hgreater.le
    · obtain ⟨rfl, rfl⟩ := hruns.unique hruns'
      exact heq ▸ le_rfl
    · have hsmaller := hruns'.lt_joined hdim
      rw [← heq] at hsmaller
      omega

/-- **A blade is found by its name** if the name is not ambiguous. -/
theorem bladeNamed?_self (h : A.HasDefaultNames) (hb : A.Contains b)
    (hclear : ¬ b.Ambiguous A.dimension) : A.bladeNamed? (A.bladeName b) = some b := by
  have hdim : A.dimension ≤ 31 := A.dimension_le
  refine bladeNamed?_eq_some_iff.2 ⟨hb, rfl, fun c hc hname => ?_⟩
  have hsame := ((h.bladeName_eq_iff hc hb).1 hname).symm
  obtain heq | ⟨x, y, hruns, -⟩ | ⟨x, y, hruns, heq⟩ :=
    Blade.eq_or_joined_of_name_eq hdim hb.numbers_le hc.numbers_le hsame
  · exact heq ▸ le_rfl
  · exact absurd ⟨x, y, hruns⟩ hclear
  · exact heq ▸ (hruns.lt_joined hdim).le

theorem bladeNamed?_self_iff (h : A.HasDefaultNames) (hb : A.Contains b) :
    A.bladeNamed? (A.bladeName b) = some b ↔ ¬ b.Ambiguous A.dimension := by
  refine ⟨?_, h.bladeNamed?_self hb⟩
  intro hfound hambiguous
  obtain ⟨x, y, hruns⟩ := hambiguous
  rw [h.bladeNamed?_joined hb hruns, Option.some_inj] at hfound
  have hgreater := hruns.lt_joined A.dimension_le
  rw [hfound] at hgreater
  exact lt_irrefl _ hgreater

/-- **All blades are found by their names** over up to eleven vectors, and no further. -/
theorem forall_bladeNamed?_self_iff (h : A.HasDefaultNames) :
    (∀ b, A.Contains b → A.bladeNamed? (A.bladeName b) = some b) ↔ A.dimension ≤ 11 := by
  constructor
  · intro hfound
    by_contra hdim
    have hruns := Blade.runsTogether_first_two (n := A.dimension) (by omega)
    have hcount : Blade.count 12 ≤ Blade.count A.dimension := Blade.count_mono (by omega)
    have hthree : A.Contains 3 := lt_of_lt_of_le (by decide) hcount
    exact (h.bladeNamed?_self_iff hthree).1 (hfound 3 hthree) ⟨1, 2, hruns⟩
  · exact fun hdim b hb => h.bladeNamed?_self hb (Blade.not_ambiguous hdim)

end HasDefaultNames

end Algebra

/-! ### Components with names -/

namespace Values

variable {R : Type*} [CommRing R] {components : List (Blade × R)}

theorem sum_single_of_notMem {b : Blade} (hb : b ∉ components.map Prod.fst) :
    (components.map fun c => single c.1 c.2).sum b = 0 := by
  induction components with
  | nil => rfl
  | cons c rest ih =>
    rw [List.map_cons, List.mem_cons, not_or] at hb
    rw [List.map_cons, List.sum_cons, Pi.add_apply, single_of_ne _ (Ne.symm hb.1), ih hb.2,
      add_zero]

theorem sum_single_of_mem (hnodup : (components.map Prod.fst).Nodup) {c : Blade × R}
    (hc : c ∈ components) : (components.map fun c => single c.1 c.2).sum c.1 = c.2 := by
  induction components with
  | nil => cases hc
  | cons d rest ih =>
    rw [List.map_cons, List.nodup_cons] at hnodup
    rw [List.map_cons, List.sum_cons, Pi.add_apply]
    obtain rfl | hc := List.mem_cons.1 hc
    · rw [single_self, sum_single_of_notMem hnodup.1, add_zero]
    · have hne : d.1 ≠ c.1 := fun heq => hnodup.1 (heq ▸ List.mem_map_of_mem hc)
      rw [single_of_ne _ hne, ih hnodup.2 hc, zero_add]

/-- Components with names that are all found. -/
theorem named_of_found [Number K] [ExactNumber K] {bladeNamed? : String → Option Blade}
    {nameOf : Blade → String} {components : List (Blade × K)}
    (h : ∀ c ∈ components, bladeNamed? (nameOf c.1) = some c.1) :
    named bladeNamed? (components.map fun c => (nameOf c.1, c.2)) =
      .ok (components.map fun c => single c.1 c.2).sum := by
  induction components with
  | nil => rfl
  | cons c rest ih =>
    obtain ⟨hc, hrest⟩ := List.forall_mem_cons.1 h
    rw [List.map_cons, named, hc]
    dsimp only
    rw [ih hrest]
    rfl

end Values

namespace Algebra

variable [Number K] [Target σ K S V] {A : Algebra K S} {M : Reading σ K S V} {s : σ}
  {components : List (Blade × Factor K S)}

/-- Components that are given by names are listed in their order, if all of them are found. -/
theorem ofNamed_found_lists (hnodup : (components.map Prod.fst).Nodup)
    (hfound : ∀ c ∈ components, A.bladeNamed? (A.bladeName c.1) = some c.1) :
    (A.ofNamed (components.map fun c => (A.bladeName c.1, c.2)) :
      Emission σ K (Multivector K S)).Returns fun r =>
        r.owner = A.id ∧ r.blades = components.map Prod.fst := by
  refine (A.ofNamed_lists _).mono fun r hr => ⟨hr.owner, ?_⟩
  have hblades : (components.map fun c => (A.bladeName c.1, c.2)).filterMap
      (fun c => A.bladeNamed? c.1) = components.map Prod.fst := by
    rw [List.filterMap_map, ← List.filterMap_eq_map]
    exact List.filterMap_congr hfound
  rw [hr.blades_eq, hblades, eraseDups_of_nodup hnodup]

variable [ExactNumber K]

/-- **Components that are given by names** keep their values, if all of them are found. -/
theorem ofNamed_found_gives (hM : M.Sound) (hopen : M.Open s [])
    (hnodup : (components.map Prod.fst).Nodup)
    (hfound : ∀ c ∈ components, A.bladeNamed? (A.bladeName c.1) = some c.1)
    (hknown : ∀ c ∈ components, M.Known s c.2) :
    (A.ofNamed (components.map fun c => (A.bladeName c.1, c.2)) :
      Emission σ K (Multivector K S)).Gives s fun r s' => M.Advances s s' ∧
        r.blades = components.map Prod.fst ∧
        ∀ c ∈ components, M.HasValue s' (r.value c.1) (M.value s c.2) := by
  have hvalues : List.Forall₂ (M.HasNamedValue s)
      (components.map fun c => (A.bladeName c.1, c.2))
      ((components.map fun c => (c.1, M.value s c.2)).map fun c => (A.bladeName c.1, c.2)) := by
    rw [List.map_map, List.forall₂_map_left_iff, List.forall₂_map_right_iff, List.forall₂_same]
    exact fun c hc => ⟨rfl, hknown c hc, rfl⟩
  have hfound' : ∀ c ∈ components.map fun c => (c.1, M.value s c.2),
      A.bladeNamed? (A.bladeName c.1) = some c.1 := List.forall_mem_map.2 hfound
  have hnamed := Values.named_of_found hfound'
  refine ((ofNamed_gives hM hopen hvalues hnamed).and_returns
    (ofNamed_found_lists hnodup hfound)).mono fun r s' h => ?_
  obtain ⟨⟨hadv, hr, hunit⟩, howner, hblades⟩ := h
  refine ⟨hadv, hblades, fun c hc => ?_⟩
  have hnodup' : ((components.map fun c => (c.1, M.value s c.2)).map Prod.fst).Nodup := by
    rwa [List.map_map]
  have hvalue := Values.sum_single_of_mem hnodup' (List.mem_map_of_mem hc)
  have hcomponent := hr.hasValue c.1
  exact ⟨hcomponent.known, hcomponent.value_eq.trans hvalue⟩

/-- **What the default names tell.** A blade is found by its name exactly if the name is not
ambiguous, and otherwise the joined blade is found. All blades are found up to eleven vectors, and
not beyond. Named components of distinct blades that are found yield the multivector with exactly
these components. -/
theorem default_names_identify (hM : M.Sound) (hnames : A.HasDefaultNames) :
    (∀ b, A.Contains b →
      (A.bladeNamed? (A.bladeName b) = some b ↔ ¬ b.Ambiguous A.dimension)) ∧
    (∀ b x y, A.Contains b → b.RunsTogether A.dimension x y →
      A.bladeNamed? (A.bladeName b) = some (b.joined x y)) ∧
    ((∀ b, A.Contains b → A.bladeNamed? (A.bladeName b) = some b) ↔ A.dimension ≤ 11) ∧
    ∀ (s : σ) (components : List (Blade × Factor K S)), M.Open s [] →
      (components.map Prod.fst).Nodup →
      (∀ c ∈ components, A.Contains c.1 ∧ ¬ c.1.Ambiguous A.dimension ∧ M.Known s c.2) →
      (A.ofNamed (components.map fun c => (A.bladeName c.1, c.2)) :
        Emission σ K (Multivector K S)).Gives s fun r s' => M.Advances s s' ∧
          r.blades = components.map Prod.fst ∧
          ∀ c ∈ components, M.HasValue s' (r.value c.1) (M.value s c.2) := by
  refine ⟨fun b hb => hnames.bladeNamed?_self_iff hb, fun b x y hb => hnames.bladeNamed?_joined hb,
    hnames.forall_bladeNamed?_self_iff, fun s components hopen hnodup hcomponents => ?_⟩
  refine ofNamed_found_gives hM hopen hnodup (fun c hc => ?_) fun c hc => (hcomponents c hc).2.2
  obtain ⟨hcontains, hclear, -⟩ := hcomponents c hc
  exact hnames.bladeNamed?_self hcontains hclear

/-- The algebra of twelve vectors that square to one, with its default names. -/
def twelveVectors : Algebra ℚ Empty where
  id := 0
  metric := List.replicate 12 (.number 1)
  names := (Blade.defaultNames 12).toArray
  dimension_le := by decide
  size_names := by simp [Blade.defaultNames, Blade.table]

theorem hasDefaultNames_twelveVectors : twelveVectors.HasDefaultNames := rfl

theorem bladeName_twelveVectors {b : Blade} (hb : twelveVectors.Contains b) :
    twelveVectors.bladeName b = b.name :=
  hasDefaultNames_twelveVectors.bladeName_eq hb

/-- The plane of the first two of twelve vectors is named `e12`, but the twelfth vector is found by
that name, and a component with that name is added for it. -/
theorem default_names_identify_twelveVectors :
    twelveVectors.bladeName 3 = "e12" ∧ twelveVectors.bladeNamed? "e12" = some 2048 ∧
    (twelveVectors.ofNamed [("e12", .number 5), ("e1", .number 7)] :
      Emission (NumericTarget ℚ) ℚ (Multivector ℚ Empty)).Gives .idle fun r s' =>
        r.blades = [2048, 1] ∧ (NumericTarget.reading ℚ).HasValue s' (r.value 2048) 5 ∧
          (NumericTarget.reading ℚ).HasValue s' (r.value 1) 7 := by
  have hplane : twelveVectors.bladeName 3 = "e12" :=
    (bladeName_twelveVectors (by decide)).trans (by decide +kernel)
  have htwelfth : twelveVectors.bladeName 2048 = "e12" :=
    (bladeName_twelveVectors (by decide)).trans (by decide +kernel)
  have hfirst : twelveVectors.bladeName 1 = "e1" :=
    (bladeName_twelveVectors (by decide)).trans (by decide +kernel)
  obtain ⟨-, hjoined, -, hcomponents⟩ := default_names_identify (A := twelveVectors)
    NumericTarget.sound_reading hasDefaultNames_twelveVectors
  have hfound := hjoined 3 1 2 (by decide) (by decide)
  have hgives := hcomponents .idle [(2048, .number 5), (1, .number 7)] trivial (by decide) <| by
    intro c hc
    obtain rfl | hc := List.mem_cons.1 hc
    · exact ⟨by decide, by decide, Reading.known_number 5⟩
    · obtain rfl := List.mem_singleton.1 hc
      exact ⟨by decide, by decide, Reading.known_number 7⟩
  rw [List.map_cons, List.map_singleton, htwelfth, hfirst] at hgives
  refine ⟨hplane, hplane ▸ hfound, hgives.mono fun r s' h => ⟨h.2.1, ?_, ?_⟩⟩
  · exact h.2.2 (2048, .number 5) List.mem_cons_self
  · exact h.2.2 (1, .number 7) (.tail _ List.mem_cons_self)

end Algebra

end Clifford
