import Clifford.Proofs.Algebra.Elements
import Clifford.Proofs.Algebra.Terms
import Clifford.Proofs.Blade.Flips
import Clifford.Proofs.Values.Sums

/-!
# Values of linear operations

Operations that act on each component by itself, and sums.

## Main definitions

- `Values.flipped` — the coefficients with the sign changed at some blades
- `Values.reversed` — the coefficients of the reverse
- `Values.kept` — the coefficients at some of the blades

## Main results

- `Algebra.resign_gives`, `Algebra.reverse_gives` — operations that change signs
- `Algebra.scale_gives`, `Algebra.extract_gives`, `Algebra.plus_gives`, `Algebra.minus_gives`
-/

namespace Clifford

variable {σ K S V : Type}

namespace Values

variable {R : Type*} [CommRing R]

/-- The coefficients with the sign changed where `flip` holds. -/
def flipped (flip : Blade → Bool) (f : Values R) : Values R := fun b =>
  Clifford.signed (flip b) (f b)

/-- The coefficients of the reverse. -/
def reversed (f : Values R) : Values R := flipped (fun b => isOdd b.reverseFlips) f

/-- The coefficients at the blades that are kept. -/
def kept (keep : Blade → Bool) (f : Values R) : Values R := fun b => if keep b then f b else 0

theorem reversed_apply (f : Values R) (b : Blade) :
    reversed f b = (-1) ^ b.reverseFlips * f b :=
  ite_isOdd_neg b.reverseFlips (f b)

end Values

section

variable {M : Reading σ K S V} {A : Algebra K S} {s : σ} {m : Multivector K S}
  {ms : List (Multivector K S)}

theorem Algebra.forM_check_gives {Q : PUnit → σ → Prop} (h : ∀ m ∈ ms, m.owner = A.id)
    (hQ : Q ⟨⟩ s) : (ms.forM A.check : Emission σ K PUnit).Gives s Q := by
  induction ms with
  | nil => exact .pure hQ
  | cons m rest ih =>
    refine .bind (check_gives (h m List.mem_cons_self) ?_)
    exact ih fun m hm => h m (List.mem_cons_of_mem _ hm)

variable [Number K] {f : Values K} {fs : List (Values K)}

theorem Reading.member_of_forall₂ (hms : List.Forall₂ (M.Denotes A s) ms fs) :
    ∀ m ∈ ms, M.Member A s m := by
  induction hms with
  | nil => nofun
  | cons hm _ ih =>
    rintro m (_ | ⟨_, hrest⟩)
    · exact hm.toMember
    · exact ih m hrest

theorem Reading.map_values_of_forall₂ (hms : List.Forall₂ (M.Denotes A s) ms fs) :
    ms.map (M.values s) = fs := by
  induction hms with
  | nil => rfl
  | cons hm _ ih => rw [List.map_cons, hm.values_eq, ih]

theorem Reading.forall₂_mono {s' : σ} (hms : List.Forall₂ (M.Denotes A s) ms fs)
    (hext : M.Extends s s') : List.Forall₂ (M.Denotes A s') ms fs :=
  hms.imp fun _ _ h => h.mono hext

variable [ExactNumber K]

theorem Reading.Denotes.sum_map_single (hm : M.Denotes A s m f) {φ : Blade → K → K}
    (hzero : ∀ b, φ b 0 = 0) {values : Blade × Factor K S → Values K}
    (hvalues : ∀ c, values c = Values.single c.1 (φ c.1 (M.value s c.2))) :
    (m.components.map values).sum = fun b => φ b (f b) := by
  have hsum := sum_components (M := M) (s := s) (fun b x => Values.single b (φ b x))
    (fun b => by rw [hzero, Values.single_zero]) hm.nodup
  rw [List.map_congr_left fun c _ => hvalues c, hsum, hm.values_eq]
  exact Values.sum_single fun b => φ b (f b)

/-- The contributions that repeat a multivector add up to its coefficients with their signs. -/
theorem Reading.Denotes.contribute_signed (hm : M.Denotes A s m f) (flip : Blade → Bool) :
    M.Contribute s (m.signed flip) (Values.flipped flip f) where
  known := hm.toMember.proper.knownTerm_signed flip
  sum_eq := by
    rw [Multivector.signed, List.map_map]
    refine hm.sum_map_single (φ := fun b x => signed (flip b) x) (fun b => ?_) fun c => ?_
    · rw [signed_eq_mul, mul_zero]
    · exact Contribution.values_singleton c.1 c.2 (flip c.1)

/-- Contributions that multiply each component by a factor, with a sign, add up to the scaled
coefficients with their signs. -/
theorem Reading.Denotes.contribute_resigned (hm : M.Denotes A s m f) {x : Factor K S}
    (hx : M.Known s x) (flip : Blade → Bool) :
    M.Contribute s (m.components.map fun (b, value) =>
      { blade := b, term := [x, value], negate := flip b })
      fun b => M.value s x * Values.flipped flip f b where
  known := hm.toMember.proper.knownTerm_resigned hx flip
  sum_eq := by
    rw [List.map_map]
    refine hm.sum_map_single (φ := fun b y => M.value s x * signed (flip b) y) (fun b => ?_)
      fun c => ?_
    · rw [signed_eq_mul, mul_zero, mul_zero]
    rw [Function.comp_apply, Contribution.values, Contribution.value, termValue_cons,
      termValue_cons, termValue_nil, mul_one, signed_eq_mul, signed_eq_mul, mul_left_comm]

/-- The contributions that scale a multivector add up to its scaled coefficients. -/
theorem Reading.Denotes.contribute_scaled (hm : M.Denotes A s m f) {x : Factor K S}
    (hx : M.Known s x) : M.Contribute s (m.scaled x) fun b => M.value s x * f b :=
  hm.contribute_resigned hx fun _ => false

/-- The contributions that repeat some of the components add up to the kept coefficients. -/
theorem Reading.Denotes.contribute_filter (hm : M.Denotes A s m f) (keep : Blade → Bool) :
    M.Contribute s ((m.signed fun _ => false).filter fun c => keep c.blade)
      (Values.kept keep f) where
  known c hc := hm.toMember.proper.knownTerm_signed _ c (List.mem_filter.1 hc).1
  sum_eq := by
    rw [sum_map_filter, Multivector.signed, List.map_map]
    refine hm.sum_map_single (φ := fun b x => if keep b then x else 0) (fun b => ite_self _)
      fun c => ?_
    rw [Function.comp_apply]
    by_cases hkeep : keep c.1 = true
    · rw [if_pos hkeep, if_pos hkeep]
      exact Contribution.values_singleton c.1 c.2 false
    · rw [if_neg hkeep, if_neg hkeep, Values.single_zero]

theorem Reading.contribute_flatMap_signed (hms : List.Forall₂ (M.Denotes A s) ms fs) :
    M.Contribute s (ms.flatMap fun m => m.signed fun _ => false) fs.sum := by
  induction hms with
  | nil => exact .nil
  | cons hm _ ih => exact (hm.contribute_signed fun _ => false).append ih

end

namespace Algebra

variable [Number K] [ExactNumber K] [Target σ K S V] {M : Reading σ K S V} {A : Algebra K S}
  {s : σ} {a b m : Multivector K S} {ms : List (Multivector K S)} {f g : Values K}
  {fs : List (Values K)}

theorem resign_gives (hM : M.Sound) (hopen : M.Open s []) (hm : M.Denotes A s m f)
    (operation : String) (flip : Blade → Bool) :
    Emission.Gives (do A.annotate operation; A.resign flip m) s fun r s' =>
      M.Advances s s' ∧ M.Denotes A s' r (Values.flipped flip f) ∧
        r.knownUnit = m.knownUnit := by
  refine .bind (.mono (annotate_gives hM hopen operation) ?_)
  rintro - s₁ hadv
  have hm₁ := hm.mono hadv.symbols
  refine .bind (check_gives hm.owner ?_)
  refine .bind (.mono (build_gives hM hadv.ready (hm₁.contribute_signed flip)) ?_)
  rintro r s₂ ⟨hadv', hr, -⟩
  exact .pure ⟨hadv.trans hadv', hr.withKnownUnit _, rfl⟩

theorem negate_gives (hM : M.Sound) (hopen : M.Open s []) (hm : M.Denotes A s m f) :
    (A.negate m : Emission σ K (Multivector K S)).Gives s fun r s' =>
      M.Advances s s' ∧ M.Denotes A s' r (-f) ∧ r.knownUnit = m.knownUnit :=
  resign_gives hM hopen hm "negate" _

theorem gradeInvolution_gives (hM : M.Sound) (hopen : M.Open s []) (hm : M.Denotes A s m f) :
    (A.gradeInvolution m : Emission σ K (Multivector K S)).Gives s fun r s' =>
      M.Advances s s' ∧ M.Denotes A s' r (Values.flipped (fun b => isOdd b.grade) f) ∧
        r.knownUnit = m.knownUnit :=
  resign_gives hM hopen hm "grade involution" _

theorem reverse_gives (hM : M.Sound) (hopen : M.Open s []) (hm : M.Denotes A s m f) :
    (A.reverse m : Emission σ K (Multivector K S)).Gives s fun r s' =>
      M.Advances s s' ∧ M.Denotes A s' r (Values.reversed f) ∧ r.knownUnit = m.knownUnit :=
  resign_gives hM hopen hm "reverse" _

theorem conjugate_gives (hM : M.Sound) (hopen : M.Open s []) (hm : M.Denotes A s m f) :
    (A.conjugate m : Emission σ K (Multivector K S)).Gives s fun r s' =>
      M.Advances s s' ∧
        M.Denotes A s' r (Values.flipped (fun b => isOdd (b.grade + b.reverseFlips)) f) ∧
        r.knownUnit = m.knownUnit :=
  resign_gives hM hopen hm "conjugate" _

/-- Scaling multiplies every coefficient, also where a literal zero leaves no components. -/
theorem scale_gives (hM : M.Sound) (hopen : M.Open s []) {x : Factor K S} (hx : M.Known s x)
    (hm : M.Denotes A s m f) :
    (A.scale x m : Emission σ K (Multivector K S)).Gives s fun r s' =>
      M.Advances s s' ∧ M.Denotes A s' r (fun b => M.value s x * f b) ∧
        r.knownUnit = false := by
  refine .bind (check_gives hm.owner ?_)
  split
  · rename_i hzero
    refine .pure ⟨.refl hopen, ?_, rfl⟩
    rw [Reading.value_of_isZero hzero]
    simp only [zero_mul]
    exact Reading.denotes_zero
  refine annotated_build_gives hM hopen "scale" fun s₁ hext => ?_
  rw [← hext.value_eq hx]
  exact (hm.mono hext).contribute_scaled (hext.known hx)

theorem extract_gives (hM : M.Sound) (hopen : M.Open s []) (hm : M.Denotes A s m f)
    (keep : Blade → Bool) :
    (A.extract keep m : Emission σ K (Multivector K S)).Gives s fun r s' =>
      M.Advances s s' ∧ M.Denotes A s' r (Values.kept keep f) ∧ r.knownUnit = false := by
  refine .bind (check_gives hm.owner ?_)
  exact build_gives hM hopen (hm.contribute_filter keep)

theorem minus_gives (hM : M.Sound) (hopen : M.Open s []) (ha : M.Denotes A s a f)
    (hb : M.Denotes A s b g) :
    (A.minus a b : Emission σ K (Multivector K S)).Gives s fun r s' =>
      M.Advances s s' ∧ M.Denotes A s' r (f - g) ∧ r.knownUnit = false := by
  refine .bind (check_gives ha.owner (.bind (check_gives hb.owner ?_)))
  rw [sub_eq_add_neg]
  refine annotated_build_gives hM hopen "minus" fun s₁ hext => ?_
  exact ((ha.mono hext).contribute_signed fun _ => false).append
    ((hb.mono hext).contribute_signed fun _ => true)

/-- A sum has the sum of the coefficients. Only a single multivector keeps its unit hint. -/
theorem plus_gives (hM : M.Sound) (hopen : M.Open s [])
    (hms : List.Forall₂ (M.Denotes A s) ms fs) :
    (A.plus ms : Emission σ K (Multivector K S)).Gives s fun r s' =>
      M.Advances s s' ∧ M.Denotes A s' r fs.sum ∧ (r.knownUnit = true → ms = [r]) := by
  have howners : ∀ m ∈ ms, m.owner = A.id := fun m hm => (Reading.member_of_forall₂ hms m hm).owner
  refine .bind (forM_check_gives howners ?_)
  rcases ms with _ | ⟨m, _ | ⟨m', rest⟩⟩
  · cases hms
    exact .pure ⟨.refl hopen, Reading.denotes_zero, nofun⟩
  · obtain ⟨f, fs, hm, hnil, rfl⟩ := List.forall₂_cons_left_iff.1 hms
    cases hnil
    refine .pure ⟨.refl hopen, ?_, fun _ => rfl⟩
    rwa [List.sum_singleton]
  · have hbuild := annotated_build_gives (A := A) hM hopen "plus" fun s₁ hext =>
      Reading.contribute_flatMap_signed (Reading.forall₂_mono hms hext)
    refine .mono hbuild ?_
    rintro r s' ⟨hadv, hr, hunit⟩
    refine ⟨hadv, hr, fun h => ?_⟩
    rw [hunit] at h
    cases h

end Algebra

end Clifford
