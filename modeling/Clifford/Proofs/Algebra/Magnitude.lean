import Clifford.Proofs.Algebra.Literals
import Clifford.Proofs.Algebra.Normalization

/-!
# The norm as a root of the squared norm

The norm of a multivector without components other than zero, or with a single one whose vectors
all square to the literal one, is the absolute value of a coefficient; otherwise it is the root of
what the settings count the squared norm as. Either way it is the same number: on the short way the
squared norm is the square of the coefficient, which counts as itself.

## Main definitions

- `Algebra.magnitude` — what a squared norm counts as

## Main results

- `Algebra.norm_gives` — the norm is not negative, and its square is what the squared norm counts as
- `Algebra.norm_of_numbers` — the norm of numbers is a number with these properties
-/

namespace Clifford

variable {σ K S V : Type} [Number K]

namespace Algebra

/-- What a squared norm counts as: a negative one counts as zero, or as its absolute value, as the
settings choose. -/
def magnitude (A : Algebra K S) (x : K) : K :=
  if A.settings.clampNegativeNorm then Number.maximum 0 x else Number.abs x

section Magnitude

variable [RootedNumber K] {x : K}

theorem magnitude_of_not_neg (A : Algebra K S) (hx : ¬ x < 0) : A.magnitude x = x := by
  rw [magnitude, Number.maximum_zero_of_not_neg hx, Number.abs_of_not_neg hx, ite_self]

theorem not_magnitude_neg (A : Algebra K S) (x : K) : ¬ A.magnitude x < 0 := by
  rw [magnitude]
  split
  · exact Number.not_maximum_zero_neg x
  · exact Number.not_abs_neg x

end Magnitude

variable [RootedNumber K] [Target σ K S V] {M : Reading σ K S V} {A : Algebra K S} {s : σ}
  {q : Nat → K} {m : Multivector K S} {f : Values K}

/-- The root of what a function makes of its arguments, where that is not negative. -/
theorem root_of_call_gives (hM : M.Sound) (hopen : M.Open s []) (function : ScalarFunction)
    {args : Term K S} (hargs : M.KnownTerm s args) {y : K}
    (hvalue : function.eval (args.map (M.value s)) = y) (hy : ¬ y < 0) :
    Emission.Gives (do
      let magnitude ← call function args
      call .sqrt [magnitude]) s fun r s' => M.Advances s s' ∧
        ∃ x, M.HasValue s' r x ∧ ¬ x < 0 ∧ x * x = y := by
  refine .bind (.mono (call_gives hM function hopen hargs) ?_)
  intro magnitude s₁ ⟨hadv₁, hmagnitude⟩
  rw [hvalue] at hmagnitude
  refine .mono (call_gives hM .sqrt hadv₁.ready (.cons hmagnitude.known .nil)) ?_
  intro root s₂ ⟨hadv₂, hroot⟩
  rw [List.map_singleton, hmagnitude.value_eq] at hroot
  exact ⟨hadv₁.trans hadv₂, _, hroot, RootedNumber.sqrt_nonneg y hy,
    OrderedNumber.sqrt_mul_sqrt y hy⟩

/-- **The norm is not negative, and its square is what the squared norm counts as**, on all of its
ways. -/
theorem norm_gives (hM : M.Sound) (hA : M.Ready A s q) (hm : M.Denotes A s m f)
    (hunit : m.knownUnit = false) :
    (A.norm m : Emission σ K (Factor K S)).Gives s fun r s' => M.Advances s s' ∧
      ∃ x, M.HasValue s' r x ∧ ¬ x < 0 ∧ x * x = A.magnitude (Values.normSquared q f) := by
  refine .bind (check_gives hm.owner ?_)
  rw [hunit, if_neg Bool.false_ne_true]
  split
  · -- The short way: the squared norm is a square, so it counts as itself.
    rename_i b hlone
    have hsquare := normSquared_of_loneEuclidean? hA.squares hm hlone
    refine .mono (call_gives hM .abs hA.ready (.cons (hm.known_value b) .nil)) ?_
    intro r s₁ ⟨hadv, hr⟩
    change M.HasValue s₁ r (Number.abs (M.value s (m.value b))) at hr
    refine ⟨hadv, _, hr, Number.not_abs_neg _, ?_⟩
    rw [hsquare, A.magnitude_of_not_neg (Number.not_mul_self_neg _)]
    exact Number.abs_mul_abs _
  · refine .bind (.mono (normSquared_of_unmarked hM hA hm hunit) ?_)
    intro square s₁ ⟨hadv₁, hsquare⟩
    have hmagnitude := A.not_magnitude_neg (Values.normSquared q f)
    by_cases hclamp : A.settings.clampNegativeNorm = true
    · rw [if_pos hclamp]
      refine .mono (root_of_call_gives hM hadv₁.ready .max
        (.cons (Reading.known_number 0) (.cons hsquare.known .nil)) ?_ hmagnitude)
        fun r s₂ h => ⟨hadv₁.trans h.1, h.2⟩
      rw [magnitude, if_pos hclamp, ← hsquare.value_eq]
      rfl
    · rw [if_neg hclamp]
      refine .mono (root_of_call_gives hM hadv₁.ready .abs (.cons hsquare.known .nil) ?_
        hmagnitude) fun r s₂ h => ⟨hadv₁.trans h.1, h.2⟩
      rw [magnitude, if_neg hclamp, ← hsquare.value_eq]
      rfl

/-- **The norm of numbers is the number that is not negative and whose square is what the squared
norm counts as**: the squared norm or zero, whichever is greater, if the settings clamp negative
squared norms, and else its absolute value. Which components are touched, are zero, and are negative
or null in the metric makes no difference, though these choose the way on which it is computed. -/
theorem norm_of_numbers (hM : M.Sound) (hopen : M.Open s [])
    (hmetric : ∀ square ∈ A.metric, square.isNumber = true) (hm : M.Member A s m)
    (hnumbers : ∀ c ∈ m.components, c.2.isNumber = true) (hunit : m.knownUnit = false) :
    (A.norm m : Emission σ K (Factor K S)).Gives s fun r _ => ∃ x, r = .number x ∧ ¬ x < 0 ∧
      x * x = if A.settings.clampNegativeNorm
        then Number.maximum 0 (Values.normSquared (M.squares s A.metric) (M.values s m))
        else Number.abs (Values.normSquared (M.squares s A.metric) (M.values s m)) := by
  have hA := Reading.ready_of_numbers hopen hmetric
  refine .mono ((norm_gives hM hA hm.denotes hunit).and_returns
    (norm_number hmetric hm.nodup hnumbers)) ?_
  rintro r s' ⟨⟨-, x, hr, hpos, hsquare⟩, hnumber⟩
  obtain ⟨y, rfl⟩ := Factor.isNumber_iff.1 hnumber
  obtain rfl : y = x := hr.value_eq
  exact ⟨y, rfl, hpos, hsquare⟩

end Algebra

/-- On a negative line, where negative squared norms are clamped and where they are not. -/
theorem Algebra.norm_of_numbers_lines :
    ((line (-1 : ℝ) {}).norm (.onLine 2)).Gives NumericTarget.idle
      (fun r _ => ∃ x, r = .number x ∧ ¬ x < 0 ∧ x * x = 0) ∧
    ((line (-1 : ℝ) { clampNegativeNorm := false }).norm (.onLine 2)).Gives NumericTarget.idle
      (fun r _ => ∃ x, r = .number x ∧ ¬ x < 0 ∧ x * x = 4) := by
  have hnorm := fun settings : Settings ℝ => norm_of_numbers NumericTarget.sound_reading
    (s := NumericTarget.idle) trivial (isNumber_line (-1) settings)
    (Multivector.member_onLine .idle settings (-1) 2) (Multivector.isNumber_onLine 2) rfl
  constructor
  · refine .mono (hnorm {}) ?_
    rintro r _ ⟨x, hr, hpos, hsquare⟩
    rw [Multivector.normSquared_onLine] at hsquare
    have hclamped : max (0 : ℝ) (-1 * (2 * 2)) = 0 := by norm_num
    exact ⟨x, hr, hpos, hsquare.trans hclamped⟩
  · refine .mono (hnorm { clampNegativeNorm := false }) ?_
    rintro r _ ⟨x, hr, hpos, hsquare⟩
    rw [Multivector.normSquared_onLine] at hsquare
    have hneg : (-1 * (2 * 2) : ℝ) < 0 := by norm_num
    have habs : Number.abs (-1 * (2 * 2) : ℝ) = 4 := by
      refine (OrderedNumber.abs_eq _).trans ((if_pos hneg).trans ?_)
      norm_num
    exact ⟨x, hr, hpos, hsquare.trans habs⟩

end Clifford
