import Clifford.Proofs.Algebra.Magnitude
import Clifford.Proofs.Algebra.Verification
import Clifford.Proofs.Values.Exterior

/-!
# Normalization rescales

Normalization takes the sign of a lone coefficient, or multiplies with the reciprocal of a root of
the magnitude of the squared norm. Either way the operand is a positive multiple of the result, by a
root of the magnitude. So the result keeps the direction of the operand, and nothing of its squared
norm but the sign.

## Main results

- `Algebra.rescaled_gives` — the operand is a positive multiple of what is rescaled
- `Algebra.normalize_gives` — and of what normalization gives, if verification tolerates one
- `Algebra.normalize_fails` — numbers whose squared norm is zero cannot be normalized
- `Algebra.normalize_rescales` — both for numbers, and the squared norm of the result
-/

namespace Clifford

variable {σ K S V : Type} [Number K]

namespace Algebra

variable [RootedNumber K] [Target σ K S V] {M : Reading σ K S V} {A : Algebra K S} {s : σ}
  {q : Nat → K} {m : Multivector K S} {f : Values K}

/-- **The operand is a positive multiple of what is rescaled**, whose squared norm is the sign of
that of the operand. The multiple is a root of the magnitude of the squared norm. -/
theorem rescaled_gives (hM : M.Sound) (hA : M.Ready A s q) (hm : M.Denotes A s m f)
    (hunit : m.knownUnit = false) (hne : Values.normSquared q f ≠ 0) :
    (A.rescaled m : Emission σ K (Multivector K S)).Gives s fun u s' => M.Advances s s' ∧
      ∃ r g, 0 < r ∧ r * r = Number.abs (Values.normSquared q f) ∧ (∀ b, f b = r * g b) ∧
        Values.normSquared q g = Number.sign (Values.normSquared q f) ∧ M.Denotes A s' u g := by
  -- The squared norm of the operand is that of the result times the magnitude of the former.
  have hsign : ∀ r g, r * r = Number.abs (Values.normSquared q f) → (∀ b, f b = r * g b) →
      Values.normSquared q g = Number.sign (Values.normSquared q f) := by
    intro r g hroot hmultiple
    refine Number.eq_sign_of_abs_mul hne ?_
    rw [← hroot, ← Values.normSquared_scale, ← funext hmultiple]
  refine .mono ((rescaled_ends hM hA hm hunit).gives hne) ?_
  rintro u s' ⟨hadv, ⟨b, hlone, -, -, hu⟩ | ⟨-, z, -, -, hz, hu⟩⟩
  · -- The only coefficient is its sign, times its absolute value.
    have hsquare := normSquared_of_loneEuclidean? hA.squares hm hlone
    have hvalue : M.value s (m.value b) ≠ 0 := left_ne_zero_of_mul (hsquare ▸ hne)
    rw [hadv.symbols.value_eq (hm.known_value b)] at hu
    have hroot : Number.abs (M.value s (m.value b)) * Number.abs (M.value s (m.value b)) =
        Number.abs (Values.normSquared q f) := by
      rw [hsquare, Number.abs_mul_abs, Number.abs_of_not_neg (Number.not_mul_self_neg _)]
    have hmultiple : ∀ c, f c = Number.abs (M.value s (m.value b)) *
        Values.single b (Number.sign (M.value s (m.value b))) c := by
      intro c
      rw [eq_single_of_loneEuclidean? hm hlone, ← smul_eq_mul, ← Pi.smul_apply,
        Values.smul_single, mul_comm, Number.sign_mul_abs]
    exact ⟨hadv, _, _, Number.abs_pos hvalue, hroot, hmultiple, hsign _ _ hroot hmultiple, hu⟩
  · -- The reciprocal root is multiplied with, and the root undoes it.
    have hmagnitude := Number.abs_pos hne
    have hpos := Number.sqrt_pos hmagnitude
    have hroot := OrderedNumber.sqrt_mul_sqrt _ (lt_asymm hmagnitude)
    have hmultiple : ∀ c, f c = Number.sqrt (Number.abs (Values.normSquared q f)) * (z * f c) := by
      intro c
      rw [← mul_assoc, mul_comm (Number.sqrt _), hz.mul_cancel hpos.ne', one_mul]
    exact ⟨hadv, _, _, hpos, hroot, hmultiple, hsign _ _ hroot hmultiple, hu⟩

/-- Verification looks at the magnitude of the squared norm. -/
theorem Tolerates.sign (hone : A.Tolerates 1) {x : K} (hx : x ≠ 0) :
    A.Tolerates (Number.sign x) := by
  have hmagnitude : Number.abs (Number.sign x) = Number.abs 1 := by
    rw [Number.sign_of_ne_zero hx]
    split
    · rfl
    · rw [OrderedNumber.abs_eq, if_pos (neg_lt_zero.2 zero_lt_one), neg_neg,
        Number.abs_of_not_neg (lt_asymm zero_lt_one)]
  intro tolerance htolerance
  rw [hmagnitude]
  exact hone tolerance htolerance

/-- **The operand is a positive multiple of what normalization gives.** If the squared norm is not
zero, and verification tolerates a norm of one where norms are verified at all, then there is a
result, marked as a unit. -/
theorem normalize_gives (hM : M.Sound) (hA : M.Ready A s q) (hm : M.Denotes A s m f)
    (hone : A.Tolerates 1) (hunit : m.knownUnit = false) (hne : Values.normSquared q f ≠ 0) :
    (A.normalize m : Emission σ K (Multivector K S)).Gives s fun u s' => M.Advances s s' ∧
      u.knownUnit = true ∧ ∃ r g, 0 < r ∧ r * r = Number.abs (Values.normSquared q f) ∧
        (∀ b, f b = r * g b) ∧ Values.normSquared q g = Number.sign (Values.normSquared q f) ∧
        M.Denotes A s' u g := by
  rw [normalize_eq]
  refine .bind (check_gives hm.owner ?_)
  rw [hunit, if_neg Bool.false_ne_true]
  refine .bind (.mono (annotate_gives hM hA.ready "normalize") ?_)
  intro _ s₁ hadv₁
  have hA₁ := hA.advance hadv₁
  refine .bind (.mono (rescaled_gives hM hA₁ (hm.mono hadv₁.symbols) hunit hne) ?_)
  rintro u s₂ ⟨hadv₂, r, g, hpos, hroot, hmultiple, hsign, hu⟩
  have htolerates : A.Tolerates (Values.normSquared q g) := hsign ▸ hone.sign hne
  refine .mono (markUnit_gives (hA₁.advance hadv₂) hu htolerates) ?_
  rintro v s₃ ⟨hadv₃, hv, hmarked⟩
  exact ⟨(hadv₁.trans hadv₂).trans hadv₃, hmarked, r, g, hpos, hroot, hmultiple, hsign, hv⟩

/-- **Numbers whose squared norm is zero cannot be normalized**, whichever way is taken. -/
theorem normalize_fails (hM : M.Sound) (hA : M.Ready A s q) (hm : M.Denotes A s m f)
    (hmetric : ∀ square ∈ A.metric, square.isNumber = true)
    (hnumbers : ∀ c ∈ m.components, c.2.isNumber = true) (hunit : m.knownUnit = false)
    (hzero : Values.normSquared q f = 0) :
    (A.normalize m : Emission σ K (Multivector K S)).Fails s (.divisionByZero "normalize")
      fun s' => M.Advances s s' := by
  refine Emission.Gives.bind_fails (check_gives hm.owner ?_)
  rw [hunit, if_neg Bool.false_ne_true]
  refine Emission.Gives.bind_fails (.mono (annotate_gives hM hA.ready "normalize") ?_)
  intro _ s₁ hadv₁
  have hm₁ := hm.mono hadv₁.symbols
  have hA₁ := hA.advance hadv₁
  split
  · -- The squared norm is the square of the coefficient.
    rename_i b hlone
    have hsquare := normSquared_of_loneEuclidean? hA₁.squares hm₁ hlone
    have hvalue : M.value s₁ (m.value b) = 0 := mul_self_eq_zero.1 (hsquare.symm.trans hzero)
    have hliteral := Reading.isZero_of_value (Multivector.isNumber_value hnumbers b) hvalue
    rw [normalizeComponent, if_pos hliteral]
    exact .bind (.throw hadv₁)
  · refine Emission.Gives.bind_fails
      (.mono (normSquared_of_null hM hA₁ hm₁ hmetric hnumbers hunit hzero) ?_)
    rintro square s₂ ⟨hadv₂, hsquare⟩
    rw [if_pos hsquare]
    exact .bind (.throw (hadv₁.trans hadv₂))

/-- **Normalization rescales by a positive number.** Numbers cannot be normalized if their squared
norm is zero. Otherwise they are a positive multiple of the result, which is marked as a unit; the
multiple is a root of the magnitude of the squared norm, and the squared norm of the result is one
or minus one, with the same sign. -/
theorem normalize_rescales (hM : M.Sound) (hopen : M.Open s [])
    (hoff : A.settings.unitTolerance? = none)
    (hmetric : ∀ square ∈ A.metric, square.isNumber = true) (hm : M.Member A s m)
    (hnumbers : ∀ c ∈ m.components, c.2.isNumber = true) (hunit : m.knownUnit = false) :
    let ns := Values.normSquared (M.squares s A.metric) (M.values s m)
    (ns = 0 → (A.normalize m : Emission σ K (Multivector K S)).Fails s
      (.divisionByZero "normalize") fun s' => M.Advances s s') ∧
    (ns ≠ 0 → (A.normalize m : Emission σ K (Multivector K S)).Gives s fun u s' =>
      M.Member A s' u ∧ u.knownUnit = true ∧
        (∃ r, 0 < r ∧ r * r = Number.abs ns ∧ ∀ b, M.values s m b = r * M.values s' u b) ∧
        Values.normSquared (M.squares s A.metric) (M.values s' u) = if 0 < ns then 1 else -1) := by
  intro ns
  have hA : M.Ready A s (M.squares s A.metric) := Reading.ready_of_numbers hopen hmetric
  constructor
  · intro hzero
    exact normalize_fails hM hA hm.denotes hmetric hnumbers hunit hzero
  · intro hne
    have hone : A.Tolerates 1 := by
      intro tolerance htolerance
      rw [hoff] at htolerance
      cases htolerance
    refine .mono (normalize_gives hM hA hm.denotes hone hunit hne) ?_
    rintro u s' ⟨-, hmarked, r, g, hpos, hroot, hmultiple, hsign, hu⟩
    rw [hu.values_eq]
    refine ⟨hu.toMember, hmarked, ⟨r, hpos, hroot, hmultiple⟩, ?_⟩
    rw [hsign, Number.sign_of_ne_zero hne]

end Algebra

/-! ### Vectors of lines -/

/-- On a null line, on a negative one, where the root is taken, and on one of unit vectors, where
the sign of the coefficient is. -/
theorem Algebra.normalize_rescales_lines :
    let M := NumericTarget.reading ℝ
    (((line (0 : ℝ) {}).normalize (.onLine 2)).Fails NumericTarget.idle
      (.divisionByZero "normalize") fun t => M.Advances .idle t) ∧
    (((line (-1 : ℝ) {}).normalize (.onLine 2)).Gives NumericTarget.idle fun u t =>
      M.Member (line (-1) {}) t u ∧ u.knownUnit = true ∧
        (∃ r, 0 < r ∧ r * r = 4 ∧ ∀ b, M.values .idle (.onLine 2) b = r * M.values t u b) ∧
        Values.normSquared (M.squares .idle (line (-1 : ℝ) {}).metric) (M.values t u) = -1) ∧
    (((line (1 : ℝ) {}).normalize (.onLine (-3))).Gives NumericTarget.idle fun u t =>
      M.Member (line 1 {}) t u ∧ u.knownUnit = true ∧
        (∃ r, 0 < r ∧ r * r = 9 ∧ ∀ b, M.values .idle (.onLine (-3)) b = r * M.values t u b) ∧
        Values.normSquared (M.squares .idle (line (1 : ℝ) {}).metric) (M.values t u) = 1) := by
  have hrescales := fun square x : ℝ => normalize_rescales NumericTarget.sound_reading
    (s := NumericTarget.idle) trivial rfl (isNumber_line square {})
    (Multivector.member_onLine .idle {} square x) (Multivector.isNumber_onLine x) rfl
  simp only [Multivector.normSquared_onLine] at hrescales
  refine ⟨(hrescales 0 2).1 (by norm_num), ?_, ?_⟩
  · have hneg : (-1 * (2 * 2) : ℝ) < 0 := by norm_num
    have habs : Number.abs (-1 * (2 * 2) : ℝ) = 4 := by
      rw [OrderedNumber.abs_eq, if_pos hneg]
      norm_num
    have h := (hrescales (-1) 2).2 hneg.ne
    rwa [habs, if_neg (lt_asymm hneg)] at h
  · have hpos : (0 : ℝ) < 1 * (-3 * -3) := by norm_num
    have habs : Number.abs (1 * (-3 * -3) : ℝ) = 9 := by
      rw [OrderedNumber.abs_eq, if_neg (lt_asymm hpos)]
      norm_num
    have h := (hrescales 1 (-3)).2 hpos.ne'
    rwa [habs, if_pos hpos] at h

end Clifford
