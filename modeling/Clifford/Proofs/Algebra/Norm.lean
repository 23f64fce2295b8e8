import Clifford.Algebra.Norm
import Clifford.Proofs.Algebra.Conjugation

/-!
# Values of norms and scalar products

The squared norm and the scalar product are sums over all blades. A literal zero in the metric and
a blade that only one operand has drop terms that are zero anyway.

## Main definitions

- `Values.normSquared`, `Values.scalarProduct` — both sums
- `Values.Unital` — a scalar whose square is one

## Main results

- `Algebra.normSquared_gives`, `Algebra.scalarProduct_gives` — what is emitted has these values
- `Values.Unital.normSquared_eq` — the short way for units is right
- `Values.Unital.product`, `Values.Unital.conjugate` — products of units are units
-/

namespace Clifford

open Finset

variable {σ K S V : Type}

namespace Values

variable {R : Type*} [CommRing R] {f g : Values R} {q : Nat → R}

/-- The sum of the squares of all coefficients, each with the square of its blade. -/
noncomputable def normSquared (q : Nat → R) (f : Values R) : R :=
  ∑ b : Blade, b.weight q * (f b * f b)

/-- The scalar part of the geometric product. -/
noncomputable def scalarProduct (q : Nat → R) (f g : Values R) : R :=
  ∑ b : Blade, (-1) ^ b.reverseFlips * (b.weight q * (f b * g b))

/-- A scalar whose square is one. -/
def Unital (f : Values R) : Prop := ∃ ε : R, ε * ε = 1 ∧ f = scalar ε

theorem unital_one : Unital (scalar (1 : R)) := ⟨1, one_mul 1, rfl⟩

theorem scalar_zero (x : R) : scalar x 0 = x := single_self 0 x

theorem scalar_of_ne {b : Blade} (h : b ≠ 0) (x : R) : scalar x b = 0 :=
  single_of_ne x (Ne.symm h)

theorem Unital.flipped (hf : Unital f) (flip : Blade → Bool) : Unital (flipped flip f) := by
  obtain ⟨ε, hε, rfl⟩ := hf
  refine ⟨Clifford.signed (flip 0) ε, ?_, ?_⟩
  · cases flip 0
    · exact hε
    · exact (neg_mul_neg ε ε).trans hε
  · funext b
    by_cases hb : b = 0
    · subst hb
      rw [Values.flipped, scalar_zero, scalar_zero]
    · rw [Values.flipped, scalar_of_ne hb, scalar_of_ne hb]
      cases flip b
      · rfl
      · exact neg_zero

theorem convolve_scalar_scalar {k : Blade → Blade → R} (hk : k 0 0 = 1) (x y : R) :
    convolve k (scalar x) (scalar y) = scalar (x * y) := by
  rw [scalar, scalar, convolve_single_left, Fintype.sum_eq_single 0]
  · have hxor : (0 : Blade) ^^^ 0 = 0 := BitVec.xor_zero
    rw [hxor, hk, one_mul, single_self]
    rfl
  · intro b hb
    rw [single_of_ne y (Ne.symm hb), mul_zero, mul_zero, single_zero]

theorem Unital.convolve {k : Blade → Blade → R} (hk : k 0 0 = 1) (hf : Unital f)
    (hg : Unital g) : Unital (convolve k f g) := by
  obtain ⟨ε, hε, rfl⟩ := hf
  obtain ⟨δ, hδ, rfl⟩ := hg
  refine ⟨ε * δ, ?_, convolve_scalar_scalar hk ε δ⟩
  rw [mul_mul_mul_comm, hε, hδ, one_mul]

theorem Unital.conjugate (hf : Unital f) (hg : Unital g) : Unital (conjugate q f g) := by
  have htwist : Blade.twist q 0 0 = 1 := Blade.twist_zero_left q 0
  exact (hf.convolve htwist hg).convolve htwist (hf.flipped _)

theorem Unital.foldr_conjugate {fs : List (Values R)} (hfs : ∀ f ∈ fs, Unital f)
    (hg : Unital g) : Unital (fs.foldr (Values.conjugate q) g) := by
  induction fs with
  | nil => exact hg
  | cons f rest ih =>
    exact (hfs f List.mem_cons_self).conjugate
      (ih fun f' hf' => hfs f' (List.mem_cons_of_mem f hf'))

theorem kernel_zero_zero (kind : ProductKind) (q : Nat → R) : kind.kernel q 0 0 = 1 := by
  have hgrade : Blade.grade 0#32 = 0 := by
    rw [Blade.grade_eq_length, Blade.positions_eq_filter]
    simp
  have hkeep : kind.includes 0 0 = true := by
    cases kind <;> simp [ProductKind.includes, hgrade]
  rw [ProductKind.kernel, if_pos hkeep, Blade.twist_zero_left]

theorem Unital.product {fs : List (Values R)} (kind : ProductKind) (hfs : ∀ f ∈ fs, Unital f) :
    Unital (kind.product q fs) := by
  cases fs with
  | nil => exact unital_one
  | cons f rest =>
    have hf := hfs f List.mem_cons_self
    have hrest : ∀ g ∈ rest, Unital g := fun g hg => hfs g (List.mem_cons_of_mem f hg)
    clear hfs
    rw [ProductKind.product]
    induction rest generalizing f with
    | nil => exact hf
    | cons g rest ih =>
      refine ih _ (hf.convolve (kernel_zero_zero kind q) (hrest g List.mem_cons_self)) ?_
      exact fun h hh => hrest h (List.mem_cons_of_mem g hh)

theorem Unital.normSquared_eq (hf : Unital f) : normSquared q f = 1 := by
  obtain ⟨ε, hε, rfl⟩ := hf
  rw [normSquared, Fintype.sum_eq_single 0]
  · rw [Blade.weight_zero, scalar_zero, hε, one_mul]
  · intro b hb
    rw [scalar_of_ne hb, mul_zero, mul_zero]

end Values

namespace Algebra

variable [Number K] [ExactNumber K] {M : Reading σ K S V} {A : Algebra K S} {s : σ}
  {a b m : Multivector K S} {f g : Values K} {q : Nat → K}

theorem weightedTerm (hA : M.Squares s A.metric q) (b : Blade) {l r : Factor K S}
    (hl : M.Known s l) (hr : M.Known s r) (negate : Bool) :
    (∀ squares, A.metric.factors? b = some squares → M.KnownTerm s (squares ++ [l, r])) ∧
      ((((A.metric.factors? b).map fun squares => (squares ++ [l, r], negate)).map
        fun t : Term K S × Bool => signed t.2 (M.termValue s t.1)).getD 0) =
      signed negate (b.weight q * (M.value s l * M.value s r)) := by
  constructor
  · intro squares hsquares
    have hknown : M.KnownTerm s squares := (hA.factors?_eq_some hsquares).1
    exact hknown.append (.cons hl (.cons hr .nil))
  · cases hsquares : A.metric.factors? b with
    | none =>
      rw [hA.factors?_eq_none hsquares, zero_mul, signed_eq_mul, mul_zero]
      rfl
    | some squares =>
      rw [Option.map_some, Option.map_some, Option.getD_some, Reading.termValue_append,
        (hA.factors?_eq_some hsquares).2, Reading.termValue_cons, Reading.termValue_cons,
        Reading.termValue_nil, mul_one]

theorem sum_normTerms (hA : M.Squares s A.metric q) (hm : M.Denotes A s m f) :
    (∀ t ∈ A.normTerms m, M.KnownTerm s t.1) ∧
      ((A.normTerms m).map fun t => signed t.2 (M.termValue s t.1)).sum =
        Values.normSquared q f := by
  have hterm := fun c hc => weightedTerm hA (c : Blade × Factor K S).1 (hm.known c hc)
    (hm.known c hc) false
  constructor
  · intro t ht
    obtain ⟨c, hc, ht⟩ := List.mem_filterMap.1 ht
    obtain ⟨squares, hsquares, rfl⟩ := Option.map_eq_some_iff.1 ht
    exact (hterm c hc).1 squares hsquares
  · rw [normTerms, sum_map_filterMap, Values.normSquared, ← hm.values_eq]
    refine Eq.trans (congrArg List.sum (List.map_congr_left fun c hc => (hterm c hc).2)) ?_
    exact Reading.sum_components (fun b x => b.weight q * (x * x))
      (fun b => by rw [mul_zero, mul_zero]) hm.nodup

/-- The term of a scalar product for a blade of the first operand. -/
def scalarTerm? (A : Algebra K S) (b : Multivector K S) (c : Blade × Factor K S) :
    Option (Term K S × Bool) := do
  let right ← b.get? c.1
  let squares ← A.metric.factors? c.1
  pure (squares ++ [c.2, right], isOdd c.1.reverseFlips)

/-- A blade that the second operand does not have contributes nothing, like its coefficient. -/
theorem values_scalarTerm? (hA : M.Squares s A.metric q) (hb : M.Denotes A s b g)
    {c : Blade × Factor K S} (hc : M.Known s c.2) :
    (∀ t, A.scalarTerm? b c = some t → M.KnownTerm s t.1) ∧
      ((A.scalarTerm? b c).map fun t => signed t.2 (M.termValue s t.1)).getD 0 =
        (-1) ^ c.1.reverseFlips * (c.1.weight q * (M.value s c.2 * g c.1)) := by
  have hg : g c.1 = M.value s ((b.get? c.1).getD (.number 0)) := by
    rw [← hb.values_eq]
    rfl
  have hknown := hb.known_value c.1
  rw [Multivector.value] at hknown
  rw [scalarTerm?, hg]
  cases hright : b.get? c.1 with
  | none =>
    rw [Option.getD_none, Reading.value_number, mul_zero, mul_zero, mul_zero]
    exact ⟨fun t ht => absurd ht.symm (Option.some_ne_none t), rfl⟩
  | some right =>
    rw [hright, Option.getD_some] at hknown
    obtain ⟨hterms, hvalue⟩ := weightedTerm hA c.1 hc hknown (isOdd c.1.reverseFlips)
    rw [signed, ite_isOdd_neg] at hvalue
    rw [Option.getD_some, ← hvalue]
    cases hsquares : A.metric.factors? c.1 with
    | none => exact ⟨fun t ht => absurd ht.symm (Option.some_ne_none t), rfl⟩
    | some squares =>
      refine ⟨fun t ht => ?_, rfl⟩
      obtain rfl := Option.some.inj ht
      exact hterms squares hsquares

/-- The terms of a scalar product have values, which add up to the scalar product. -/
theorem sum_scalarTerms (hA : M.Squares s A.metric q) (ha : M.Denotes A s a f)
    (hb : M.Denotes A s b g) :
    (∀ t ∈ a.components.filterMap (A.scalarTerm? b), M.KnownTerm s t.1) ∧
      ((a.components.filterMap (A.scalarTerm? b)).map
        fun t => signed t.2 (M.termValue s t.1)).sum = Values.scalarProduct q f g := by
  have hterm := fun c hc => values_scalarTerm? hA hb (ha.known c hc)
  constructor
  · intro t ht
    obtain ⟨c, hc, ht⟩ := List.mem_filterMap.1 ht
    exact (hterm c hc).1 t ht
  · rw [sum_map_filterMap, Values.scalarProduct, ← ha.values_eq]
    refine Eq.trans (congrArg List.sum (List.map_congr_left fun c hc => (hterm c hc).2)) ?_
    exact Reading.sum_components
      (fun b x => (-1) ^ b.reverseFlips * (b.weight q * (x * g b)))
      (fun b => by rw [zero_mul, mul_zero, mul_zero]) ha.nodup

variable [Target σ K S V]

theorem sum_gives (hM : M.Sound) (hopen : M.Open s []) (name : String)
    {terms : List (Term K S × Bool)} (hterms : ∀ t ∈ terms, M.KnownTerm s t.1) :
    (sum name terms : Emission σ K (Factor K S)).Gives s fun r s' =>
      M.Advances s s' ∧
        M.HasValue s' r (terms.map fun t => signed t.2 (M.termValue s t.1)).sum := by
  refine .lift (Yields.mono (Cell.sum_yields hM name hopen hterms) ?_)
  rintro r s' ⟨hkeeps, hopen', hknown, hvalue⟩
  exact ⟨hkeeps.advances hopen', hknown, hvalue⟩

/-- What is emitted for the squared norm: one, where the norm is stated to be one. -/
theorem normSquared_emits (hM : M.Sound) (hA : M.Ready A s q) (hm : M.Denotes A s m f) :
    (A.normSquared m : Emission σ K (Factor K S)).Gives s fun r s' =>
      M.Advances s s' ∧ M.HasValue s' r (if m.knownUnit then 1 else Values.normSquared q f) := by
  refine .bind (check_gives hm.owner ?_)
  split
  · exact .pure ⟨hA.advances, Reading.known_number 1, rfl⟩
  · refine .bind (.mono (annotate_gives hM hA.ready "norm squared") ?_)
    rintro - s₁ hadv
    obtain ⟨hterms, hsum⟩ := sum_normTerms (hA.advance hadv).squares (hm.mono hadv.symbols)
    refine .mono (sum_gives hM hadv.ready "norm_squared" hterms) ?_
    rintro r s₂ ⟨hadv₂, hr⟩
    rw [hsum] at hr
    exact ⟨hadv.trans hadv₂, hr⟩

/-- The squared norm has its value, also where the norm is known to be one. -/
theorem normSquared_gives (hM : M.Sound) (hA : M.Ready A s q) (hm : M.Denotes A s m f)
    (hunit : m.knownUnit = true → Values.normSquared q f = 1) :
    (A.normSquared m : Emission σ K (Factor K S)).Gives s fun r s' =>
      M.Advances s s' ∧ M.HasValue s' r (Values.normSquared q f) := by
  have hemits := normSquared_emits hM hA hm
  by_cases hknown : m.knownUnit = true
  · rwa [if_pos hknown, ← hunit hknown] at hemits
  · rwa [if_neg hknown] at hemits

/-- The squared norm of what is not marked as a unit is computed. -/
theorem normSquared_of_unmarked (hM : M.Sound) (hA : M.Ready A s q) (hm : M.Denotes A s m f)
    (hunit : m.knownUnit = false) :
    (A.normSquared m : Emission σ K (Factor K S)).Gives s fun r s' =>
      M.Advances s s' ∧ M.HasValue s' r (Values.normSquared q f) := by
  refine normSquared_gives hM hA hm fun h => ?_
  rw [hunit] at h
  cases h

theorem scalarProduct_gives (hM : M.Sound) (hA : M.Ready A s q) (ha : M.Denotes A s a f)
    (hb : M.Denotes A s b g) :
    (A.scalarProduct a b : Emission σ K (Factor K S)).Gives s fun r s' =>
      M.Advances s s' ∧ M.HasValue s' r (Values.scalarProduct q f g) := by
  refine .bind (check_gives ha.owner (.bind (check_gives hb.owner ?_)))
  refine .bind (.mono (annotate_gives hM hA.ready "scalar product") ?_)
  rintro - s₁ hadv
  obtain ⟨hterms, hsum⟩ := sum_scalarTerms (hA.advance hadv).squares (ha.mono hadv.symbols)
    (hb.mono hadv.symbols)
  have hgives := sum_gives hM hadv.ready "scalar" hterms
  rw [hsum] at hgives
  refine .mono hgives ?_
  rintro r s₂ ⟨hadv₂, hr⟩
  exact ⟨hadv.trans hadv₂, hr⟩

end Algebra

end Clifford
