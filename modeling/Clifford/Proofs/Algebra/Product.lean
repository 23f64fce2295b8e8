import Clifford.Proofs.Algebra.Linear

/-!
# Values of products

Every product of multivectors is a convolution of their coefficient functions. Its kernel is that
of the geometric product on the pairs of blades that the product keeps, and zero on the others.

## Main definitions

- `ProductKind.kernel` — the kernel of a product
- `ProductKind.product` — the product of several coefficient functions

## Main results

- `Algebra.mul_gives`, `Algebra.mulAll_gives` — products stand for convolutions with their kernel
-/

namespace Clifford

open Finset

variable {σ K S V : Type}

/-- The kernel of a product. -/
def ProductKind.kernel {R : Type*} [CommRing R] (kind : ProductKind) (q : Nat → R)
    (a b : Blade) : R :=
  if kind.includes a b then a.twist q b else 0

/-- The coefficients of a product of several multivectors, from the left. -/
noncomputable def ProductKind.product {R : Type*} [CommRing R] (kind : ProductKind) (q : Nat → R) :
    List (Values R) → Values R
  | [] => Values.scalar 1
  | f :: rest => rest.foldl (Values.convolve (kind.kernel q)) f

theorem ProductKind.kernel_geometric {R : Type*} [CommRing R] (q : Nat → R) :
    ProductKind.geometric.kernel q = Blade.twist q := by
  funext a b
  have hkeep : ProductKind.geometric.includes a b = true := rfl
  rw [kernel, if_pos hkeep]

namespace Algebra

variable [Number K] [ExactNumber K] {M : Reading σ K S V} {A : Algebra K S} {s : σ}
  {a b : Multivector K S} {f g : Values K} {q : Nat → K}

/-- The contribution of a pair of components adds the product of their values, with the factor of
the geometric product. -/
theorem values_pairContribution? (hA : M.Squares s A.metric q) {l r : Blade × Factor K S} :
    ((A.pairContribution? l r).map fun c => c.values M s).getD 0 =
      Values.single (l.1 ^^^ r.1) (l.1.twist q r.1 * (M.value s l.2 * M.value s r.2)) := by
  rw [pairContribution?, Blade.twist]
  cases hsquares : A.metric.factors? (l.1 &&& r.1) with
  | none => simp [hA.factors?_eq_none hsquares]
  | some squares =>
    rw [Option.map_some, Option.map_some, Option.getD_some, Contribution.values,
      Contribution.value]
    congr 1
    rw [signed, ite_isOdd_neg, Reading.termValue_append, (hA.factors?_eq_some hsquares).2,
      Reading.termValue_cons, Reading.termValue_cons, Reading.termValue_nil, Blade.swapSign]
    ring

/-- **The contributions of a product add up to the convolution of the coefficient functions.** -/
theorem sum_productContributions (hA : M.Squares s A.metric q) (ha : M.Denotes A s a f)
    (hb : M.Denotes A s b g) (kind : ProductKind) :
    ((A.productContributions kind a b).map fun c => c.values M s).sum =
      Values.convolve (kind.kernel q) f g := by
  have hpair : ∀ l r : Blade × Factor K S,
      (((if kind.includes l.1 r.1 then A.pairContribution? l r else none).map
        fun c => c.values M s).getD 0) =
      Values.single (l.1 ^^^ r.1)
        (kind.kernel q l.1 r.1 * (M.value s l.2 * M.value s r.2)) := by
    intro l r
    by_cases hkind : kind.includes l.1 r.1 = true
    · rw [if_pos hkind, ProductKind.kernel, if_pos hkind, values_pairContribution? hA]
    · simp [hkind, ProductKind.kernel]
  have hrow : ∀ l : Blade × Factor K S,
      (b.components.map fun r => Values.single (l.1 ^^^ r.1)
        (kind.kernel q l.1 r.1 * (M.value s l.2 * M.value s r.2))).sum =
      ∑ r, Values.single (l.1 ^^^ r) (kind.kernel q l.1 r * (M.value s l.2 * g r)) := by
    intro l
    rw [← hb.values_eq]
    exact Reading.sum_components
      (fun r x => Values.single (l.1 ^^^ r) (kind.kernel q l.1 r * (M.value s l.2 * x)))
      (fun r => by simp) hb.nodup
  rw [productContributions, sum_map_flatMap]
  simp only [sum_map_filterMap, hpair, hrow]
  rw [Values.convolve_eq_sum_single, ← ha.values_eq]
  exact Reading.sum_components
    (fun l x => ∑ r, Values.single (l ^^^ r) (kind.kernel q l r * (x * g r)))
    (fun l => by simp) ha.nodup

theorem contribute_product (hA : M.Squares s A.metric q) (ha : M.Denotes A s a f)
    (hb : M.Denotes A s b g) (kind : ProductKind) :
    M.Contribute s (A.productContributions kind a b) (Values.convolve (kind.kernel q) f g) :=
  ⟨knownTerm_productContributions hA kind ha.toMember.proper hb.toMember.proper,
    sum_productContributions hA ha hb kind⟩

variable [Target σ K S V]

/-- **A product stands for the convolution of the coefficient functions with its kernel.** -/
theorem mul_gives (hM : M.Sound) (hA : M.Ready A s q) (ha : M.Denotes A s a f)
    (hb : M.Denotes A s b g) (kind : ProductKind) :
    (A.mul kind a b : Emission σ K (Multivector K S)).Gives s fun r s' =>
      M.Advances s s' ∧ M.Denotes A s' r (Values.convolve (kind.kernel q) f g) ∧
        r.knownUnit = (kind.keepsAll a b && a.knownUnit && b.knownUnit) := by
  refine .bind (check_gives ha.owner (.bind (check_gives hb.owner ?_)))
  refine .bind (.mono (annotate_gives hM hA.ready kind.title) ?_)
  intro _ s' hadv
  have hsquares := (hA.advance hadv).squares
  have hcs := contribute_product hsquares (ha.mono hadv.symbols) (hb.mono hadv.symbols) kind
  refine .bind (.mono (build_gives hM hadv.ready hcs) ?_)
  rintro r s'' ⟨hadv', hr, -⟩
  exact .pure ⟨hadv.trans hadv', hr.withKnownUnit _, rfl⟩

theorem foldlM_mul_gives (hM : M.Sound) (hA : M.Ready A s q) (kind : ProductKind)
    {ms : List (Multivector K S)} {fs : List (Values K)}
    (hms : List.Forall₂ (M.Denotes A s) ms fs) (ha : M.Denotes A s a f) :
    Emission.Gives (ms.foldlM (fun product m => A.mul kind product m) a) s fun r s' =>
      M.Advances s s' ∧ M.Denotes A s' r (fs.foldl (Values.convolve (kind.kernel q)) f) ∧
        (r.knownUnit = true → ∀ m ∈ a :: ms, m.knownUnit = true) := by
  induction ms generalizing fs a f s with
  | nil =>
    cases hms
    refine .pure ⟨hA.advances, ha, fun h m hm => ?_⟩
    rwa [List.mem_singleton.1 hm]
  | cons m ms ih =>
    obtain ⟨g, fs, hm, hrest, rfl⟩ := List.forall₂_cons_left_iff.1 hms
    refine .bind (.mono (mul_gives hM hA ha hm kind) ?_)
    rintro r s₁ ⟨hadv, hr, hunit⟩
    have hrest₁ := Reading.forall₂_mono hrest hadv.symbols
    refine .mono (ih (hA.advance hadv) hrest₁ hr) ?_
    rintro r' s₂ ⟨hadv', hr', hunit'⟩
    refine ⟨hadv.trans hadv', hr', fun h => ?_⟩
    have hfirst : (kind.keepsAll a m && a.knownUnit && m.knownUnit) = true := by
      rw [← hunit]
      exact hunit' h r List.mem_cons_self
    rw [Bool.and_eq_true, Bool.and_eq_true] at hfirst
    rintro x (_ | ⟨_, _ | ⟨_, hx⟩⟩)
    · exact hfirst.1.2
    · exact hfirst.2
    · exact hunit' h x (List.mem_cons_of_mem _ hx)

/-- **A product of several multivectors stands for the iterated convolution.** -/
theorem mulAll_gives (hM : M.Sound) (hA : M.Ready A s q) (kind : ProductKind)
    {ms : List (Multivector K S)} {fs : List (Values K)}
    (hms : List.Forall₂ (M.Denotes A s) ms fs) :
    (A.mulAll kind ms : Emission σ K (Multivector K S)).Gives s fun r s' =>
      M.Advances s s' ∧ M.Denotes A s' r (kind.product q fs) ∧
        (r.knownUnit = true → ∀ m ∈ ms, m.knownUnit = true) := by
  cases hms with
  | nil =>
    refine .mono (one_gives hM hA.ready) ?_
    rintro r s' ⟨hadv, hr, -⟩
    exact ⟨hadv, hr, fun _ => nofun⟩
  | cons hm hrest =>
    refine .bind (check_gives hm.owner ?_)
    exact foldlM_mul_gives hM hA kind hrest hm

end Algebra

end Clifford
