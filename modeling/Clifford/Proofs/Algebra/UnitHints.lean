import Clifford.Proofs.Algebra.Chain
import Clifford.Proofs.Algebra.Inverse
import Clifford.Proofs.Algebra.Membership
import Clifford.Proofs.Algebra.Versors
import Clifford.Proofs.Number.Ordered
import Mathlib.Algebra.Order.BigOperators.Ring.Finset

/-!
# Statements about unit norms

Operations on versors state of some results that their norm is one. By the multiplicativity of the
squared norm these statements are true if those about the operands are. Normalization divides by
the root of the squared norm, which is right where no vector has a negative square; reflection
divides by the squared norm of the normal and keeps the statement of the operand.

## Main definitions

- `Reading.DenotesVersor` — a versor whose statement about its norm is true
- `Reading.IsVersor` — one with some coefficients

## Main results

- `Algebra.mul_versor`, `Algebra.inverse_versor`, `Algebra.normalize_versor`,
  `Algebra.reflect_versor` — operations that lead from such versors to such versors
- `Sandwich.ValidVersor` — prepared operators that are such versors
-/

namespace Clifford

variable {σ K S V : Type} [Number K]

section

variable [ExactNumber K]

/-- A versor with given coefficients, of which it is only stated that its norm is one if its squared
norm is one. -/
structure Reading.DenotesVersor (M : Reading σ K S V) (A : Algebra K S) (q : Nat → K) (s : σ)
    (m : Multivector K S) (f : Values K) : Prop extends M.Denotes A s m f where
  versor : f.Versor q
  unit : m.knownUnit = true → Values.normSquared q f = 1

/-- A versor, of which it is only stated that its norm is one if its squared norm is one. -/
def Reading.IsVersor (M : Reading σ K S V) (A : Algebra K S) (q : Nat → K) (s : σ)
    (m : Multivector K S) : Prop :=
  ∃ f, M.DenotesVersor A q s m f

/-- A prepared operator that is a versor, of which it is only stated that its norm is one if its
squared norm is one. -/
def Sandwich.ValidVersor (M : Reading σ K S V) (A : Algebra K S) (q : Nat → K) (s : σ)
    (P : Sandwich K S) : Prop :=
  ∃ f, Valid M A P.operator q f s P ∧ f.Versor q ∧
    (P.operator.knownUnit = true → Values.normSquared q f = 1)

end

variable {M : Reading σ K S V} {A : Algebra K S} {q : Nat → K} {s s' : σ}
  {m a b x : Multivector K S} {f g : Values K}

namespace Reading

variable [ExactNumber K]

theorem IsVersor.mono (h : M.IsVersor A q s m) (hext : M.Extends s s') : M.IsVersor A q s' m := by
  obtain ⟨f, h⟩ := h
  exact ⟨f, h.toDenotes.mono hext, h.versor, h.unit⟩

/-- The coefficients of a versor are its values. -/
theorem IsVersor.values (h : M.IsVersor A q s m) : M.DenotesVersor A q s m (M.values s m) := by
  obtain ⟨f, h⟩ := h
  rwa [h.values_eq]

theorem IsVersor.proper (h : M.IsVersor A q s m) : M.Proper s m := h.values.toMember.proper

/-- Nothing is stated of the norm. -/
theorem Denotes.isVersor (h : M.Denotes A s m f) (hf : f.Versor q) (hunit : m.knownUnit = false) :
    M.IsVersor A q s m := by
  refine ⟨f, h, hf, fun hknown => ?_⟩
  rw [hunit] at hknown
  cases hknown

end Reading

/-- The coordinates of a vector are those of the basis vectors. -/
theorem Values.isVector_vector {R : Type*} [CommRing R] {xs : List R} (h : xs.length ≤ 32) :
    (Values.vector xs).IsVector := by
  have hall : ∀ c ∈ xs.zipIdx, c.2 < 32 := by
    rintro ⟨x, i⟩ hc
    obtain ⟨-, hi, -⟩ := List.mem_zipIdx hc
    omega
  rw [Values.vector]
  generalize xs.zipIdx = cs at hall
  induction cs with
  | nil => exact fun b _ => rfl
  | cons c rest ih =>
    obtain ⟨hc, hrest⟩ := List.forall_mem_cons.1 hall
    rw [List.map_cons, List.sum_cons]
    exact (IsVector.single hc c.1).add (ih hrest)

theorem Values.normSquared_nonneg [OrderedNumber K] (hq : ∀ i, 0 ≤ q i) (f : Values K) :
    0 ≤ Values.normSquared q f := by
  refine Finset.sum_nonneg fun b _ => mul_nonneg ?_ (mul_self_nonneg _)
  refine Finset.prod_nonneg fun i _ => ?_
  split
  · exact hq i
  · exact zero_le_one

namespace Algebra

theorem value_of_square (hA : M.Squares s A.metric q) {i : Nat} {square : Factor K S}
    (hi : A.metric[i]? = some square) (hone : square.isOne = true) : q i = 1 := by
  have hsquare := hA i
  rw [hi] at hsquare
  exact hsquare.2.symm.trans (Reading.value_of_isOne hone)

section Exact

variable [ExactNumber K]

/-- Where all vectors square to the literal one, so do all blades. -/
theorem weight_of_all_isOne (hA : M.Squares s A.metric q)
    (hall : A.metric.all Factor.isOne = true) (b : Blade) : b.weight q = 1 := by
  have hone : ∀ i, q i = 1 := by
    intro i
    cases hget : A.metric[i]? with
    | none =>
      have hsquare := hA i
      rwa [hget] at hsquare
    | some square =>
      exact value_of_square hA hget
        (List.all_eq_true.1 hall square (List.mem_of_getElem? hget))
  rw [Blade.weight]
  refine Finset.prod_eq_one fun i _ => ?_
  rw [hone, ite_self]

/-- Operations that change signs keep the squared norm, and lead to versors. -/
theorem versor_of_flipped {c : Emission σ K (Multivector K S)} {flip : Blade → Bool} {p : Prop}
    (hm : M.DenotesVersor A q s m f) (hversor : (Values.flipped flip f).Versor q)
    (h : c.Gives s fun r s' => M.Advances s s' ∧ M.Denotes A s' r (Values.flipped flip f) ∧
      r.knownUnit = m.knownUnit) : M.Ends p c s fun r s' => M.IsVersor A q s' r := by
  refine .of_gives (.mono h ?_)
  rintro r s' ⟨hadv, hr, hunit⟩
  refine ⟨hadv, _, hr, hversor, fun hknown => ?_⟩
  rw [Values.normSquared_flipped, hm.unit (hunit ▸ hknown)]

variable [Target σ K S V]

/-! ### Elements -/

theorem scalar_versor (hM : M.Sound) (hA : M.Ready A s q) {x : Factor K S} (hx : M.Known s x)
    (p : Prop) : M.Ends p (A.scalar x) s fun r s' => M.IsVersor A q s' r := by
  refine .of_gives (.mono (scalar_gives hM hA.ready hx) ?_)
  rintro r s' ⟨hadv, hr, hunit⟩
  refine ⟨hadv, _, hr, .scalar _, fun hknown => ?_⟩
  rw [Reading.value_of_isOne (hunit ▸ hknown)]
  exact Values.unital_one.normSquared_eq

theorem one_versor (hM : M.Sound) (hA : M.Ready A s q) (p : Prop) :
    M.Ends p A.one s fun r s' => M.IsVersor A q s' r := by
  refine .of_gives (.mono (one_gives hM hA.ready) ?_)
  rintro r s' ⟨hadv, hr, -⟩
  exact ⟨hadv, _, hr, .scalar 1, fun _ => Values.unital_one.normSquared_eq⟩

theorem vector_versor (hM : M.Sound) (hA : M.Ready A s q) {xs : List (Factor K S)}
    (hxs : ∀ x ∈ xs, M.Known s x) {p : Prop} (hp : p) :
    M.Ends p (A.vector xs) s fun r s' => M.IsVersor A q s' r := by
  by_cases hlength : xs.length = A.dimension
  · have hvalues : List.Forall₂ (M.HasValue s) xs (xs.map (M.value s)) :=
      List.forall₂_map_right_iff.2 (List.forall₂_same.2 fun x hx => ⟨hxs x hx, rfl⟩)
    refine .of_gives (.mono (vector_gives hM hA.ready hvalues hlength) ?_)
    rintro r s' ⟨hadv, hr, hunit⟩
    refine ⟨hadv, hr.isVersor (.vector (Values.isVector_vector ?_)) hunit⟩
    have hdimension : A.dimension ≤ maxDimension := A.dimension_le
    rw [List.length_map, hlength]
    exact hdimension.trans (by decide)
  · exact .of_fails (vector_fails hA.ready hlength) hp

/-- The unit of a single blade, with a statement about its norm. -/
theorem unitBlade_gives (hM : M.Sound) (hA : M.Ready A s q) (b : Blade) {knownUnit : Bool}
    (hunit : knownUnit = true → b.weight q = 1) :
    Emission.Gives (do
      let m ← A.build [{ blade := b, term := [.number 1] }]
      pure (m.withKnownUnit knownUnit)) s fun r s' => M.Advances s s' ∧ M.IsVersor A q s' r := by
  refine .bind (.mono (build_single_gives hM hA.ready b (Reading.known_number 1)) ?_)
  rintro r s' ⟨hadv, hr⟩
  refine .pure ⟨hadv, _, hr.withKnownUnit _, .single b _, fun hknown => ?_⟩
  rw [Values.normSquared_single, hunit hknown, Reading.value_number, one_mul, one_mul]

theorem pseudoscalar_versor (hM : M.Sound) (hA : M.Ready A s q) (p : Prop) :
    M.Ends p A.pseudoscalar s fun r s' => M.IsVersor A q s' r :=
  .of_gives (unitBlade_gives hM hA A.fullBlade fun hall => weight_of_all_isOne hA.squares hall _)

theorem basisVectors_versor (hM : M.Sound) (hA : M.Ready A s q) (p : Prop) :
    M.Ends p A.basisVectors s fun rs s' => ∀ r ∈ rs, M.IsVersor A q s' r := by
  have hall : ∀ c ∈ A.metric.zipIdx, A.metric[c.2]? = some c.1 := by
    rintro ⟨square, i⟩ hc
    exact List.mem_zipIdx_iff_getElem?.1 hc
  rw [basisVectors]
  generalize A.metric.zipIdx = cs at hall
  induction cs generalizing s with
  | nil => exact .pure hA.ready fun r hr => absurd hr List.not_mem_nil
  | cons c rest ih =>
    obtain ⟨hc, hrest⟩ := List.forall_mem_cons.1 hall
    rw [List.mapM_cons]
    refine .gives_bind (unitBlade_gives hM hA (.vector c.2) fun hone => ?_)
      fun r s₁ hadv hr => ?_
    · have hi : c.2 < 32 := by
        have hlength := (List.getElem?_eq_some_iff.1 hc).1
        have hdimension : A.metric.length ≤ maxDimension := A.dimension_le
        rw [maxDimension] at hdimension
        omega
      rw [Blade.weight_vector q hi]
      exact value_of_square hA.squares hc hone
    · refine .bind (ih (hA.advance hadv) hrest) fun rs s₂ hadv₂ hrs => .pure hadv₂.ready ?_
      exact List.forall_mem_cons.2 ⟨hr.mono hadv₂.symbols, hrs⟩

/-! ### Linear operations and products -/

theorem negate_versor (hM : M.Sound) (hA : M.Ready A s q) (hm : M.IsVersor A q s m) (p : Prop) :
    M.Ends p (A.negate m) s fun r s' => M.IsVersor A q s' r := by
  obtain ⟨f, hf⟩ := hm
  have hversor : (Values.flipped (fun _ => true) f).Versor q := hf.versor.neg
  exact versor_of_flipped hf hversor (negate_gives hM hA.ready hf.toDenotes)

theorem gradeInvolution_versor (hM : M.Sound) (hA : M.Ready A s q) (hm : M.IsVersor A q s m)
    (p : Prop) : M.Ends p (A.gradeInvolution m) s fun r s' => M.IsVersor A q s' r := by
  obtain ⟨f, hf⟩ := hm
  exact versor_of_flipped hf hf.versor.involuted (gradeInvolution_gives hM hA.ready hf.toDenotes)

theorem reverse_versor (hM : M.Sound) (hA : M.Ready A s q) (hm : M.IsVersor A q s m) (p : Prop) :
    M.Ends p (A.reverse m) s fun r s' => M.IsVersor A q s' r := by
  obtain ⟨f, hf⟩ := hm
  exact versor_of_flipped hf hf.versor.reversed (reverse_gives hM hA.ready hf.toDenotes)

theorem conjugate_versor (hM : M.Sound) (hA : M.Ready A s q) (hm : M.IsVersor A q s m)
    (p : Prop) : M.Ends p (A.conjugate m) s fun r s' => M.IsVersor A q s' r := by
  obtain ⟨f, hf⟩ := hm
  refine versor_of_flipped hf ?_ (conjugate_gives hM hA.ready hf.toDenotes)
  rw [Values.flipped_conjugate]
  exact hf.versor.reversed.involuted

theorem scale_versor (hM : M.Sound) (hA : M.Ready A s q) {x : Factor K S} (hx : M.Known s x)
    (hm : M.IsVersor A q s m) (p : Prop) :
    M.Ends p (A.scale x m) s fun r s' => M.IsVersor A q s' r := by
  obtain ⟨f, hf⟩ := hm
  refine .of_gives (.mono (scale_gives hM hA.ready hx hf.toDenotes) ?_)
  rintro r s' ⟨hadv, hr, hunit⟩
  exact ⟨hadv, hr.isVersor (hf.versor.scale _) hunit⟩

theorem mul_versor (hM : M.Sound) (hA : M.Ready A s q) (ha : M.IsVersor A q s a)
    (hb : M.IsVersor A q s b) :
    (A.mul .geometric a b : Emission σ K (Multivector K S)).Gives s fun r s' =>
      M.Advances s s' ∧ M.IsVersor A q s' r := by
  obtain ⟨f, ha⟩ := ha
  obtain ⟨g, hb⟩ := hb
  refine .mono (mul_gives hM hA ha.toDenotes hb.toDenotes .geometric) ?_
  rintro r s' ⟨hadv, hr, hunit⟩
  rw [ProductKind.kernel_geometric] at hr
  refine ⟨hadv, _, hr, ha.versor.mul hb.versor, fun hknown => ?_⟩
  rw [hunit, Bool.and_eq_true, Bool.and_eq_true] at hknown
  exact hb.versor.normSquared_mul_eq_one (ha.unit hknown.1.2) (hb.unit hknown.2)

theorem mulAll_versor (hM : M.Sound) (hA : M.Ready A s q) {ms : List (Multivector K S)}
    (hms : ∀ m ∈ ms, M.IsVersor A q s m) (p : Prop) :
    M.Ends p (A.mulAll .geometric ms) s fun r s' => M.IsVersor A q s' r := by
  cases ms with
  | nil => exact one_versor hM hA p
  | cons m rest =>
    obtain ⟨hm, hrest⟩ := List.forall_mem_cons.1 hms
    have howner : m.owner = A.id := hm.choose_spec.owner
    refine .gives_bind (P := fun _ s' => s = s') (check_gives howner ⟨hA.advances, rfl⟩) ?_
    rintro - _ - rfl
    -- The product so far is a versor.
    clear hms howner
    induction rest generalizing m s with
    | nil => exact .pure hA.ready hm
    | cons b rest ih =>
      obtain ⟨hb, hrest⟩ := List.forall_mem_cons.1 hrest
      refine .gives_bind (mul_versor hM hA hm hb) fun r s₁ hadv hr => ?_
      exact ih (hA.advance hadv) r hr fun m hm => (hrest m hm).mono hadv.symbols

theorem sandwichProduct_versor (hM : M.Sound) (hA : M.Ready A s q) (ha : M.IsVersor A q s a)
    (hb : M.IsVersor A q s b) (p : Prop) :
    M.Ends p (A.sandwichProduct a b) s fun r s' => M.IsVersor A q s' r := by
  obtain ⟨f, ha⟩ := ha
  obtain ⟨g, hb⟩ := hb
  refine .of_gives (.mono (sandwichProduct_gives hM hA ha.toDenotes hb.toDenotes) ?_)
  rintro r s' ⟨hadv, hr, hunit⟩
  exact ⟨hadv, _, hr, ha.versor.conjugate hb.versor, fun hknown =>
    ha.versor.normSquared_conjugate_eq_one (ha.unit (hunit hknown).1)
      (hb.unit (hunit hknown).2)⟩

/-- A unit is inverted by reversion; of other inverses nothing is stated. -/
theorem inverse_versor (hM : M.Sound) (hA : M.Ready A s q) (hm : M.IsVersor A q s m) :
    M.Ends True (A.inverse m) s fun r s' => M.IsVersor A q s' r := by
  obtain ⟨f, hf⟩ := hm
  refine .mono (inverse_ends hM hA hf.toDenotes) (fun h => h) ?_
  rintro r s' - (⟨hr, hknown⟩ | ⟨⟨x, hr⟩ | ⟨b, x, hr⟩, hunit⟩)
  · refine ⟨_, hr, hf.versor.reversed, fun _ => ?_⟩
    exact (Values.normSquared_reversed f).trans (hf.unit hknown)
  · exact hr.isVersor (hf.versor.reversed.scale x) hunit
  · exact hr.isVersor (.single b x) hunit

theorem sandwichChain_versor [Ord S] [Std.LawfulEqOrd S] (hM : M.Sound) (hA : M.Ready A s q)
    {operators : List (Multivector K S)} (hoperators : ∀ m ∈ operators, M.IsVersor A q s m)
    (hx : M.IsVersor A q s x) :
    M.Ends True (A.sandwichChain operators x) s fun r s' => M.IsVersor A q s' r := by
  have hdenote : List.Forall₂ (M.Denotes A s) operators (operators.map (M.values s)) :=
    List.forall₂_map_right_iff.2
      (List.forall₂_same.2 fun m hm => (hoperators m hm).values.toDenotes)
  refine .mono (sandwichChain_ends hM hA hdenote hx.values.toDenotes) (fun _ => trivial) ?_
  rintro r s' - ⟨hr, hunit⟩
  have hversors : ∀ f ∈ operators.map (M.values s), f.Versor q := by
    intro f hf
    obtain ⟨m, hm, rfl⟩ := List.mem_map.1 hf
    exact (hoperators m hm).values.versor
  refine ⟨_, hr, .foldr_conjugate hversors hx.values.versor, fun hknown => ?_⟩
  obtain ⟨hxknown, hknowns⟩ := hunit hknown
  refine Values.Versor.normSquared_foldr_conjugate_eq_one hversors (fun f hf => ?_)
    (hx.values.unit hxknown)
  obtain ⟨m, hm, rfl⟩ := List.mem_map.1 hf
  exact (hoperators m hm).values.unit (hknowns m hm)

end Exact

/-! ### Division by norms -/

section Ordered

variable [OrderedNumber K] [Target σ K S V] [IsEmpty S]

omit [Target σ K S V] in
/-- Without symbols, what is not a literal zero is not zero. -/
theorem value_ne_zero {f : Factor K S} (h : f.isZero = false) : M.value s f ≠ 0 := by
  cases f with
  | symbol t => exact isEmptyElim t
  | number x =>
    intro hzero
    have hliteral : Number.isZero x = true := Number.isZero_iff.2 hzero
    rw [Factor.isZero, hliteral] at h
    cases h

/-- **Normalization leads to a versor of norm one** where no vector has a negative square. -/
theorem normalize_versor (hM : M.Sound) (hA : M.Ready A s q) (hq : ∀ i, 0 ≤ q i)
    (hm : M.IsVersor A q s m) :
    M.Ends True (A.normalize m) s fun r s' => M.IsVersor A q s' r := by
  obtain ⟨f, hf⟩ := hm
  refine .mono (normalize_ends hM hA hf.toDenotes) (fun _ => trivial) ?_
  rintro r s' - ⟨-, ⟨hknown, hr⟩ | ⟨b, -, heuclidean, hzero, hr⟩ |
    ⟨square, z, hzero, hsquare, hquotient, hr⟩⟩
  · exact ⟨f, hr, hf.versor, fun _ => hf.unit hknown⟩
  · refine ⟨_, hr, .single b _, fun _ => ?_⟩
    rw [Values.normSquared_single, weight_of_isEuclidean hA.squares heuclidean, one_mul]
    exact Number.sign_mul_sign (value_ne_zero hzero)
  · refine ⟨_, hr, hf.versor.scale z, fun _ => ?_⟩
    have hne : Values.normSquared q f ≠ 0 := hsquare.value_eq ▸ value_ne_zero hzero
    rw [Values.normSquared_scale]
    rw [Number.reciprocal_sqrt_sign hne hquotient]
    exact Number.sign_of_pos ((Values.normSquared_nonneg hq f).lt_of_ne' hne)

/-- **Reflection keeps the norm of the operand**, so what is stated of it stays true. -/
theorem reflect_versor (hM : M.Sound) (hA : M.Ready A s q) {normal : Multivector K S}
    (hnormal : M.IsVersor A q s normal) (hx : M.IsVersor A q s x) :
    M.Ends True (A.reflect normal x) s fun r s' => M.IsVersor A q s' r := by
  obtain ⟨f, hf⟩ := hnormal
  obtain ⟨g, hg⟩ := hx
  refine .mono (reflect_ends hM hA hf.toDenotes hg.toDenotes) (fun _ => trivial) ?_
  rintro r s' - ⟨hunit, square, z, hzero, hsquare, hquotient, hr⟩
  refine ⟨_, hr, (hf.versor.conjugate hg.versor).scale z, fun hknown => ?_⟩
  have hvalue : M.value s' square = Values.normSquared q f := by
    rw [hsquare.value_eq]
    split
    · rename_i hnormal
      exact (hf.unit hnormal).symm
    · rfl
  rw [Values.normSquared_scale, hf.versor.normSquared_conjugate, hg.unit (hunit ▸ hknown),
    mul_one, ← hvalue]
  exact Number.negated_reciprocal (value_ne_zero hzero) hquotient

end Ordered

end Algebra

/-! ### Sandwiches -/

namespace Sandwich

variable [ExactNumber K] {P : Sandwich K S}

theorem ValidVersor.mono (h : ValidVersor M A q s P) (hext : M.Extends s s') :
    ValidVersor M A q s' P := by
  obtain ⟨f, h, hf⟩ := h
  exact ⟨f, h.mono hext, hf⟩

theorem ValidVersor.isVersor (h : ValidVersor M A q s P) : M.IsVersor A q s P.operator := by
  obtain ⟨f, h, hf, hunit⟩ := h
  exact ⟨f, h.denotes, hf, hunit⟩

theorem sandwich_versor (hA : M.Ready A s q) (hm : M.IsVersor A q s m) (p : Prop) :
    M.Ends p (A.sandwich m) s fun P s' => ValidVersor M A q s' P := by
  obtain ⟨f, hf⟩ := hm
  refine .of_gives (.bind (Algebra.check_gives hf.owner (.pure ⟨hA.advances, f, ?_⟩)))
  exact ⟨⟨rfl, rfl, hA.squares, hf.toDenotes, nofun⟩, hf.versor, hf.unit⟩

variable [Target σ K S V]

theorem force_versor (hM : M.Sound) (hA : M.Ready A s q) (h : ValidVersor M A q s P) :
    Yields P.force s fun P' s' => M.Advances s s' ∧ ValidVersor M A q s' P' := by
  obtain ⟨f, h, hf⟩ := h
  refine Yields.mono (force_yields hM h hA.ready) ?_
  rintro P' s' ⟨hadv, h'⟩
  refine ⟨hadv, f, ?_⟩
  rw [h'.operator]
  exact ⟨h', hf⟩

/-- The sandwich of a versor by a versor is a versor, also where the grades that the operand does
not have are left out. -/
theorem applyWith_versor (hM : M.Sound) (hA : M.Ready A s q) (h : ValidVersor M A q s P)
    (hx : M.IsVersor A q s x) (options : SandwichOptions) :
    Yields (P.applyWith x options) s fun (result, P') s' =>
      M.Advances s s' ∧ ValidVersor M A q s' P' ∧
        ∀ r, result = .ok (some r) → M.IsVersor A q s' r := by
  obtain ⟨f, h, hf, hunit⟩ := h
  obtain ⟨g, hx⟩ := hx
  have happlied := applyWith_ends hM h hA.ready (fun _ => hx.toDenotes) options
  have hsquares : M.Squares s P.algebra.metric q := h.algebra ▸ h.squares
  have hoperator : M.Denotes P.algebra s P.operator f := h.algebra ▸ h.denotes
  have hsum : ((P.surviving x options).map (Bucket.values q f g)).sum = Values.conjugate q f g := by
    cases hkeep : options.keepOperandGrades with
    | false => exact sum_surviving hsquares hoperator hx.toDenotes hkeep
    | true =>
      rw [sum_surviving_keepOperandGrades hsquares hoperator hx.toDenotes hkeep]
      exact hf.kept_conjugate fun b hb => hx.toDenotes.eq_zero_of_grade fun hmem =>
        Bool.eq_false_iff.1 hb (List.contains_iff_mem.2 hmem)
  rw [hsum] at happlied
  refine Yields.mono happlied ?_
  rintro ⟨result, P'⟩ s' ⟨hadv, h', hdummy, hresult⟩
  refine ⟨hadv, ⟨f, h'.operator ▸ h', hf, h'.operator ▸ hunit⟩, ?_⟩
  rintro r rfl
  have hwanted : options.dummy = false := by
    by_contra hwanted
    have hnone := hdummy hx.owner (Bool.not_eq_false _ ▸ hwanted)
    cases hnone
  obtain ⟨_, hsome, hr, hknown⟩ := hresult hx.owner hwanted
  obtain rfl := Option.some.inj hsome
  exact ⟨_, hr, hf.conjugate hx.versor, fun h =>
    hf.normSquared_conjugate_eq_one (hunit (hknown h).1) (hx.unit (hknown h).2)⟩

end Sandwich

end Clifford
