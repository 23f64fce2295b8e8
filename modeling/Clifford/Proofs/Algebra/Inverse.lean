import Clifford.Proofs.Algebra.Versors
import Clifford.Proofs.Target.Operators

/-!
# Inverses, normalization and reflection

These operations divide, so what is said of their results is said up to `Operator.Evaluates`. The
inverse is a multiple of the reverse, or a single component. Normalization multiplies with the
reciprocal root of the squared norm, or takes the sign of a single coefficient. Reflection
multiplies the sandwich with a reciprocal.

## Main definitions

- `Algebra.rescaled` — what normalization marks

## Main results

- `Algebra.call_gives`, `Algebra.combine_gives` — functions and operators on scalars
- `Algebra.loneEuclidean?_eq_some`, `Algebra.normSquared_of_loneEuclidean?` — when the norm is the
  absolute value of a coefficient
- `Algebra.inverse_ends` — the inverse is the reverse, a multiple of it, or a single component
- `Algebra.normalize_eq` — normalization marks what it has rescaled
- `Algebra.rescaled_ends`, `Algebra.normalize_ends`, `Algebra.reflect_ends` — which multiples
  normalization and reflection give
-/

namespace Clifford

variable {σ K S V : Type} [Number K] [ExactNumber K] {M : Reading σ K S V} {A : Algebra K S}
  {s : σ} {m : Multivector K S} {f : Values K} {q : Nat → K}

namespace Algebra

/-- A single component that is not zero has vectors that square to one, or the coefficient that is
taken for the norm is zero. -/
theorem loneEuclidean?_eq_some {b : Blade} (h : A.loneEuclidean? m = some b) :
    (m.value b).isZero = true ∨ A.metric.isEuclidean b = true := by
  rw [loneEuclidean?] at h
  split at h
  · -- All components are zero, and the scalar blade stands for them.
    rename_i hall
    obtain rfl : 0 = b := Option.some.inj h
    left
    rw [Multivector.value, Multivector.get?]
    cases hlookup : m.components.lookup 0 with
    | none => exact Number.isZero_iff.2 rfl
    | some value =>
      by_contra hzero
      have hleft : ((0 : Blade), value) ∈ ([] : List (Blade × Factor K S)) := by
        rw [← hall]
        exact List.mem_filter.2 ⟨mem_of_lookup hlookup, by simpa using hzero⟩
      cases hleft
  · split at h
    · rename_i heuclidean
      obtain rfl := Option.some.inj h
      exact .inr heuclidean
    · cases h
  · cases h

/-- A multivector of numbers whose only component other than zero is at a given blade. -/
theorem eq_single_of_loneEuclidean? (hm : M.Denotes A s m f) {b : Blade}
    (h : A.loneEuclidean? m = some b) : f = Values.single b (M.value s (m.value b)) := by
  have hlone : ∀ c value, (c, value) ∈ m.components → value.isZero = false → c = b := by
    intro c value hmem hzero
    rw [loneEuclidean?] at h
    split at h
    · rename_i hall
      have hleft : (c, value) ∈ ([] : List (Blade × Factor K S)) := by
        rw [← hall]
        exact List.mem_filter.2 ⟨hmem, by simpa using hzero⟩
      cases hleft
    · rename_i b' value' hsingle
      have hleft : (c, value) ∈ [(b', value')] := by
        rw [← hsingle]
        exact List.mem_filter.2 ⟨hmem, by simpa using hzero⟩
      rw [List.mem_singleton] at hleft
      split at h
      · obtain rfl := Option.some.inj h
        exact congrArg Prod.fst hleft
      · cases h
    · cases h
  have hvanish : ∀ c, c ≠ b → M.value s (m.value c) = 0 := by
    intro c hc
    rw [Multivector.value, Multivector.get?]
    cases hlookup : m.components.lookup c with
    | none => rfl
    | some value =>
      refine Reading.value_of_isZero ?_
      by_contra hzero
      exact hc (hlone c value (mem_of_lookup hlookup) (by simpa using hzero))
  rw [← hm.values_eq]
  ext c
  by_cases hc : c = b
  · rw [hc, Values.single_self]
    rfl
  · rw [Values.single_of_ne _ (Ne.symm hc)]
    exact hvanish c hc

/-- The vectors of a blade that all square to the literal one have the weight one together. -/
theorem weight_of_isEuclidean (hA : M.Squares s A.metric q) {b : Blade}
    (h : A.metric.isEuclidean b = true) : b.weight q = 1 := by
  rw [Blade.weight_eq_prod_positions]
  refine List.prod_eq_one fun x hx => ?_
  obtain ⟨i, hi, rfl⟩ := List.mem_map.1 hx
  have hone := List.all_eq_true.1 h i hi
  have hsquare := hA i
  cases hget : A.metric[i]? with
  | none =>
    rw [hget] at hone
    cases hone
  | some square =>
    rw [hget] at hone hsquare
    exact hsquare.2.symm.trans (Reading.value_of_isOne hone)

/-- Where the norm is the absolute value of a coefficient, the squared norm is its square. -/
theorem normSquared_of_loneEuclidean? (hA : M.Squares s A.metric q) (hm : M.Denotes A s m f)
    {b : Blade} (h : A.loneEuclidean? m = some b) :
    Values.normSquared q f = M.value s (m.value b) * M.value s (m.value b) := by
  rw [congrArg (Values.normSquared q) (eq_single_of_loneEuclidean? hm h), Values.normSquared_single]
  rcases loneEuclidean?_eq_some h with hzero | heuclidean
  · rw [Reading.value_of_isZero hzero, mul_zero, mul_zero]
  · rw [weight_of_isEuclidean hA heuclidean, one_mul]

variable [Target σ K S V]

omit [ExactNumber K] in
theorem call_gives (hM : M.Sound) (function : ScalarFunction) (hopen : M.Open s [])
    {args : Term K S} (hargs : M.KnownTerm s args) :
    (call function args : Emission σ K (Factor K S)).Gives s fun r s' =>
      M.Advances s s' ∧ M.HasValue s' r (function.eval (args.map (M.value s))) := by
  refine .lift (Yields.mono (Target.call_yields hM function hopen hargs) ?_)
  rintro r s' ⟨hkeeps, hopen', hr⟩
  exact ⟨hkeeps.advances hopen', hr⟩

theorem combine_gives (hM : M.Sound) (op : Operator) (hopen : M.Open s []) {x y : Factor K S}
    (hx : M.Known s x) (hy : M.Known s y) :
    (combine op x y : Emission σ K (Factor K S)).Gives s fun r s' =>
      M.Advances s s' ∧ M.Known s' r ∧
        op.Evaluates (M.value s x) (M.value s y) (M.value s' r) := by
  refine .lift (Yields.mono (Target.combine_evaluates hM op hopen hx hy) ?_)
  rintro r s' ⟨hkeeps, hopen', hr⟩
  exact ⟨hkeeps.advances hopen', hr⟩

/-- An operator other than division has its value. -/
theorem combine_gives_value (hM : M.Sound) {op : Operator} (hop : op ≠ .div) (hopen : M.Open s [])
    {x y : Factor K S} {u v : K} (hx : M.HasValue s x u) (hy : M.HasValue s y v) :
    (combine op x y : Emission σ K (Factor K S)).Gives s fun r s' =>
      M.Advances s s' ∧ M.HasValue s' r (op.eval u v) := by
  refine .lift (Yields.mono (Target.combine_yields hM hop hopen hx.known hy.known) ?_)
  intro r s' ⟨hkeeps, hopen', hknown, hvalue⟩
  rw [hx.value_eq, hy.value_eq] at hvalue
  exact ⟨hkeeps.advances hopen', hknown, hvalue⟩

/-- The coefficient of the inverse of a single component. -/
theorem inverseComponent_gives (hM : M.Sound) (hopen : M.Open s []) (b : Blade)
    {value : Factor K S} (hvalue : M.Known s value) (square : K) :
    (A.inverseComponent b value square : Emission σ K (Multivector K S)).Gives s fun r s' =>
      M.Advances s s' ∧ (∃ x, Operator.div.Evaluates (Blade.reverseSign K b / square)
        (M.value s value) x ∧ M.Denotes A s' r (Values.single b x)) ∧ r.knownUnit = false := by
  have hsign : (if isOdd b.reverseFlips then (-1 : K) else 1) = Blade.reverseSign K b := by
    rw [ite_isOdd_neg, mul_one, Blade.reverseSign]
  rw [inverseComponent, hsign]
  refine .bind (.mono (combine_gives hM .div hopen (Reading.known_number _) hvalue) ?_)
  rintro coefficient s₁ ⟨hadv, hknown, hquotient⟩
  have hcs : M.Contribute s₁ [{ blade := b, term := [coefficient] }]
      (Values.single b (M.value s₁ coefficient)) :=
    .singleton (.cons hknown .nil) (Contribution.values_singleton b coefficient false)
  refine .mono (build_gives hM hadv.ready hcs) ?_
  rintro r s₂ ⟨hadv₂, hr, hunit⟩
  exact ⟨hadv.trans hadv₂, ⟨_, hquotient, hr⟩, hunit⟩

/-- The multiple of the reverse that is taken for the inverse. -/
theorem inverseByReverse_gives (hM : M.Sound) (hopen : M.Open s []) (hm : M.Denotes A s m f)
    {square : Factor K S} (hsquare : M.Known s square) :
    (A.inverseByReverse m square : Emission σ K (Multivector K S)).Gives s fun r s' =>
      M.Advances s s' ∧ (∃ x, Operator.div.Evaluates 1 (M.value s square) x ∧
        M.Denotes A s' r fun b => x * Values.reversed f b) ∧ r.knownUnit = false := by
  refine .bind (.mono (combine_gives hM .div hopen (Reading.known_number 1) hsquare) ?_)
  rintro factor s₁ ⟨hadv, hknown, hquotient⟩
  refine .mono (build_gives hM hadv.ready
    ((hm.mono hadv.symbols).contribute_resigned hknown fun b => isOdd b.reverseFlips)) ?_
  rintro r s₂ ⟨hadv₂, hr, hunit⟩
  exact ⟨hadv.trans hadv₂, ⟨_, hquotient, hr⟩, hunit⟩

/-- What is stated to be a unit is inverted by reversion alone. -/
theorem inverse_of_unit (hM : M.Sound) (hopen : M.Open s []) (hm : M.Denotes A s m f)
    (hunit : m.knownUnit = true) :
    (A.inverse m : Emission σ K (Multivector K S)).Gives s fun r s' =>
      M.Advances s s' ∧ M.Denotes A s' r (Values.reversed f) ∧ r.knownUnit = true := by
  refine .bind (check_gives hm.owner ?_)
  rw [if_pos hunit]
  have hreverse := reverse_gives hM hopen hm
  rwa [hunit] at hreverse

/-- **The inverse is the reverse of a unit, a multiple of the reverse, or a single component.** -/
theorem inverse_ends (hM : M.Sound) (hA : M.Ready A s q) (hm : M.Denotes A s m f) :
    M.Ends True (A.inverse m) s fun r s' =>
      (M.Denotes A s' r (Values.reversed f) ∧ m.knownUnit = true) ∨
        ((∃ x, M.Denotes A s' r fun b => x * Values.reversed f b) ∨
          ∃ b x, M.Denotes A s' r (Values.single b x)) ∧ r.knownUnit = false := by
  refine .gives_bind (P := fun _ s' => s = s') (check_gives hm.owner ⟨hA.advances, rfl⟩) ?_
  rintro - _ - rfl
  split
  · rename_i hknown
    refine .of_gives (.mono (reverse_gives hM hA.ready hm) ?_)
    rintro r s' ⟨hadv, hr, -⟩
    exact ⟨hadv, .inl ⟨hr, hknown⟩⟩
  refine .gives_bind (normSquared_emits hM hA hm) fun square s₁ hadv₁ hsquare => ?_
  by_cases hzero : square.isZero = true
  · rw [if_pos hzero]
    exact .throw_bind hadv₁.ready trivial
  rw [if_neg hzero]
  refine .gives_bind (.mono (annotate_gives hM hadv₁.ready "inverse")
    fun _ _ hadv => ⟨hadv, trivial⟩) fun _ s₂ hadv₂ _ => ?_
  have hm₂ := hm.mono (hadv₁.trans hadv₂).symbols
  have hreverse : M.Ends True (A.inverseByReverse m square) s₂ fun r s' =>
      (M.Denotes A s' r (Values.reversed f) ∧ m.knownUnit = true) ∨
        ((∃ x, M.Denotes A s' r fun b => x * Values.reversed f b) ∨
          ∃ b x, M.Denotes A s' r (Values.single b x)) ∧ r.knownUnit = false := by
    refine .of_gives (.mono (inverseByReverse_gives hM hadv₂.ready hm₂
      (hadv₂.symbols.known hsquare.known)) ?_)
    rintro r s' ⟨hadv, ⟨x, -, hr⟩, hunit⟩
    exact ⟨hadv, .inr ⟨.inl ⟨x, hr⟩, hunit⟩⟩
  split
  · rename_i b value hsingle
    split
    · have hvalue : M.Known s₂ value := hm₂.known (b, value) (by rw [hsingle]; simp)
      refine .of_gives (.mono (inverseComponent_gives hM hadv₂.ready b hvalue _) ?_)
      rintro r s' ⟨hadv, ⟨x, -, hr⟩, hunit⟩
      exact ⟨hadv, .inr ⟨.inr ⟨b, x, hr⟩, hunit⟩⟩
    · exact hreverse
  · exact hreverse

/-! ### Normalization -/

/-- What normalization marks: the sign of a lone coefficient, or the multiple of the operand by the
reciprocal root of the magnitude of the squared norm. -/
def rescaled (A : Algebra K S) (m : Multivector K S) : Emission σ K (Multivector K S) :=
  match A.loneEuclidean? m with
  | some b => do
    if (m.value b).isZero then throw (.divisionByZero "normalize")
    let sign ← call .sign [m.value b]
    A.build [{ blade := b, term := [sign] }]
  | none => do
    let square ← A.normSquared m
    if square.isZero then throw (.divisionByZero "normalize")
    let magnitude ← call .abs [square]
    let root ← call .sqrt [magnitude]
    let factor ← combine .div (.number 1) root
    A.scale factor m

omit [ExactNumber K] in
/-- **Normalization marks what it has rescaled**, unless the operand is marked already. -/
theorem normalize_eq (A : Algebra K S) (m : Multivector K S) :
    (A.normalize m : Emission σ K (Multivector K S)) = (do
      A.check m
      if m.knownUnit then pure m
      else
        A.annotate "normalize"
        let result ← A.rescaled m
        A.markUnit result) := by
  unfold normalize rescaled
  refine congrArg _ (funext fun _ => ?_)
  split
  · rfl
  refine congrArg _ (funext fun _ => ?_)
  cases A.loneEuclidean? m with
  | none =>
    simp only [bind_assoc]
    refine congrArg _ (funext fun square => ?_)
    split <;> rfl
  | some b =>
    simp only [normalizeComponent]
    split
    · rfl
    · simp only [bind_assoc]

/-- **What is rescaled is the sign of the only coefficient, whose blade squares to one, or a
multiple by a reciprocal root of the squared norm.** This fails only if the squared norm is zero. -/
theorem rescaled_ends (hM : M.Sound) (hA : M.Ready A s q) (hm : M.Denotes A s m f)
    (hunit : m.knownUnit = false) :
    M.Ends (Values.normSquared q f = 0) (A.rescaled m) s fun r s' =>
      (∃ b, A.loneEuclidean? m = some b ∧ A.metric.isEuclidean b = true ∧
        (m.value b).isZero = false ∧
        M.Denotes A s' r (Values.single b (Number.sign (M.value s' (m.value b))))) ∨
      ∃ square z, square.isZero = false ∧ M.HasValue s' square (Values.normSquared q f) ∧
        Operator.div.Evaluates 1 (Number.sqrt (Number.abs (Values.normSquared q f))) z ∧
        M.Denotes A s' r fun b => z * f b := by
  unfold rescaled
  split
  · rename_i b hlone
    have hvalue : M.Known s (m.value b) := hm.known_value b
    by_cases hzero : (m.value b).isZero = true
    · rw [if_pos hzero]
      refine .throw_bind hA.ready ?_
      rw [normSquared_of_loneEuclidean? hA.squares hm hlone, Reading.value_of_isZero hzero,
        mul_zero]
    rw [if_neg hzero]
    refine .gives_bind (call_gives hM .sign hA.ready (.cons hvalue .nil)) ?_
    intro sign s₁ hadv₁ hsign
    refine .of_gives (.mono (build_single_gives hM hadv₁.ready b hsign.known) ?_)
    rintro r s₂ ⟨hadv₂, hr⟩
    rw [hsign.value_eq, List.map_singleton,
      ← (hadv₁.trans hadv₂).symbols.value_eq hvalue] at hr
    refine ⟨hadv₂, .inl ⟨b, hlone, ?_, Bool.eq_false_iff.2 hzero, hr⟩⟩
    exact (loneEuclidean?_eq_some hlone).resolve_left hzero
  · refine .gives_bind (normSquared_of_unmarked hM hA hm hunit) fun square s₁ hadv₁ hsquare => ?_
    by_cases hzero : square.isZero = true
    · rw [if_pos hzero]
      exact .throw_bind hadv₁.ready (hsquare.value_eq.symm.trans (Reading.value_of_isZero hzero))
    rw [if_neg hzero]
    refine .gives_bind (call_gives hM .abs hadv₁.ready (.cons hsquare.known .nil)) ?_
    intro magnitude s₂ hadv₂ hmagnitude
    refine .gives_bind (call_gives hM .sqrt hadv₂.ready (.cons hmagnitude.known .nil)) ?_
    intro root s₃ hadv₃ hroot
    refine .gives_bind (combine_gives hM .div hadv₃.ready (Reading.known_number 1) hroot.known) ?_
    rintro factor s₄ hadv₄ ⟨hfactor, hquotient⟩
    have hadv₁₄ := ((hadv₁.trans hadv₂).trans hadv₃).trans hadv₄
    refine .of_gives (.mono (scale_gives hM hadv₄.ready hfactor (hm.mono hadv₁₄.symbols)) ?_)
    rintro r s₅ ⟨hadv₅, hr, -⟩
    refine ⟨hadv₅, .inr ⟨square, _, Bool.eq_false_iff.2 hzero, ?_, ?_, hr⟩⟩
    · exact (((hadv₂.trans hadv₃).trans hadv₄).trans hadv₅).symbols.hasValue hsquare
    · rw [← hsquare.value_eq]
      have hvalue : M.value s₃ root = Number.sqrt (Number.abs (M.value s₁ square)) := by
        rw [hroot.value_eq, List.map_singleton, hmagnitude.value_eq]
        rfl
      rwa [hvalue] at hquotient

/-- **A normalized multivector was a unit before, or is the sign of its only coefficient, whose
blade squares to one, or is a multiple by a reciprocal root of the squared norm.** It fails only if
norms are verified, or the squared norm is zero. -/
theorem normalize_ends (hM : M.Sound) (hA : M.Ready A s q) (hm : M.Denotes A s m f) :
    M.Ends (A.settings.unitTolerance?.isSome = true ∨ Values.normSquared q f = 0) (A.normalize m) s
      fun r s' => r.knownUnit = true ∧
        (m.knownUnit = true ∧ M.Denotes A s' r f ∨
          (∃ b, A.loneEuclidean? m = some b ∧ A.metric.isEuclidean b = true ∧
            (m.value b).isZero = false ∧
            M.Denotes A s' r (Values.single b (Number.sign (M.value s' (m.value b))))) ∨
          ∃ square z, square.isZero = false ∧
            M.HasValue s' square (Values.normSquared q f) ∧
            Operator.div.Evaluates 1 (Number.sqrt (Number.abs (Values.normSquared q f))) z ∧
            M.Denotes A s' r fun b => z * f b) := by
  rw [normalize_eq]
  refine .gives_bind (P := fun _ s' => s = s') (check_gives hm.owner ⟨hA.advances, rfl⟩) ?_
  rintro - _ - rfl
  by_cases hknown : m.knownUnit = true
  · rw [if_pos hknown]
    exact .pure hA.ready ⟨hknown, .inl ⟨hknown, hm⟩⟩
  rw [if_neg hknown]
  refine .gives_bind (.mono (annotate_gives hM hA.ready "normalize")
    fun _ _ hadv => ⟨hadv, trivial⟩) fun _ s₁ hadv₁ _ => ?_
  have hrescaled := rescaled_ends hM (hA.advance hadv₁) (hm.mono hadv₁.symbols)
    (Bool.eq_false_iff.2 hknown)
  refine .bind (.mono hrescaled .inr fun _ _ _ h => h) fun r s₂ hadv₂ hr => ?_
  refine .mono (markUnit_ends hadv₂.ready ⟨rfl, .inr (hr.imp ?_ ?_)⟩) .inl fun _ _ _ h => h
  · rintro ⟨b, hlone, heuclidean, hzero, hr⟩
    exact ⟨b, hlone, heuclidean, hzero, hr.withKnownUnit true⟩
  · rintro ⟨square, z, hzero, hsquare, hz, hr⟩
    exact ⟨square, z, hzero, hsquare, hz, hr.withKnownUnit true⟩

/-! ### Reflection -/

/-- **A reflection is a multiple of the sandwich by the negated reciprocal of the squared norm.**
The statement about the norm is that of the operand. It fails only if the normal is marked as a
unit, so that norms may be verified, or its squared norm is zero. -/
theorem reflect_ends (hM : M.Sound) (hA : M.Ready A s q) {normal x : Multivector K S}
    {g : Values K} (hnormal : M.Denotes A s normal f) (hx : M.Denotes A s x g) :
    M.Ends (normal.knownUnit = true ∨ Values.normSquared q f = 0) (A.reflect normal x) s fun r s' =>
      r.knownUnit = x.knownUnit ∧ ∃ square z, square.isZero = false ∧
        M.HasValue s' square (if normal.knownUnit then 1 else Values.normSquared q f) ∧
        Operator.div.Evaluates (-1) (M.value s' square) z ∧
        M.Denotes A s' r fun b => z * Values.conjugate q f g b := by
  refine .gives_bind (normSquared_emits hM hA hnormal) fun square s₁ hadv₁ hsquare => ?_
  by_cases hzero : square.isZero = true
  · rw [if_pos hzero]
    refine .throw_bind hadv₁.ready ?_
    by_cases hknown : normal.knownUnit = true
    · exact .inl hknown
    · rw [if_neg hknown] at hsquare
      exact .inr (hsquare.value_eq.symm.trans (Reading.value_of_isZero hzero))
  rw [if_neg hzero]
  have hA₁ := hA.advance hadv₁
  have hnormal₁ := hnormal.mono hadv₁.symbols
  refine .gives_bind (P := fun P s' => P = { algebra := A, operator := normal } ∧ s₁ = s') ?_ ?_
  · exact .bind (check_gives hnormal.owner (.pure ⟨hA₁.advances, rfl, rfl⟩))
  rintro P _ - ⟨rfl, rfl⟩
  have hvalid : Sandwich.Valid M A normal q f s₁ { algebra := A, operator := normal } :=
    ⟨rfl, rfl, hA₁.squares, hnormal₁, nofun⟩
  refine .gives_bind (.lift (Sandwich.apply_ends hM hvalid hadv₁.ready
    (hx.mono hadv₁.symbols))) ?_
  rintro ⟨result, _⟩ s₂ hadv₂ ⟨-, hresult⟩
  rcases result with e | conjugated
  · exact .throw_bind hadv₂.ready (.inl hresult.2.1)
  obtain ⟨hconjugated, -⟩ := hresult
  refine .gives_bind (P := fun r s' => r = conjugated ∧ s₂ = s')
    (.pure ⟨.refl hadv₂.ready, rfl, rfl⟩) ?_
  rintro _ _ - ⟨rfl, rfl⟩
  have hsquare₂ := hadv₂.symbols.hasValue hsquare
  refine .gives_bind (combine_gives hM .div hadv₂.ready (Reading.known_number (-1))
    hsquare₂.known) ?_
  rintro factor s₃ hadv₃ ⟨hfactor, hquotient⟩
  refine .gives_bind (scale_gives hM hadv₃.ready hfactor (hconjugated.mono hadv₃.symbols)) ?_
  rintro reflected s₄ hadv₄ ⟨hreflected, -⟩
  have hadv₂₄ := hadv₃.trans hadv₄
  refine .pure hadv₄.ready ⟨rfl, square, _, Bool.eq_false_iff.2 hzero,
    hadv₂₄.symbols.hasValue hsquare₂, ?_, hreflected.withKnownUnit _⟩
  rwa [hadv₂₄.symbols.value_eq hsquare₂.known]

end Algebra

end Clifford
