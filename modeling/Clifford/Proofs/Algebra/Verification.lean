import Clifford.Proofs.Algebra.Numeric
import Clifford.Proofs.Algebra.UnitHints

/-!
# Verified unit norms

An algebra may be told to verify unit norms: then a result is marked only if its norm is within a
tolerance of one. Operations that mark what they have built verify it; operations that change
signs, and duality where it is marked at all, keep the norm of their operand. Products of several
factors and reflections pass the mark of their operands on without looking at the result, so nothing
is said of them here.

## Main definitions

- `Emission.Returns` — what holds of whatever a computation returns
- `Algebra.Tolerates` — verification accepts a squared norm
- `Multivector.Verified` — a multivector that is marked as unit has an accepted norm

## Main results

- `Algebra.markUnit_gives` — what verification tolerates is marked
- `Algebra.markUnit_returns` — what is marked is verified
- the lemmas on each operation, named after it and after `returns`
-/

namespace Clifford

variable {σ K S V α β : Type}

/-! ### What computations return -/

/-- Whatever the computation returns, from whatever state it starts, satisfies `Q`. -/
def Emission.Returns (c : Emission σ K α) (Q : α → Prop) : Prop :=
  ∀ s a, (c.outcome s).1 = .ok a → Q a

namespace Emission.Returns

variable {c : Emission σ K α} {k : α → Emission σ K β} {a : α} {e : AlgebraError K}
  {P Q : α → Prop}

theorem pure (h : Q a) : Returns (Pure.pure a : Emission σ K α) Q :=
  fun _ _ hb => Except.ok.inj hb ▸ h

theorem throw : Returns (MonadExcept.throw e : Emission σ K α) Q := by
  intro s a ha
  cases ha

theorem mono (h : c.Returns P) (hPQ : ∀ a, P a → Q a) : c.Returns Q :=
  fun s a ha => hPQ a (h s a ha)

theorem bind {Q : β → Prop} (hc : c.Returns P) (hk : ∀ a, P a → (k a).Returns Q) :
    (c >>= k).Returns Q := by
  intro s b hb
  rw [outcome_bind] at hb
  rcases houtcome : c.outcome s with ⟨e | a, s'⟩
  · rw [houtcome] at hb
    cases hb
  · rw [houtcome] at hb
    exact hk a (hc s a (by rw [houtcome])) s' b hb

/-- Only the last part of a computation returns something. -/
theorem after {Q : β → Prop} (hk : ∀ a, (k a).Returns Q) : (c >>= k).Returns Q :=
  .bind (P := fun _ => True) (fun _ _ _ => trivial) fun a _ => hk a

/-- After a failure nothing is returned. -/
theorem throw_bind {Q : β → Prop} :
    ((MonadExcept.throw e : Emission σ K α) >>= k).Returns Q :=
  .bind (P := fun _ => False) .throw fun _ h => h.elim

theorem of_ends {M : Reading σ K S V} {p : Prop} (h : ∀ s, M.Ends p c s fun a _ => Q a) :
    c.Returns Q := by
  intro s a ha
  obtain ⟨-, hresult⟩ := h s
  change (c.run.run s).1 = .ok a at ha
  rw [ha] at hresult
  exact hresult

theorem of_gives (h : ∀ s, c.Gives s fun a _ => Q a) : c.Returns Q := by
  intro s a ha
  obtain ⟨b, s', hb, hQ⟩ := h s
  rw [hb] at ha
  exact Except.ok.inj ha ▸ hQ

/-- An operation that checks an operand first. -/
theorem of_check {A : Algebra K S} {m : Multivector K S} {k : Unit → Emission σ K β}
    {Q : β → Prop} (hk : m.owner = A.id → (A.check m >>= k).Returns Q) :
    (A.check m >>= k).Returns Q := by
  by_cases howner : m.owner = A.id
  · exact hk howner
  · have howns : ¬ A.owns m = true := by simpa [Algebra.owns] using howner
    rw [Algebra.check, if_neg howns]
    exact .throw_bind

end Emission.Returns

/-- What holds of whatever a computation returns also holds of what it ends with. -/
theorem Reading.Ends.and_returns {M : Reading σ K S V} {p : Prop} {c : Emission σ K α} {s : σ}
    {P : α → σ → Prop} {Q : α → Prop} (h : M.Ends p c s P) (hQ : c.Returns Q) :
    M.Ends p c s fun a s' => P a s' ∧ Q a := by
  obtain ⟨hadv, hresult⟩ := h
  refine ⟨hadv, ?_⟩
  have hreturns : ∀ a, (c.run.run s).1 = .ok a → Q a := hQ s
  generalize (c.run.run s).1 = r at hresult hreturns ⊢
  cases r with
  | error e => exact hresult
  | ok a => exact ⟨hresult, hreturns a rfl⟩

/-! ### Operations that do not mark their result -/

namespace Algebra

variable [Number K] [Target σ K S V] {A : Algebra K S} {m : Multivector K S}

theorem finish_returns (draft : Draft K V) :
    (A.finish draft : Emission σ K (Multivector K S)).Returns fun r => r.knownUnit = false :=
  fun _ _ h => Except.ok.inj h ▸ rfl

theorem build_returns (cs : List (Contribution K S)) :
    (A.build cs : Emission σ K (Multivector K S)).Returns fun r => r.knownUnit = false :=
  .after fun draft => finish_returns draft

theorem emitTree_returns (tree : ProductTree K S) :
    (A.emitTree tree : Emission σ K (Multivector K S)).Returns fun r => r.knownUnit = false :=
  .after fun _ => finish_returns _

theorem vector_returns (xs : List (Factor K S)) :
    (A.vector xs : Emission σ K (Multivector K S)).Returns fun r => r.knownUnit = false := by
  unfold vector
  split
  · exact .throw
  · exact build_returns _

theorem ofNamed_returns (cs : List (String × Factor K S)) :
    (A.ofNamed cs : Emission σ K (Multivector K S)).Returns fun r => r.knownUnit = false :=
  .after fun draft => finish_returns draft

theorem scale_returns (x : Factor K S) (m : Multivector K S) :
    (A.scale x m : Emission σ K (Multivector K S)).Returns fun r => r.knownUnit = false := by
  refine .after fun _ => ?_
  split
  · exact .pure rfl
  · exact .after fun _ => build_returns _

theorem extract_returns (keep : Blade → Bool) (m : Multivector K S) :
    (A.extract keep m : Emission σ K (Multivector K S)).Returns fun r => r.knownUnit = false :=
  .after fun _ => build_returns _

theorem minus_returns (a b : Multivector K S) :
    (A.minus a b : Emission σ K (Multivector K S)).Returns fun r => r.knownUnit = false :=
  .after fun _ => .after fun _ => .after fun _ => build_returns _

theorem log_returns (m : Multivector K S) :
    (A.log m : Emission σ K (Multivector K S)).Returns fun r => r.knownUnit = false := by
  refine .after fun _ => .after fun _ => .after fun norm => ?_
  split
  · exact .throw_bind
  · exact .after fun _ => .after fun _ => .after fun _ => scale_returns _ _

theorem outermorphism_returns (m : Multivector K S) (matrix : SparseMatrix K S) :
    (A.outermorphism m matrix : Emission σ K (Multivector K S)).Returns fun r =>
      r.knownUnit = false := by
  refine .after fun _ => ?_
  split
  · exact .throw_bind
  · exact .after fun _ => build_returns _

end Algebra

/-! ### Verification -/

variable [Number K]

/-- Verification of unit norms accepts a squared norm, if it takes place at all. -/
def Algebra.Tolerates (A : Algebra K S) (square : K) : Prop :=
  ∀ tolerance, A.settings.unitTolerance? = some tolerance →
    ¬ tolerance < Number.abs (Number.sqrt (Number.abs square) - 1)

/-- A squared norm of one is accepted by every tolerance that is not negative. -/
theorem Algebra.tolerates_one [OrderedNumber K] {A : Algebra K S}
    (hA : ∀ tolerance, A.settings.unitTolerance? = some tolerance → ¬ tolerance < 0)
    (hroot : ¬ Number.sqrt (1 : K) < 0) : A.Tolerates 1 := by
  intro tolerance htolerance
  have habs : ∀ x : K, ¬ x < 0 → Number.abs x = x := fun x hx => by
    rw [OrderedNumber.abs_eq, if_neg hx]
  rw [habs 1 (not_lt_of_ge zero_le_one), Number.sqrt_one (not_lt.1 hroot), sub_self,
    habs 0 (lt_irrefl 0)]
  exact hA tolerance htolerance

variable [ExactNumber K]

namespace Algebra

section Norm

variable {M : Reading σ K S V} {A : Algebra K S} {s : σ} {q : Nat → K} {m : Multivector K S}
  {f : Values K}

/-- A square that is left out is zero. -/
theorem numericSquare?_eq_some (hA : M.Squares s A.metric q) {b : Blade} {value : Factor K S}
    {square : Option K} (h : A.numericSquare? b value = some square) :
    square.getD 0 = b.weight q * (M.value s value * M.value s value) := by
  rw [numericSquare?, Option.bind_eq_bind, Option.bind_eq_some_iff] at h
  obtain ⟨x, hx, h⟩ := h
  have hvalue : M.value s value = x := by
    cases value with
    | number y => exact Option.some.inj hx
    | symbol t => cases hx
  rw [hvalue]
  split at h
  · rename_i hfactors
    obtain rfl := Option.some.inj h
    rw [hA.factors?_eq_none hfactors, zero_mul]
    rfl
  · rename_i squares hfactors
    rw [Option.bind_eq_some_iff] at h
    obtain ⟨p, hp, h⟩ := h
    obtain rfl := Option.some.inj h
    rw [← (hA.factors?_eq_some hfactors).2, Reading.termValue_of_product? hp, Option.getD_some,
      mul_assoc]

/-- **The norm that verification looks at is the root of the squared norm**, if it is a number. -/
theorem numericNorm?_eq_some (hA : M.Squares s A.metric q) {norm : K}
    (h : A.numericNorm? m = some norm) :
    norm = Number.sqrt (Number.abs
      (m.components.map fun c => c.1.weight q * (M.value s c.2 * M.value s c.2)).sum) := by
  have hsum : ∀ (cs : List (Blade × Factor K S)) (squares : List (Option K)),
      (cs.mapM fun c => A.numericSquare? c.1 c.2) = some squares →
        (squares.filterMap fun square => square).sum =
          (cs.map fun c => c.1.weight q * (M.value s c.2 * M.value s c.2)).sum := by
    intro cs
    induction cs with
    | nil =>
      intro squares hsquares
      obtain rfl := Option.some.inj hsquares
      rfl
    | cons c rest ih =>
      intro squares hsquares
      rw [List.mapM_cons, Option.bind_eq_bind, Option.bind_eq_some_iff] at hsquares
      obtain ⟨square, hsquare, hsquares⟩ := hsquares
      rw [Option.bind_eq_bind, Option.bind_eq_some_iff] at hsquares
      obtain ⟨others, hothers, hsquares⟩ := hsquares
      obtain rfl := Option.some.inj hsquares
      rw [List.map_cons, List.sum_cons, ← numericSquare?_eq_some hA hsquare, ← ih others hothers]
      cases square with
      | none => exact (zero_add _).symm
      | some x => exact List.sum_cons
  rw [numericNorm?, Option.bind_eq_bind, Option.bind_eq_some_iff] at h
  obtain ⟨squares, hsquares, h⟩ := h
  obtain rfl := Option.some.inj h
  rw [Number.foldl_add_eq, zero_add, hsum m.components squares hsquares]

/-- **What verification tolerates is marked.** -/
theorem markUnit_gives (hA : M.Ready A s q) (hm : M.Denotes A s m f)
    (htolerates : A.Tolerates (Values.normSquared q f)) :
    (A.markUnit m : Emission σ K (Multivector K S)).Gives s fun r s' =>
      M.Advances s s' ∧ M.Denotes A s' r f ∧ r.knownUnit = true := by
  have hmarked : Emission.Gives (pure (m.withKnownUnit true) : Emission σ K _) s fun r s' =>
      M.Advances s s' ∧ M.Denotes A s' r f ∧ r.knownUnit = true :=
    .pure ⟨hA.advances, hm.withKnownUnit true, rfl⟩
  unfold markUnit
  split
  · rename_i tolerance norm htolerance hnorm
    have hsquared : (m.components.map fun c =>
        c.1.weight q * (M.value s c.2 * M.value s c.2)).sum = Values.normSquared q f := by
      rw [Values.normSquared, ← hm.values_eq]
      exact Reading.sum_components (fun b x => b.weight q * (x * x))
        (fun b => by rw [mul_zero, mul_zero]) hm.nodup
    rw [numericNorm?_eq_some hA.squares hnorm, hsquared,
      if_neg (htolerates tolerance htolerance)]
    exact hmarked
  · exact hmarked

end Norm

end Algebra

/-- Where all components are literal zeros, all coefficients are zero. -/
theorem Reading.values_eq_zero {M : Reading σ K S V} {s : σ} {m : Multivector K S}
    (h : (m.components.all fun c => c.2.isZero) = true) : M.values s m = 0 := by
  funext b
  rw [values_apply, Multivector.value, Multivector.get?]
  cases hlookup : m.components.lookup b with
  | none => exact value_number 0
  | some f => exact value_of_isZero (List.all_eq_true.1 h _ (mem_of_lookup hlookup))

/-- A multivector that is marked as unit has a norm that verification accepts. -/
def Multivector.Verified (A : Algebra K Empty) (m : Multivector K Empty) : Prop :=
  m.knownUnit = true → A.Tolerates (m.squaredNorm A)

variable {A : Algebra K Empty} {t : NumericTarget K} {m a b : Multivector K Empty}
  {f g : Values K}

theorem Multivector.Verified.of_unmarked (h : m.knownUnit = false) : m.Verified A := by
  intro hknown
  rw [h] at hknown
  cases hknown

/-- The same squared norm, and a mark only if the other one is marked. -/
theorem Multivector.Verified.of_squaredNorm (hm : m.Verified A)
    (hknown : a.knownUnit = true → m.knownUnit = true)
    (hnorm : a.squaredNorm A = m.squaredNorm A) : a.Verified A := by
  intro ha
  rw [hnorm]
  exact hm (hknown ha)

/-- A versor that is marked as unit only if its squared norm is one. -/
theorem Reading.IsVersor.verified (hA : A.Tolerates 1)
    (h : (NumericTarget.reading K).IsVersor A A.square t m) : m.Verified A := by
  obtain ⟨f, hf⟩ := h
  intro hknown
  rw [Multivector.squaredNorm_eq hf.toDenotes, hf.unit hknown]
  exact hA

/-- A product that keeps all pairs of blades is the geometric product. -/
theorem Reading.Denotes.convolve_kernel {M : Reading σ K S V} {B : Algebra K S} {s : σ}
    {a b : Multivector K S} {q : Nat → K} {kind : ProductKind} (ha : M.Denotes B s a f)
    (hb : M.Denotes B s b g) (hkeeps : kind.keepsAll a b = true) :
    Values.convolve (kind.kernel q) f g = Values.convolve (Blade.twist q) f g := by
  have hall : ∀ l ∈ a.blades, ∀ r ∈ b.blades, kind.includes l r = true := fun l hl r hr =>
    List.all_eq_true.1 (List.all_eq_true.1 hkeeps l hl) r hr
  funext c
  refine Finset.sum_congr rfl fun l _ => Finset.sum_congr rfl fun r _ => ?_
  by_cases hl : l ∈ a.blades
  · by_cases hr : r ∈ b.blades
    · rw [ProductKind.kernel, if_pos (hall l hl r hr)]
    · rw [hb.eq_zero hr, mul_zero, mul_zero, mul_zero]
  · rw [ha.eq_zero hl, zero_mul, mul_zero, mul_zero]

namespace Algebra

omit [ExactNumber K] in
/-- Without symbols, every component has a square. -/
theorem numericSquare?_isSome (b : Blade) (x : Factor K Empty) :
    (A.numericSquare? b x).isSome = true := by
  obtain ⟨x⟩ | s := x
  swap
  · exact s.elim
  cases hfactors : A.metric.factors? b with
  | none => simp [numericSquare?, hfactors, Factor.number?]
  | some squares =>
    cases hproduct : Term.product? squares with
    | none => exact (Term.nonempty_of_product?_eq_none hproduct).elim Empty.elim
    | some square => simp [numericSquare?, hfactors, hproduct, Factor.number?]

/-- Without symbols, verification looks at the root of the squared norm. -/
theorem numericNorm?_eq (A : Algebra K Empty) (m : Multivector K Empty) :
    A.numericNorm? m = some (Number.sqrt (Number.abs (m.squaredNorm A))) := by
  have hsquares : (fun c : Blade × Factor K Empty => A.numericSquare? c.1 c.2) =
      fun c => pure ((A.numericSquare? c.1 c.2).get (numericSquare?_isSome c.1 c.2)) :=
    funext fun c => (Option.some_get _).symm
  have hnorm : ∃ norm, A.numericNorm? m = some norm := by
    rw [numericNorm?, hsquares, List.mapM_pure]
    exact ⟨_, rfl⟩
  obtain ⟨norm, hnorm⟩ := hnorm
  rw [hnorm, numericNorm?_eq_some (NumericTarget.ready A .idle).squares hnorm]
  simp only [NumericTarget.value_eq, Multivector.squaredNorm]

/-- **What is marked is verified.** -/
theorem markUnit_returns (A : Algebra K Empty) (m : Multivector K Empty) :
    (A.markUnit m : Emission σ K _).Returns (Multivector.Verified A) := by
  unfold markUnit
  rw [numericNorm?_eq]
  split
  · rename_i tolerance norm htolerance hnorm
    obtain rfl := Option.some.inj hnorm
    split
    · exact .throw
    · rename_i haccepted
      refine .pure fun _ tolerance' htolerance' => ?_
      rw [htolerance] at htolerance'
      exact Option.some.inj htolerance' ▸ haccepted
  · rename_i hnone
    exact .pure fun _ tolerance htolerance => absurd rfl (hnone tolerance _ htolerance)

/-! ### Operations that change signs -/

theorem resign_returns (hnodup : m.blades.Nodup) (hm : m.Verified A) (operation : String)
    (flip : Blade → Bool) :
    Emission.Returns (do A.annotate operation; A.resign flip m : Emission (NumericTarget K) K _)
      (Multivector.Verified A) := by
  by_cases howner : m.owner = A.id
  swap
  · exact .after fun _ => .of_check fun h => absurd h howner
  refine .of_gives fun t => ?_
  have hdenotes := NumericTarget.denotes howner hnodup t
  refine .mono (resign_gives NumericTarget.sound_reading trivial hdenotes operation flip) ?_
  rintro r t' ⟨-, hr, hunit⟩
  refine hm.of_squaredNorm (fun h => hunit ▸ h) ?_
  rw [Multivector.squaredNorm_eq hr, Values.normSquared_flipped,
    Multivector.squaredNorm_eq hdenotes]

/-! ### Operations that mark what they have built -/

theorem inverse_returns (hnodup : m.blades.Nodup) (hm : m.Verified A) :
    (A.inverse m : Emission (NumericTarget K) K _).Returns (Multivector.Verified A) := by
  have hbuild := fun cs => (build_returns (σ := NumericTarget K) (A := A) cs).mono fun _ =>
    Multivector.Verified.of_unmarked (A := A)
  refine .after fun _ => ?_
  split
  · exact resign_returns hnodup hm "reverse" _
  refine .after fun square => ?_
  by_cases hzero : square.isZero = true
  · rw [if_pos hzero]
    exact .throw_bind
  rw [if_neg hzero]
  refine .after fun _ => ?_
  split
  · split
    · exact .after fun _ => hbuild _
    · exact .after fun _ => hbuild _
  · exact .after fun _ => hbuild _

theorem normalize_returns (hm : m.Verified A) :
    (A.normalize m : Emission (NumericTarget K) K _).Returns (Multivector.Verified A) := by
  refine .after fun _ => ?_
  split
  · exact .pure hm
  refine .after fun _ => ?_
  split
  · -- The sign of a lone component.
    unfold normalizeComponent
    split
    · exact .throw_bind
    · exact .after fun _ => .after fun _ => markUnit_returns _ _
  · refine .after fun square => ?_
    split
    · exact .throw_bind
    · exact .after fun _ => .after fun _ => .after fun _ => .after fun _ => markUnit_returns _ _

/-- The exponential of zero is one. -/
theorem exp_returns (hA : A.Tolerates 1) (hnodup : m.blades.Nodup) :
    (A.exp m : Emission (NumericTarget K) K _).Returns (Multivector.Verified A) := by
  refine .of_check fun howner => .after fun _ => .after fun square => ?_
  split
  · refine .of_gives fun t => .bind (.mono (one_gives NumericTarget.sound_reading trivial) ?_)
    rintro one t₁ ⟨-, hone, -⟩
    have hm := NumericTarget.denotes howner hnodup t₁
    refine .bind (.mono (plus_gives NumericTarget.sound_reading trivial
      (.cons hone (.cons hm .nil))) ?_)
    rintro r t₂ ⟨-, hr, -⟩
    refine .pure fun hzero => ?_
    have hvalues : (NumericTarget.reading K).values t₁ m = 0 := Reading.values_eq_zero hzero
    rw [hvalues, List.sum_cons, List.sum_singleton, add_zero] at hr
    have hnorm : r.squaredNorm A = 1 :=
      (Multivector.squaredNorm_eq hr).trans Values.unital_one.normSquared_eq
    exact hnorm ▸ hA
  · exact .after fun _ => .after fun _ => .after fun _ => .after fun _ => .after fun _ =>
      .after fun _ => markUnit_returns _ _

theorem slerpAt_returns (circle : Slerp K Empty) (x : Factor K Empty) :
    (A.slerpAt circle x : Emission (NumericTarget K) K _).Returns (Multivector.Verified A) :=
  .after fun _ => .after fun _ => .after fun _ => .after fun _ => .after fun _ =>
    markUnit_returns _ _

theorem sandwichChain_returns [Ord Empty] (operators : List (Multivector K Empty))
    (x : Multivector K Empty) :
    (A.sandwichChain operators x : Emission (NumericTarget K) K _).Returns
      (Multivector.Verified A) := by
  refine .after fun _ => .after fun _ => .after fun _ => .bind (emitTree_returns _) ?_
  intro r hr
  split
  · exact markUnit_returns _ _
  · exact .pure (.of_unmarked hr)

/-! ### Operations that keep the norm by multiplying with a versor -/

/-- **A product with a versor of norm one keeps the norm**, so that the mark of the other operand
stays verified. -/
theorem mul_verified (hnodup : m.blades.Nodup) (hm : m.Verified A) (kind : ProductKind)
    {versor : Multivector K Empty}
    (hversor : (NumericTarget.reading K).IsVersor A A.square t versor) :
    (NumericTarget.reading K).Ends True (A.mul kind m versor) t fun r _ => r.Verified A := by
  refine .of_check₂ trivial fun howner _ => .of_gives ?_
  obtain ⟨g, hg⟩ := hversor
  have hf := NumericTarget.denotes howner hnodup t
  refine .mono (mul_gives NumericTarget.sound_reading (NumericTarget.ready A t) hf hg.toDenotes
    kind) ?_
  rintro r t' ⟨hadv, hr, hunit⟩
  refine ⟨hadv, fun hknown => ?_⟩
  rw [hunit, Bool.and_eq_true, Bool.and_eq_true] at hknown
  obtain ⟨⟨hkeeps, hmarked⟩, hunit⟩ := hknown
  rw [hf.convolve_kernel hg.toDenotes hkeeps] at hr
  have hnorm : r.squaredNorm A = m.squaredNorm A := by
    rw [Multivector.squaredNorm_eq hr, hg.versor.normSquared_mul, hg.unit hunit, mul_one,
      Multivector.squaredNorm_eq hf]
  exact hnorm ▸ hm hmarked

theorem dual_returns (hnodup : m.blades.Nodup) (hm : m.Verified A) :
    (A.dual m : Emission (NumericTarget K) K _).Returns (Multivector.Verified A) := by
  have hM := NumericTarget.sound_reading (K := K)
  refine .after fun _ => .of_ends (M := NumericTarget.reading K) (p := True) fun t => ?_
  refine .bind (pseudoscalar_versor hM (NumericTarget.ready A t) True) fun p t₁ _ hp => ?_
  refine .bind ((inverse_versor hM (NumericTarget.ready A t₁) hp).adapt duality) ?_
  exact fun i t₂ _ hi => mul_verified hnodup hm .leftContraction hi

theorem undual_returns (hnodup : m.blades.Nodup) (hm : m.Verified A) :
    (A.undual m : Emission (NumericTarget K) K _).Returns (Multivector.Verified A) := by
  refine .after fun _ => .of_ends (M := NumericTarget.reading K) (p := True) fun t => ?_
  refine .bind (pseudoscalar_versor NumericTarget.sound_reading (NumericTarget.ready A t) True) ?_
  exact fun p t₁ _ hp => mul_verified hnodup hm .leftContraction hp

/-! ### Sums -/

theorem plus_returns {ms : List (Multivector K Empty)} (hms : ∀ m ∈ ms, m.Verified A) :
    (A.plus ms : Emission (NumericTarget K) K _).Returns (Multivector.Verified A) := by
  refine .after fun _ => ?_
  split
  · exact .pure (.of_unmarked rfl)
  · exact .pure (hms _ (List.mem_singleton_self _))
  · exact .after fun _ => (build_returns _).mono fun _ => .of_unmarked

end Algebra

/-! ### Sandwiches -/

namespace Sandwich

variable {P : Sandwich K Empty} {R x : Multivector K Empty}

theorem conclude_returns (P : Sandwich K Empty) (x : Multivector K Empty)
    (draft : Draft K Empty) :
    (P.conclude x draft : Emission (NumericTarget K) K _).Returns
      (Multivector.Verified P.algebra) := by
  refine .bind (Algebra.finish_returns draft) fun r hr => ?_
  split
  · exact Algebra.markUnit_returns _ _
  · exact .pure (.of_unmarked hr)

theorem applyWith_verified (h : Valid (NumericTarget.reading K) A R A.square f t P)
    (hnodup : x.blades.Nodup) (options : SandwichOptions) :
    Yields (P.applyWith x options) t fun (result, _) _ =>
      ∀ r, result = .ok (some r) → r.Verified A := by
  have hM := NumericTarget.sound_reading (K := K)
  unfold applyWith
  rw [h.algebra]
  split
  · exact .pure (by rintro _ ⟨⟩)
  rename_i howns
  have howner : x.owner = A.id := by
    simpa [Algebra.owns] using howns
  split
  · exact Yields.bind (Yields.mono (force_yields hM h trivial) fun _ _ _ =>
      .pure (by rintro _ ⟨⟩))
  refine Yields.bind (Yields.mono (Algebra.announce_steady hM.steady trivial "sandwich") ?_)
  rintro - t₁ hadv
  have hopen : (NumericTarget.reading K).Open t₁ (Draft.storages ([] : Draft K Empty)) := trivial
  refine Yields.bind (Yields.mono (emitBuckets_yields hM (h.mono hadv.symbols)
    (NumericTarget.denotes howner hnodup t₁) hopen List.nodup_nil (P.surviving x options)) ?_)
  rintro ⟨draft, P'⟩ t₂ ⟨-, -, -, h', -⟩
  have hconclude : Yields (P'.conclude x draft).run t₂ fun result _ =>
      ∀ r, result = .ok r → r.Verified A := h'.algebra ▸ conclude_returns P' x draft t₂
  refine Yields.bind (Yields.mono hconclude ?_)
  rintro (e | r) t₃ hr
  · exact .pure (by rintro _ ⟨⟩)
  · exact .pure fun _ h => Option.some.inj (Except.ok.inj h) ▸ hr r rfl

end Sandwich

end Clifford
