import Clifford.Proofs.Algebra.Cancellation
import Clifford.Proofs.Algebra.Operation
import Clifford.Proofs.Target.Refusal

/-!
# Refused arguments

An operation that refuses its arguments leaves the target as it was, with four exceptions that
emit for the arguments they come to first: the coefficients of the names before an unknown one,
the product of the operands before a foreign one, and the reverse of an operator or the squared
norm of a normal vector before a foreign operand.

## Main definitions

- `Operation.prelude` — what an operation emits before it comes to an argument that it refuses
- `Operation.announced?` — the operand that an operation checks after it has announced itself

## Main results

- `Operation.run_refusesAfter` — a refused operation leaves the target as its prelude leaves it
-/

namespace Clifford

variable {σ K S V : Type}

namespace Algebra

open Emission

/-! ### Operands -/

section

variable {A : Algebra K S} {m : Multivector K S} {β : Type} {guard : Prop} {R : β → Prop}

theorem outcome_check (s : σ) :
    (A.check m : Emission σ K Unit).outcome s =
      if A.owns m then (.ok (), s) else (.error .foreignOperand, s) := by
  unfold check
  split <;> rfl

theorem outcome_forM_check (ms : List (Multivector K S)) (s : σ) :
    (ms.forM A.check : Emission σ K Unit).outcome s =
      if ms.all A.owns then (.ok (), s) else (.error .foreignOperand, s) := by
  induction ms with
  | nil => rfl
  | cons m ms ih =>
    have hforM : ((m :: ms).forM A.check : Emission σ K Unit) =
        (do A.check m; ms.forM A.check) := rfl
    rw [hforM, outcome_bind, outcome_check, List.all_cons]
    by_cases howns : A.owns m = true
    · simpa [howns] using ih
    · simp [howns]

/-- A check is a screen for what comes after it. -/
theorem check_bind_screens {k : Unit → Emission σ K β}
    (hk : A.owns m = true → (k ()).Screens guard R) :
    (A.check m >>= k).Screens (A.owns m = true ∧ guard) R := by
  refine Screens.and (fun s howns => ?_) (fun howns s => ⟨.foreignOperand, ?_⟩) hk
  · rw [outcome_check, if_pos howns]
  · rw [outcome_check, if_neg howns]

theorem check_screens {k : Unit → Emission σ K β} (hk : A.owns m = true → (k ()).Accepts R) :
    (A.check m >>= k).Screens (A.owns m = true) R :=
  (check_bind_screens fun howns => (hk howns).screens).iff (and_iff_left trivial)

theorem check_check_screens {m' : Multivector K S} {k : Unit → Emission σ K β}
    (hk : A.owns m = true → A.owns m' = true → (k ()).Accepts R) :
    (A.check m >>= fun _ => A.check m' >>= k).Screens (A.owns m = true ∧ A.owns m' = true) R :=
  check_bind_screens fun howns => check_screens fun howns' => hk howns howns'

theorem checks_bind_screens {ms : List (Multivector K S)} {k : Unit → Emission σ K β}
    (hk : ms.all A.owns = true → (k ()).Screens guard R) :
    (ms.forM A.check >>= k).Screens (ms.all A.owns = true ∧ guard) R := by
  refine Screens.and (fun s howns => ?_) (fun howns s => ⟨.foreignOperand, ?_⟩) hk
  · rw [outcome_forM_check, if_pos howns]
  · rw [outcome_forM_check, if_neg howns]

theorem owns_withKnownUnit (knownUnit : Bool) (h : A.owns m = true) :
    A.owns (m.withKnownUnit knownUnit) = true :=
  h

end

variable [Number K]

theorem markUnit_accepts {A : Algebra K S} {m : Multivector K S} (h : A.owns m = true) :
    (A.markUnit m : Emission σ K _).Accepts (A.owns · = true) := by
  unfold markUnit
  split
  · split
    · exact .throw rfl
    · exact .pure h
  · exact .pure h

variable [Target σ K S V] {A : Algebra K S} {m a b : Multivector K S}

omit [Number K] in
theorem annotate_accepts (text : String) :
    (A.annotate text : Emission σ K Unit).Accepts fun _ => True :=
  .lift fun _ => trivial

theorem call_accepts (f : ScalarFunction) (args : Term K S) :
    (call f args : Emission σ K _).Accepts fun _ => True :=
  .lift fun _ => trivial

theorem combine_accepts (op : Operator) (l r : Factor K S) :
    (combine op l r : Emission σ K _).Accepts fun _ => True :=
  .lift fun _ => trivial

theorem sum_accepts (name : String) (terms : List (Term K S × Bool)) :
    (sum name terms : Emission σ K _).Accepts fun _ => True :=
  .lift fun _ => trivial

theorem extend_accepts (draft : Draft K V) (cs : List (Contribution K S)) :
    (A.extend draft cs : Emission σ K _).Accepts fun _ => True :=
  .lift fun _ => trivial

theorem finish_accepts (draft : Draft K V) :
    (A.finish draft : Emission σ K _).Accepts (A.owns · = true) :=
  .lift fun _ => beq_self_eq_true A.id

theorem build_accepts (cs : List (Contribution K S)) :
    (A.build cs : Emission σ K _).Accepts (A.owns · = true) :=
  (extend_accepts [] cs).then_accepts finish_accepts

/-! ### Elements and linear operations -/

/-- Elements whose norm is stated beside their components. -/
theorem build_withKnownUnit_accepts (cs : List (Contribution K S)) (knownUnit : Bool) :
    (do let m ← A.build cs; pure (m.withKnownUnit knownUnit) : Emission σ K _).Accepts
      (A.owns · = true) :=
  (build_accepts cs).bind fun _ h => .pure (owns_withKnownUnit knownUnit h)

theorem one_accepts : (A.one : Emission σ K _).Accepts (A.owns · = true) :=
  build_withKnownUnit_accepts _ _

theorem pseudoscalar_accepts : (A.pseudoscalar : Emission σ K _).Accepts (A.owns · = true) :=
  build_withKnownUnit_accepts _ _

theorem basisVectors_accepts : (A.basisVectors : Emission σ K _).Accepts fun _ => True :=
  .mapM _ fun _ _ => (build_withKnownUnit_accepts _ _).mono fun _ _ => trivial

theorem vector_screens (coefficients : List (Factor K S)) :
    (A.vector coefficients : Emission σ K _).Screens (coefficients.length = A.dimension)
      (A.owns · = true) where
  accepts hlength := by
    rw [vector, if_neg (not_not_intro hlength)]
    exact build_accepts _
  refuses hlength s := ⟨_, by rw [vector, if_pos hlength]; rfl⟩

theorem resign_screens (flip : Blade → Bool) :
    (A.resign flip m : Emission σ K _).Screens (A.owns m = true) (A.owns · = true) :=
  check_screens fun _ => build_withKnownUnit_accepts _ _

theorem annotate_resign_accepts (text : String) (flip : Blade → Bool) (h : A.owns m = true) :
    (do A.annotate text; A.resign flip m : Emission σ K _).Accepts (A.owns · = true) :=
  (annotate_accepts text).then_accepts fun _ => (resign_screens flip).accepts h

/-- Without comments an announcement is nothing, so a change of sign refuses its operand at
once. -/
theorem annotate_resign_screens (text : String) (flip : Blade → Bool)
    (hquiet : A.settings.comments = true → A.owns m = true) :
    (do A.annotate text; A.resign flip m : Emission σ K _).Screens (A.owns m = true)
      (A.owns · = true) where
  accepts := annotate_resign_accepts text flip
  refuses howns s := by
    have hcomments : A.settings.comments = false :=
      Bool.eq_false_iff.2 fun hcomments => howns (hquiet hcomments)
    have hannotate : (A.annotate text : Emission σ K Unit).outcome s = (.ok (), s) := by
      unfold annotate announce
      rw [hcomments]
      rfl
    rw [outcome_bind, hannotate]
    exact (resign_screens flip).refuses howns s

section

variable (hquiet : A.settings.comments = true → A.owns m = true)
include hquiet

theorem negate_screens :
    (A.negate m : Emission σ K _).Screens (A.owns m = true) (A.owns · = true) :=
  annotate_resign_screens _ _ hquiet

theorem gradeInvolution_screens :
    (A.gradeInvolution m : Emission σ K _).Screens (A.owns m = true) (A.owns · = true) :=
  annotate_resign_screens _ _ hquiet

theorem reverse_screens :
    (A.reverse m : Emission σ K _).Screens (A.owns m = true) (A.owns · = true) :=
  annotate_resign_screens _ _ hquiet

theorem conjugate_screens :
    (A.conjugate m : Emission σ K _).Screens (A.owns m = true) (A.owns · = true) :=
  annotate_resign_screens _ _ hquiet

end

theorem reverse_accepts (h : A.owns m = true) :
    (A.reverse m : Emission σ K _).Accepts (A.owns · = true) :=
  annotate_resign_accepts _ _ h

theorem scale_screens (x : Factor K S) :
    (A.scale x m : Emission σ K _).Screens (A.owns m = true) (A.owns · = true) := by
  refine check_screens fun _ => ?_
  split
  · exact .pure (beq_self_eq_true A.id)
  · exact (annotate_accepts _).then_accepts fun _ => build_accepts _

theorem extract_screens (keep : Blade → Bool) :
    (A.extract keep m : Emission σ K _).Screens (A.owns m = true) (A.owns · = true) :=
  check_screens fun _ => build_accepts _

theorem plus_screens (ms : List (Multivector K S)) :
    (A.plus ms : Emission σ K _).Screens (ms.all A.owns = true) (A.owns · = true) := by
  refine (checks_bind_screens fun howns => Accepts.screens ?_).iff (and_iff_left trivial)
  match ms with
  | [] => exact .pure (beq_self_eq_true A.id)
  | [m] => exact .pure (List.all_eq_true.1 howns m List.mem_cons_self)
  | _ :: _ :: _ => exact (annotate_accepts _).then_accepts fun _ => build_accepts _

theorem minus_screens :
    (A.minus a b : Emission σ K _).Screens (A.owns a = true ∧ A.owns b = true)
      (A.owns · = true) :=
  check_check_screens fun _ _ => (annotate_accepts _).then_accepts fun _ => build_accepts _

/-! ### Products -/

theorem mul_screens (kind : ProductKind) :
    (A.mul kind a b : Emission σ K _).Screens (A.owns a = true ∧ A.owns b = true)
      (A.owns · = true) :=
  check_check_screens fun _ _ =>
    (annotate_accepts _).then_accepts fun _ => build_withKnownUnit_accepts _ _

theorem scalarProduct_screens :
    (A.scalarProduct a b : Emission σ K _).Screens (A.owns a = true ∧ A.owns b = true)
      fun _ => True :=
  check_check_screens fun _ _ => (annotate_accepts _).then_accepts fun _ => sum_accepts _ _

/-- A product of operands that all belong to the algebra. -/
theorem foldlM_mul_accepts (kind : ProductKind) (ms : List (Multivector K S))
    (hms : ∀ m ∈ ms, A.owns m = true) (ha : A.owns a = true) :
    (ms.foldlM (fun product m => A.mul kind product m) a : Emission σ K _).Accepts
      (A.owns · = true) := by
  induction ms generalizing a with
  | nil => exact .pure ha
  | cons m ms ih =>
    rw [List.foldlM_cons]
    refine ((mul_screens kind).accepts ⟨ha, hms m List.mem_cons_self⟩).bind
      fun product hproduct => ?_
    exact ih (fun m' hm' => hms m' (List.mem_cons_of_mem m hm')) hproduct

/-! ### Norms, duality and rotors -/

theorem normSquared_screens :
    (A.normSquared m : Emission σ K _).Screens (A.owns m = true) fun _ => True := by
  refine check_screens fun _ => ?_
  split
  · exact .pure trivial
  · exact (annotate_accepts _).then_accepts fun _ => sum_accepts _ _

theorem norm_screens :
    (A.norm m : Emission σ K _).Screens (A.owns m = true) fun _ => True := by
  refine check_screens fun howns => ?_
  split
  · exact .pure trivial
  · split
    · exact call_accepts _ _
    · refine (normSquared_screens.accepts howns).then_accepts fun square => ?_
      dsimp only
      split
      · exact (call_accepts _ _).then_accepts fun _ => call_accepts _ _
      · exact (call_accepts _ _).then_accepts fun _ => call_accepts _ _

theorem inverseComponent_accepts (blade : Blade) (value : Factor K S) (square : K) :
    (A.inverseComponent blade value square : Emission σ K _).Accepts (A.owns · = true) :=
  (combine_accepts _ _ _).then_accepts fun _ => build_accepts _

theorem inverseByReverse_accepts (square : Factor K S) :
    (A.inverseByReverse m square : Emission σ K _).Accepts (A.owns · = true) :=
  (combine_accepts _ _ _).then_accepts fun _ => build_accepts _

theorem inverse_screens :
    (A.inverse m : Emission σ K _).Screens (A.owns m = true) (A.owns · = true) := by
  refine check_screens fun howns => ?_
  split
  · exact reverse_accepts howns
  · refine (normSquared_screens.accepts howns).then_accepts fun square => ?_
    dsimp only
    split
    · exact .throw_bind rfl
    · refine (annotate_accepts _).then_accepts fun _ => ?_
      split
      · split
        · exact inverseComponent_accepts _ _ _
        · exact inverseByReverse_accepts _
      · exact inverseByReverse_accepts _

theorem normalizeComponent_accepts (blade : Blade) (value : Factor K S) :
    (A.normalizeComponent blade value : Emission σ K _).Accepts (A.owns · = true) := by
  unfold normalizeComponent
  dsimp only
  split
  · exact .throw_bind rfl
  · refine (call_accepts _ _).then_accepts fun sign => ?_
    exact (build_accepts _).bind fun _ howns => markUnit_accepts howns

theorem normalize_screens :
    (A.normalize m : Emission σ K _).Screens (A.owns m = true) (A.owns · = true) := by
  refine check_screens fun howns => ?_
  split
  · exact .pure howns
  refine (annotate_accepts _).then_accepts fun _ => ?_
  split
  · exact normalizeComponent_accepts _ _
  refine (normSquared_screens.accepts howns).then_accepts fun square => ?_
  dsimp only
  split
  · exact .throw_bind rfl
  refine (call_accepts _ _).then_accepts fun magnitude => ?_
  refine (call_accepts _ _).then_accepts fun root => ?_
  refine (combine_accepts _ _ _).then_accepts fun factor => ?_
  exact ((scale_screens factor).accepts howns).bind fun _ hresult => markUnit_accepts hresult

theorem dist_screens :
    (A.dist a b : Emission σ K _).Screens (A.owns a = true ∧ A.owns b = true) fun _ => True :=
  minus_screens.bind fun _ _ howns => norm_screens.accepts howns

omit [Number K] in
theorem isRefusal_duality (e : AlgebraError K) (h : e.isRefusal = false) :
    (duality e).isRefusal = false := by
  cases e <;> first | rfl | exact h

theorem dual_screens :
    (A.dual m : Emission σ K _).Screens (A.owns m = true) (A.owns · = true) := by
  refine check_screens fun howns => ?_
  refine pseudoscalar_accepts.bind fun pseudoscalar hpseudoscalar => ?_
  refine ((inverse_screens.accepts hpseudoscalar).adapt duality isRefusal_duality).bind
    fun inverse hinverse => ?_
  exact (mul_screens .leftContraction).accepts ⟨howns, hinverse⟩

theorem undual_screens :
    (A.undual m : Emission σ K _).Screens (A.owns m = true) (A.owns · = true) := by
  refine check_screens fun howns => ?_
  refine pseudoscalar_accepts.bind fun pseudoscalar hpseudoscalar => ?_
  exact (mul_screens .leftContraction).accepts ⟨howns, hpseudoscalar⟩

theorem exp_screens :
    (A.exp m : Emission σ K _).Screens (A.owns m = true) (A.owns · = true) := by
  refine check_screens fun howns => ?_
  refine (normSquared_screens.accepts howns).then_accepts fun square => ?_
  split
  · refine one_accepts.bind fun one hone => ?_
    refine ((plus_screens [one, m]).accepts ?_).bind fun _ hresult => .pure hresult
    simp [hone, howns]
  · refine (annotate_accepts _).then_accepts fun _ => ?_
    refine (call_accepts _ _).then_accepts fun angle => ?_
    refine (call_accepts _ _).then_accepts fun cosine => ?_
    refine (call_accepts _ _).then_accepts fun sine => ?_
    refine (combine_accepts _ _ _).then_accepts fun weight => ?_
    exact (build_accepts _).bind fun _ hresult => markUnit_accepts hresult

theorem log_screens :
    (A.log m : Emission σ K _).Screens (A.owns m = true) (A.owns · = true) := by
  refine check_screens fun howns => ?_
  refine ((extract_screens _).accepts howns).bind fun bivector hbivector => ?_
  refine (norm_screens.accepts hbivector).then_accepts fun norm => ?_
  dsimp only
  split
  · exact .throw_bind rfl
  refine (annotate_accepts _).then_accepts fun _ => ?_
  refine (call_accepts _ _).then_accepts fun angle => ?_
  refine (combine_accepts _ _ _).then_accepts fun factor => ?_
  exact (scale_screens factor).accepts hbivector

theorem angle_screens :
    (A.angle a b : Emission σ K _).Screens (A.owns a = true ∧ A.owns b = true)
      fun _ => True := by
  refine (mul_screens .wedge).bind fun howns wedge hwedge => ?_
  refine (norm_screens.accepts hwedge).then_accepts fun sine => ?_
  exact (scalarProduct_screens.accepts howns).then_accepts fun _ => call_accepts _ _

theorem slerp_screens :
    (A.slerp a b : Emission σ K _).Screens (A.owns a = true ∧ A.owns b = true) fun _ => True :=
  angle_screens.bind fun _ _ _ => (call_accepts _ _).then_accepts fun _ => .pure trivial

theorem slerpWeight_accepts (circle : Slerp K S) (fraction : Factor K S) :
    (slerpWeight circle fraction : Emission σ K _).Accepts fun _ => True :=
  (combine_accepts _ _ _).then_accepts fun _ =>
    (call_accepts _ _).then_accepts fun _ => combine_accepts _ _ _

theorem slerpAt_accepts (circle : Slerp K S) (t : Factor K S) :
    (A.slerpAt circle t : Emission σ K _).Accepts (A.owns · = true) := by
  refine (annotate_accepts _).then_accepts fun _ => ?_
  refine (combine_accepts _ _ _).then_accepts fun rest => ?_
  refine (slerpWeight_accepts circle rest).then_accepts fun first => ?_
  refine (slerpWeight_accepts circle t).then_accepts fun last => ?_
  exact (build_accepts _).bind fun _ hresult => markUnit_accepts hresult

/-! ### Maps and sandwiches -/

theorem outermorphism_screens (matrix : SparseMatrix K S) :
    (A.outermorphism m matrix : Emission σ K _).Screens
      (A.owns m = true ∧ matrix.length ≤ A.dimension) (A.owns · = true) := by
  refine check_bind_screens fun _ => ?_
  dsimp only
  constructor
  · intro hfits
    rw [if_neg (Nat.not_lt.2 hfits)]
    exact (annotate_accepts _).then_accepts fun _ => build_accepts _
  · intro hexceeds s
    rw [if_pos (Nat.lt_of_not_le hexceeds)]
    exact ⟨_, rfl⟩

omit [Number K] in
theorem sandwich_screens :
    (A.sandwich m : Emission σ K _).Screens (A.owns m = true) fun P => P.algebra = A :=
  check_screens fun _ => .pure rfl

theorem conclude_accepts (P : Sandwich K S) (draft : Draft K V) (x : Multivector K S) :
    (P.conclude x draft : Emission σ K _).Accepts (P.algebra.owns · = true) := by
  refine (finish_accepts draft).bind fun result hresult => ?_
  split
  · exact markUnit_accepts hresult
  · exact .pure hresult

theorem sandwichChain_screens [Ord S] (operators : List (Multivector K S)) :
    (A.sandwichChain operators m : Emission σ K _).Screens
      (operators.all A.owns = true ∧ A.owns m = true) fun _ => True := by
  refine checks_bind_screens fun _ => check_screens fun _ => ?_
  refine (annotate_accepts _).then_accepts fun _ => ?_
  refine Accepts.bind (P := (A.owns · = true)) ?_ fun result hresult => ?_
  · exact Accepts.then_accepts (P := fun _ => True) (.lift fun _ => trivial) fun _ =>
      finish_accepts _
  · split
    · exact (markUnit_accepts hresult).mono fun _ _ => trivial
    · exact .pure trivial

end Algebra

namespace Sandwich

open Emission Clifford.Algebra

variable [Number K] [Target σ K S V] {P : Sandwich K S} {x : Multivector K S}

theorem emitBuckets_yields_sameOperator (options : SandwichOptions) (draft : Draft K V) (s : σ) :
    Yields (P.emitBuckets x draft (P.surviving x options)) s fun r _ => P.SameOperator r.2 := by
  have hall : ∀ bucket ∈ P.surviving x options,
      bucket ∈ P.buckets x ∧ bucket.operand.ReverseAlike bucket.blade :=
    fun _ hbucket => mem_surviving hbucket
  obtain ⟨calls, -, -, hsame, -⟩ := emitBuckets_sends (s := s) draft hall
  exact hsame

/-- A sandwich of an operand of its algebra is not refused, and its result is of this algebra. -/
theorem applyWith_yields_owned (options : SandwichOptions) (howns : P.algebra.owns x = true)
    (s : σ) :
    Yields (P.applyWith x options) s fun r _ =>
      (∀ found, r.1 = .ok found → (∀ m, found = some m → P.algebra.owns m = true) ∧
        (options.dummy = false → found ≠ none)) ∧
      ∀ e, r.1 = .error e → e.isRefusal = false := by
  rw [applyWith, howns, Bool.not_true, if_neg Bool.false_ne_true]
  split
  · rename_i hdummy
    refine Yields.bind (.pure ⟨?_, ?_⟩)
    · rintro _ ⟨⟩
      refine ⟨?_, fun hnot => absurd hdummy (hnot ▸ Bool.false_ne_true)⟩
      rintro _ ⟨⟩
    · rintro _ ⟨⟩
  refine Yields.bind (Yields.mono (P := fun _ _ => True) trivial fun _ s₀ _ => ?_)
  refine Yields.bind (Yields.mono (emitBuckets_yields_sameOperator options [] s₀) ?_)
  rintro ⟨draft, P'⟩ s₁ ⟨halgebra, -⟩
  have hconclude := conclude_accepts P' draft x s₁
  rw [halgebra] at hconclude
  refine Yields.bind ?_
  have hrun : (P'.conclude x draft).run.run s₁ = (P'.conclude x draft).outcome s₁ := rfl
  unfold Yields
  rw [hrun]
  generalize (P'.conclude x draft).outcome s₁ = r at hconclude ⊢
  rcases r with ⟨e | m, s₂⟩
  · constructor
    · rintro _ ⟨⟩
    · rintro _ ⟨⟩
      exact hconclude
  · constructor
    · rintro _ ⟨⟩
      exact ⟨fun m' hm' => Option.some.inj hm' ▸ hconclude, fun _ => Option.some_ne_none m⟩
    · rintro _ ⟨⟩

theorem applied_screens (options : SandwichOptions) :
    (P.applied x options : Emission σ K _).Screens (P.algebra.owns x = true)
      fun _ => True where
  accepts howns s := by
    have h := applyWith_yields_owned options howns s
    have houtcome : (P.applied x options : Emission σ K _).outcome s =
      (((P.applyWith x options).run s).1.1, ((P.applyWith x options).run s).2) := rfl
    rw [houtcome]
    unfold Yields at h
    generalize (P.applyWith x options).run s = r at h ⊢
    obtain ⟨⟨e | found, P'⟩, s'⟩ := r
    · exact h.2 e rfl
    · trivial
  refuses howns s := by
    refine ⟨.foreignOperand, ?_⟩
    rw [applied, applyWith, if_pos (by simpa using howns)]
    rfl

/-- The sandwich with default options, as a computation whose failure is the failure of the
sandwich. -/
def conjugated (P : Sandwich K S) (x : Multivector K S) : Emission σ K (Multivector K S) := do
  let (result, _) ← ExceptT.lift (P.apply x)
  ExceptT.mk (pure result)

theorem conjugated_screens :
    (P.conjugated x : Emission σ K _).Screens (P.algebra.owns x = true)
      (P.algebra.owns · = true) where
  accepts howns s := by
    have h := applyWith_yields_owned {} howns s
    have houtcome : (P.conjugated x : Emission σ K _).outcome s =
      (((P.apply x).run s).1.1, ((P.apply x).run s).2) := rfl
    rw [houtcome, apply, StateT.run_bind]
    unfold Yields at h
    generalize (P.applyWith x {}).run s = r at h ⊢
    obtain ⟨⟨e | found, P'⟩, s'⟩ := r
    · exact h.2 e rfl
    · obtain ⟨howned, hsome⟩ := h.1 found rfl
      obtain ⟨m, rfl⟩ := Option.ne_none_iff_exists'.1 (hsome rfl)
      exact howned m rfl
  refuses howns s := by
    refine ⟨.foreignOperand, ?_⟩
    rw [conjugated, apply, applyWith, if_pos (by simpa using howns)]
    rfl

end Sandwich

/-! ### Operations that emit for earlier arguments -/

namespace Algebra

open Emission

variable [Number K] [Target σ K S V] {A : Algebra K S} {a b : Multivector K S}

/-- The names of blades before the first name of none. -/
def knownNames (A : Algebra K S) (components : List (String × Factor K S)) :
    List (String × Factor K S) :=
  components.takeWhile fun c => (A.bladeNamed? c.1).isSome

theorem extendNamed_refusesAfter (components : List (String × Factor K S)) (draft : Draft K V) :
    (do let draft ← A.extendNamed draft components; A.finish draft : Emission σ K _).RefusesAfter
      (A.extendNamed draft (A.knownNames components) : Emission σ K _).effect := by
  induction components generalizing draft with
  | nil => exact .of_accepts (finish_accepts draft)
  | cons component rest ih =>
    obtain ⟨name, value⟩ := component
    cases hname : A.bladeNamed? name with
    | none =>
      rw [knownNames, List.takeWhile_cons_of_neg (by simp [hname])]
      refine .of_refuses fun s => ⟨.unknownBlade name, ?_⟩
      rw [extendNamed, hname]
      rfl
    | some blade =>
      rw [knownNames, List.takeWhile_cons_of_pos (by simp [hname]), extendNamed, extendNamed, hname,
        bind_assoc]
      exact .bind (extend_accepts draft _) fun draft _ => ih draft

theorem foldlM_mul_refusesAfter (kind : ProductKind) (ms : List (Multivector K S))
    (ha : A.owns a = true) :
    (ms.foldlM (fun product m => A.mul kind product m) a : Emission σ K _).RefusesAfter
      ((ms.takeWhile A.owns).foldlM (fun product m => A.mul kind product m) a :
        Emission σ K _).effect := by
  induction ms generalizing a with
  | nil => exact .of_accepts (.pure (Q := fun _ => True) trivial)
  | cons m rest ih =>
    rw [List.foldlM_cons]
    by_cases hm : A.owns m = true
    · rw [List.takeWhile_cons_of_pos hm, List.foldlM_cons]
      exact .bind ((mul_screens kind).accepts ⟨ha, hm⟩) fun product hproduct => ih hproduct
    · rw [List.takeWhile_cons_of_neg hm]
      exact .of_refuses ((mul_screens kind).refuses fun howns => hm howns.2)

/-- The product of the operands before the first one of another algebra, if there are any. -/
def mulOwned (A : Algebra K S) (kind : ProductKind) (ms : List (Multivector K S)) :
    StateM σ Unit :=
  match ms.takeWhile A.owns with
  | [] => pure ()
  | own => (A.mulAll kind own : Emission σ K _).effect

theorem mulAll_refusesAfter (kind : ProductKind) (ms : List (Multivector K S)) :
    (A.mulAll kind ms : Emission σ K _).RefusesAfter (A.mulOwned kind ms) := by
  cases ms with
  | nil => exact .of_accepts one_accepts
  | cons first rest =>
    -- The first operand is checked alone; each of the others is checked by its product.
    by_cases hfirst : A.owns first = true
    · have hcheck : (A.check first : Emission σ K Unit).Accepts fun _ => True := by
        intro s
        rw [outcome_check, if_pos hfirst]
        trivial
      rw [mulOwned, List.takeWhile_cons_of_pos hfirst]
      exact .bind hcheck fun _ _ => foldlM_mul_refusesAfter kind rest hfirst
    · rw [mulOwned, List.takeWhile_cons_of_neg hfirst]
      exact .of_refuses fun s => ⟨.foreignOperand, by rw [outcome_check, if_neg hfirst]⟩

/-- After the reverse of the operator, a foreign operand is refused before anything is
multiplied. -/
theorem mulAll_between_screens (kind : ProductKind) {x : Multivector K S} (ha : A.owns a = true)
    (hb : A.owns b = true) :
    (A.mulAll kind [a, x, b] : Emission σ K _).Screens (A.owns x = true) (A.owns · = true) := by
  have hscreens : (A.mulAll kind [a, x, b] : Emission σ K _).Screens
      (A.owns a = true ∧ A.owns a = true ∧ A.owns x = true) (A.owns · = true) :=
    check_bind_screens fun _ => (mul_screens kind).bind fun _ product hproduct =>
      foldlM_mul_accepts kind [b] (List.forall_mem_singleton.2 hb) hproduct
  exact hscreens.iff (by simp [ha])

/-- The reverse of an operator of the algebra. -/
def reverseOwned (A : Algebra K S) (operator : Multivector K S) : StateM σ Unit :=
  if A.owns operator then (A.reverse operator : Emission σ K _).effect else pure ()

theorem sandwichProduct_refusesAfter (hquiet : A.settings.comments = true → A.owns a = true) :
    (A.sandwichProduct a b : Emission σ K _).RefusesAfter (A.reverseOwned a) := by
  by_cases ha : A.owns a = true
  · rw [reverseOwned, if_pos ha]
    exact .bind_refuses (reverse_accepts ha) fun reversed hreversed =>
      (mulAll_between_screens .geometric ha hreversed).refusesAfter
  · rw [reverseOwned, if_neg ha]
    exact .of_refuses ((reverse_screens hquiet).refuses ha)

/-- The squared norm of a normal vector of the algebra. -/
def normSquaredOwned (A : Algebra K S) (normal : Multivector K S) : StateM σ Unit :=
  if A.owns normal then (A.normSquared normal : Emission σ K _).effect else pure ()

theorem reflect_refusesAfter :
    (A.reflect a b : Emission σ K _).RefusesAfter (A.normSquaredOwned a) := by
  by_cases ha : A.owns a = true
  · rw [normSquaredOwned, if_pos ha]
    refine .bind_refuses (normSquared_screens.accepts ha) fun square _ => ?_
    dsimp only
    split
    · exact .of_accepts (.throw_bind (R := fun _ => True) rfl)
    rw [sandwich, bind_assoc]
    -- The sandwich is the next to look at the operand, and nothing is emitted before it does.
    have hprepared : ∀ P : Sandwich K S, P.algebra = A →
        (P.conjugated b >>= fun conjugated => (do
          let factor ← combine .div (.number (-1)) square
          let reflected ← A.scale factor conjugated
          pure (reflected.withKnownUnit b.knownUnit)) : Emission σ K _).Screens
            (A.owns b = true) fun _ => True := by
      rintro P rfl
      refine P.conjugated_screens.bind fun _ conjugated hconjugated => ?_
      refine (combine_accepts _ _ _).then_accepts fun factor => ?_
      exact ((scale_screens factor).accepts hconjugated).then_accepts fun _ => .pure trivial
    exact (check_bind_screens fun _ => hprepared ⟨A, a, []⟩ rfl).refusesAfter
  · rw [normSquaredOwned, if_neg ha]
    exact .of_refuses (normSquared_screens.refuses ha)

end Algebra

/-! ### All operations -/

namespace Operation

open Emission Clifford.Algebra

variable [Number K] [Target σ K S V] {A : Algebra K S}

/-- The operand that an operation checks only after it has announced itself. -/
def announced? : Operation K S → Option (Multivector K S)
  | unary .negate m | unary .gradeInvolution m | unary .reverse m | unary .conjugate m => some m
  | binary .sandwichProduct operator _ => some operator
  | _ => none

/-- What an operation emits before it comes to an argument that it refuses: the coefficients of the
names before an unknown one, the product of the operands before a foreign one, the reverse of an
operator before a foreign operand, and the squared norm of a normal vector before a foreign
operand. All other operations emit nothing. -/
def prelude (A : Algebra K S) : Operation K S → StateM σ Unit
  | named components => (A.extendNamed [] (A.knownNames components) : Emission σ K _).effect
  | mulAll kind ms => A.mulOwned kind ms
  | binary .sandwichProduct operator _ => A.reverseOwned operator
  | binary .reflect normal _ => A.normSquaredOwned normal
  | _ => pure ()

theorem unary_refusesAfter (op : UnaryOperation) (m : Multivector K S)
    (hquiet : A.settings.comments = true → ∀ x, (unary op m).announced? = some x →
      A.owns x = true) :
    (op.perform A m : Emission σ K _).RefusesAfter (pure ()) := by
  cases op with
  | negate => exact (negate_screens fun hcomments => hquiet hcomments m rfl).refusesAfter
  | gradeInvolution =>
    exact (gradeInvolution_screens fun hcomments => hquiet hcomments m rfl).refusesAfter
  | reverse => exact (reverse_screens fun hcomments => hquiet hcomments m rfl).refusesAfter
  | conjugate => exact (conjugate_screens fun hcomments => hquiet hcomments m rfl).refusesAfter
  | extractGrade k => exact (extract_screens fun b => b.grade == k).refusesAfter
  | extract blades => exact (extract_screens fun b => blades.contains b).refusesAfter
  | inverse => exact inverse_screens.refusesAfter
  | normalize => exact normalize_screens.refusesAfter
  | dual => exact dual_screens.refusesAfter
  | undual => exact undual_screens.refusesAfter
  | exp => exact exp_screens.refusesAfter
  | log => exact log_screens.refusesAfter

variable [Ord S]

/-- The state in which a refused operation leaves the target is the one after its prelude. -/
theorem run_refusesAfter (op : Operation K S)
    (hquiet : A.settings.comments = true → ∀ m, op.announced? = some m → A.owns m = true) :
    (op.run A : Emission σ K _).RefusesAfter (op.prelude A) := by
  cases op with
  | one => exact .map _ (.of_accepts one_accepts)
  | pseudoscalar => exact .map _ (.of_accepts pseudoscalar_accepts)
  | basisVectors => exact .map _ (.of_accepts basisVectors_accepts)
  | scalar x => exact .map _ (.of_accepts (build_withKnownUnit_accepts _ _))
  | vector coefficients => exact .map _ (vector_screens coefficients).refusesAfter
  | named components => exact .map _ (extendNamed_refusesAfter components [])
  | call f args => exact .map _ (.of_accepts (call_accepts f args))
  | combine op left right => exact .map _ (.of_accepts (combine_accepts op left right))
  | scale x m => exact .map _ (scale_screens x).refusesAfter
  | unary op m => exact .map _ (unary_refusesAfter op m hquiet)
  | binary op a b =>
    cases op with
    | minus => exact .map _ minus_screens.refusesAfter
    | mul kind => exact .map _ (mul_screens kind).refusesAfter
    | sandwichProduct =>
      exact .map _ (sandwichProduct_refusesAfter fun hcomments => hquiet hcomments a rfl)
    | reflect => exact .map _ reflect_refusesAfter
  | measure op m =>
    cases op with
    | normSquared => exact .map _ normSquared_screens.refusesAfter
    | norm => exact .map _ norm_screens.refusesAfter
  | compare op a b =>
    cases op with
    | scalarProduct => exact .map _ scalarProduct_screens.refusesAfter
    | dist => exact .map _ dist_screens.refusesAfter
    | angle => exact .map _ angle_screens.refusesAfter
  | plus ms => exact .map _ (plus_screens ms).refusesAfter
  | mulAll kind ms => exact .map _ (mulAll_refusesAfter kind ms)
  | outermorphism m matrix => exact .map _ (outermorphism_screens matrix).refusesAfter
  | slerp a b => exact .map _ slerp_screens.refusesAfter
  | slerpAt circle t => exact .map _ (.of_accepts (slerpAt_accepts circle t))
  | sandwich operator => exact .map _ sandwich_screens.refusesAfter
  | apply P x options => exact .map _ (P.applied_screens options).refusesAfter
  | force P => exact .map _ (.of_accepts (.lift (Q := fun _ => True) fun _ => trivial))
  | chain operators x => exact .map _ (sandwichChain_screens operators).refusesAfter

/-- **A refused operation leaves the target as its prelude leaves it**, whatever the target is: no
other call has been made when a foreign operand, an unknown name or a wrong size is found. The
prelude is empty but for four operations, and these emit only for the arguments before the one
that they refuse. Left aside are changes of sign of foreign operands where operations are
announced. -/
theorem run_refused (op : Operation K S) {s s' : σ} {e : AlgebraError K}
    (hrun : (op.run A : Emission σ K _).outcome s = (.error e, s')) (he : e.isRefusal = true)
    (hquiet : A.settings.comments = true → ∀ m, op.announced? = some m → A.owns m = true) :
    s' = ((op.prelude A).run s).2 :=
  op.run_refusesAfter hquiet s e s' hrun he

/-- A name that is unknown, after one that is not: the coefficient before it has been emitted, and
nothing else. -/
theorem run_refused_inputPlane :
    let op : Operation ℚ Handle := .named [("e0", Program.singleInput.1), ("bogus", .number 1)]
    let outcome := (op.run inputPlane).outcome Program.singleInput.2
    outcome.1 = .error (.unknownBlade "bogus") ∧
      outcome.2 = ((op.prelude inputPlane).run Program.singleInput.2).2 := by
  intro op outcome
  have hfailure : outcome.1 = .error (.unknownBlade "bogus") := rfl
  exact ⟨hfailure, run_refused op (Prod.ext hfailure rfl) rfl fun h => Bool.noConfusion h⟩

/-- What was emitted stays: the coefficient leaves a variable behind that nothing will ever read. -/
theorem refused_after_emission :
    let op : Operation ℚ Handle := .named [("e0", Program.singleInput.1), ("bogus", .number 1)]
    let outcome := (op.run inputPlane).outcome Program.singleInput.2
    outcome.1 = .error (.unknownBlade "bogus") ∧
      Program.singleInput.2.declared.size = 0 ∧ outcome.2.declared.size = 1 :=
  ⟨rfl, by decide +kernel, by decide +kernel⟩

end Operation

end Clifford
