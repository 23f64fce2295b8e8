import Clifford.Proofs.Algebra.Rescaling
import Clifford.Proofs.Algebra.Rotor
import Clifford.Proofs.Script.Membership
import Clifford.Proofs.Script.UnitHints

/-!
# Verified unit norms in scripts

A script is computed with numbers, in an algebra that verifies unit norms. Products and reflections
pass the marks of their operands on without looking at the result. This is right for versors, but a
unit norm does not make a versor. All other operations verify what they mark, or keep the norm. So
as long as a script does not state unit norms itself, and no product or reflection of its run leaves
the tolerance, everything that it makes and that is marked as unit has a norm within the tolerance.

## Main definitions

- `Step.passesMarks` — the steps that pass marks on without looking at the result
- `Guarantees.verified` — everything that is marked as unit is verified
- `Workspace.PassesVerified` — what such steps of a run return is verified

## Main results

- `Step.admits_verified` — the other steps pass the guarantee on
- `Script.norm_within_tolerance` — what a script marks as unit has a norm within the tolerance
- `Script.product_outside_tolerance` — a product of two normalized multivectors that is marked as
  unit and has another norm
-/

namespace Clifford

/-! ### Operations that verify -/

/-- Whether the operation passes the marks of its operands on without looking at the result. -/
def BinaryOperation.passesMarks : BinaryOperation → Bool
  | minus => false
  | mul _ | sandwichProduct | reflect => true

/-- Whether the step passes the marks of its operands on without looking at the result. -/
def Step.passesMarks {K : Type} : Step K → Bool
  | binary op _ _ => op.passesMarks
  | mulAll _ _ => true
  | _ => false

/-- Whether the step states a unit norm on its own account. -/
def Step.statesNorm {K : Type} : Step K → Bool
  | withKnownUnit _ knownUnit => knownUnit
  | _ => false

variable {K : Type} [Number K]

section

variable [ExactNumber K] {A : Algebra K Empty} {t : NumericTarget K} {m : Multivector K Empty}

/-- Everything that is made is verified if it is marked as unit, also the operators of prepared
sandwiches. -/
def Guarantees.verified (A : Algebra K Empty) : Guarantees (NumericTarget K) K Empty where
  multivector t m := (NumericTarget.reading K).Proper t m ∧ m.Verified A
  factor t f := (NumericTarget.reading K).Known t f
  sandwich t P := (∃ f, P.Valid (NumericTarget.reading K) A P.operator A.square f t) ∧
    P.operator.Verified A
  circle t c := (NumericTarget.reading K).ProperCircle t c

namespace Guarantees

theorem lasting_verified (A : Algebra K Empty) :
    (verified A).Lasting (NumericTarget.reading K) where
  multivector hext h := ⟨h.1.mono hext, h.2⟩
  factor hext h := hext.known h
  sandwich hext h := ⟨h.1.imp fun _ hvalid => hvalid.mono hext, h.2⟩
  circle hext h := h.mono hext
  number x := Reading.known_number x
  value b h := h.1.known_value b

/-- What was made is verified, also what is prepared as an operator. -/
theorem Result.verified {result : StepResult K Empty} (h : (verified A).Result t result)
    (hm : m ∈ result.made) : m.Verified A := by
  cases result with
  | nothing => cases hm
  | multivector m' => exact List.mem_singleton.1 hm ▸ h.2
  | multivectors ms => exact (h m hm).2
  | scalar f => cases hm
  | sandwich P => exact List.mem_singleton.1 hm ▸ h.2
  | points circle items =>
    refine (h.2 m ?_).2
    obtain ⟨item, hitem, hm⟩ := List.mem_filterMap.1 hm
    cases item with
    | error e => cases hm
    | ok m' => exact Option.some.inj hm ▸ hitem

end Guarantees

/-- A computation whose result belongs to the algebra and is verified. -/
theorem Reading.Ends.verified {c : Emission (NumericTarget K) K (Multivector K Empty)}
    (h : (NumericTarget.reading K).Ends True c t fun r s' =>
      (NumericTarget.reading K).Member A s' r)
    (hc : c.Returns (Multivector.Verified A)) :
    (NumericTarget.reading K).Ends True c t fun r s' => (Guarantees.verified A).multivector s' r :=
  h.proper.and_returns hc

/-- A computation whose result is a versor with a true statement about its norm. -/
theorem Reading.Ends.verified_of_versor {c : Emission (NumericTarget K) K (Multivector K Empty)}
    (hA : A.Tolerates 1) (h : (NumericTarget.reading K).Ends True c t fun r s' =>
      (NumericTarget.reading K).IsVersor A A.square s' r) :
    (NumericTarget.reading K).Ends True c t fun r s' => (Guarantees.verified A).multivector s' r :=
  .mono h (fun h => h) fun _ _ _ hr => ⟨hr.proper, hr.verified hA⟩

theorem UnaryOperation.perform_verified (hA : A.Tolerates 1) (op : UnaryOperation)
    (hm : (Guarantees.verified A).multivector t m) :
    (op.perform A m : Emission (NumericTarget K) K _).Returns (Multivector.Verified A) := by
  obtain ⟨⟨hnodup, -⟩, hm⟩ := hm
  cases op with
  | negate => exact Algebra.resign_returns hnodup hm "negate" _
  | gradeInvolution => exact Algebra.resign_returns hnodup hm "grade involution" _
  | reverse => exact Algebra.resign_returns hnodup hm "reverse" _
  | conjugate => exact Algebra.resign_returns hnodup hm "conjugate" _
  | extractGrade k =>
    exact (Algebra.extract_returns (fun b => b.grade == k) m).mono fun _ => .of_unmarked
  | extract blades =>
    exact (Algebra.extract_returns (fun b => blades.contains b) m).mono fun _ => .of_unmarked
  | inverse => exact Algebra.inverse_returns hnodup hm
  | normalize => exact Algebra.normalize_returns hm
  | dual => exact Algebra.dual_returns hnodup hm
  | undual => exact Algebra.undual_returns hnodup hm
  | exp => exact Algebra.exp_returns hA hnodup
  | log => exact (Algebra.log_returns m).mono fun _ => .of_unmarked

/-- An operator whose products are right is proper. -/
theorem Sandwich.Valid.proper {σ K S V : Type} [Number K] [ExactNumber K] {M : Reading σ K S V}
    {A : Algebra K S} {R : Multivector K S} {q : Nat → K} {f : Values K} {s : σ}
    {P : Sandwich K S} (h : Valid M A R q f s P) : P.Proper M s where
  operator := h.denotes_operator.toMember.proper
  metric _ hsquare := h.squares.known (h.algebra ▸ hsquare)
  products entry hentry := (h.products entry hentry).1

/-- **Steps that verify pass the guarantee on.** -/
theorem Step.admits_verified (hA : A.Tolerates 1) {step : Step K}
    (hstates : step.statesNorm = false) (hpasses : step.passesMarks = false) :
    (Guarantees.verified A).Admits (NumericTarget.reading K) A A.square step := by
  have hM := NumericTarget.sound_reading (K := K)
  cases step with
  | zero => exact fun t => ⟨⟨List.nodup_nil, nofun⟩, .of_unmarked rfl⟩
  | one => exact fun t ht => .verified_of_versor hA (Algebra.one_versor hM ht True)
  | pseudoscalar =>
    exact fun t ht => .verified_of_versor hA (Algebra.pseudoscalar_versor hM ht True)
  | basisVectors =>
    intro t ht
    refine .mono (Algebra.basisVectors_versor hM ht True) (fun h => h) ?_
    exact fun rs t' _ hrs r hr => ⟨(hrs r hr).proper, (hrs r hr).verified hA⟩
  | scalar x =>
    exact fun t x ht hx => .verified_of_versor hA (Algebra.scalar_versor hM ht hx True)
  | vector xs =>
    exact fun t xs ht hxs => .verified (Algebra.vector_member hM.steady ht hxs)
      ((Algebra.vector_returns xs).mono fun _ => .of_unmarked)
  | named components =>
    exact fun t cs ht hcs => .verified (Algebra.ofNamed_member hM.steady ht hcs)
      ((Algebra.ofNamed_returns cs).mono fun _ => .of_unmarked)
  | call f args => exact fun t xs ht hxs => Algebra.call_known hM.steady f ht.ready hxs
  | combine op l r => exact fun t x y ht hx hy => Algebra.combine_known hM.steady op ht.ready hx hy
  | coefficient m b => trivial
  | scale x m =>
    exact fun t x m ht hx hm => .verified (Algebra.scale_member hM.steady ht hx hm.1)
      ((Algebra.scale_returns x m).mono fun _ => .of_unmarked)
  | withKnownUnit m knownUnit =>
    exact fun t m hm => ⟨hm.1.withKnownUnit knownUnit, .of_unmarked hstates⟩
  | unary op m =>
    exact fun t m ht hm =>
      (op.perform_proper hM.steady ht hm.1).and_returns (op.perform_verified hA hm)
  | binary op a b =>
    cases op with
    | minus =>
      exact fun t a b ht ha hb => .verified (Algebra.minus_member hM.steady ht ha.1 hb.1)
        ((Algebra.minus_returns a b).mono fun _ => .of_unmarked)
    | mul kind => cases hpasses
    | sandwichProduct => cases hpasses
    | reflect => cases hpasses
  | measure op m => exact fun t m ht hm => op.perform_proper hM.steady ht hm.1
  | compare op a b => exact fun t a b ht ha hb => op.perform_proper hM.steady ht ha.1 hb.1
  | plus ms =>
    exact fun t ms ht hms => .verified (Algebra.plus_member hM.steady ht fun m hm => (hms m hm).1)
      (Algebra.plus_returns fun m hm => (hms m hm).2)
  | mulAll kind ms => cases hpasses
  | outermorphism m rows =>
    exact fun t m matrix ht hm hmatrix =>
      .verified (Algebra.outermorphism_member hM.steady ht hm.1 hmatrix)
        ((Algebra.outermorphism_returns m matrix).mono fun _ => .of_unmarked)
  | slerp a b ts =>
    exact ⟨fun t a b ht ha hb => Algebra.slerp_proper hM.steady ht ha.1 hb.1,
      fun t c x ht hc hx =>
        .verified (Algebra.slerpAt_member hM.steady ht hc hx) (Algebra.slerpAt_returns c x)⟩
  | sandwich operator =>
    intro t m ht hm
    refine .bind (.check ht.ready) ?_
    rintro - _ - ⟨rfl, howner⟩
    exact .pure ht.ready ⟨⟨_, rfl, rfl, ht.squares, hm.1.denotes howner, nofun⟩, hm.2⟩
  | apply step x options =>
    rintro t P x ht ⟨⟨f, hP⟩, hoperator⟩ hx
    refine Yields.mono (Yields.and (Sandwich.applyWith_ends hM hP ht.ready
      (fun howner => hx.1.denotes howner) options)
        (Yields.and (Sandwich.applyWith_proper hM.steady ht.ready hP.proper hx.1 options)
          (Sandwich.applyWith_verified hP hx.1.nodup options))) ?_
    rintro ⟨result, P'⟩ t' ⟨⟨hadv, hP', -⟩, ⟨-, -, hproper⟩, hverified⟩
    refine ⟨hadv, ⟨⟨f, hP'.operator ▸ hP'⟩, hP'.operator ▸ hoperator⟩, fun r hr => ?_⟩
    exact ⟨(hproper r hr).proper, hverified r hr⟩
  | force step =>
    rintro t P ht ⟨⟨f, hP⟩, hoperator⟩
    refine Yields.mono (Sandwich.force_yields hM hP ht.ready) ?_
    rintro P' t' ⟨hadv, hP'⟩
    exact ⟨hadv, ⟨f, hP'.operator ▸ hP'⟩, hP'.operator ▸ hoperator⟩
  | chain operators x =>
    exact fun t ms x ht hms hx =>
      .verified (Algebra.sandwichChain_member hM.steady ht (fun m hm => (hms m hm).1) hx.1)
        (Algebra.sandwichChain_returns ms x)

/-- Inputs of the numeric target are numbers. -/
theorem Guarantees.supplied_verified (A : Algebra K Empty)
    (input : InputSource (NumericTarget K) K Empty) :
    (verified A).Supplied (NumericTarget.reading K) input :=
  fun _ _ _ _ _ => ⟨⟨fun t => t.elim, trivial⟩, NumericTarget.known _ _⟩

/-! ### Runs -/

variable {input : InputSource (NumericTarget K) K Empty} {w : Workspace (NumericTarget K) K Empty}

namespace Guarantees

/-- What passes marks on makes a multivector, of which it is not said that it is verified. -/
theorem passing_keeps (input : InputSource (NumericTarget K) K Empty)
    (hw : (verified A).Holds (NumericTarget.reading K) A A.square w) {step : Step K}
    (hstep : step.passesMarks = true) :
    (verified A).Keeps (NumericTarget.reading K) A A.square (step.perform A input) w
      fun t result => ∃ m, result = .multivector m ∧ (NumericTarget.reading K).Proper t m := by
  have hsteady := (NumericTarget.sound_reading (K := K)).steady
  cases step with
  | binary op a b =>
    refine .bind (multivector_keeps hw a) fun a w₁ hw₁ _ ha => ?_
    refine .bind (multivector_keeps hw₁ b) fun b w₂ hw₂ hadv hb => ?_
    have hends := op.perform_proper hsteady hw₂.ready (ha.1.mono hadv.symbols) hb.1
    exact .map (.emission (lasting_verified A) hw₂ hends) fun _ m hm => ⟨m, rfl, hm⟩
  | mulAll kind ms =>
    refine .bind (multivectors_keeps (lasting_verified A) hw ms) fun ms w₁ hw₁ _ hms => ?_
    have hends := Algebra.mulAll_member hsteady hw₁.ready kind fun m hm => (hms m hm).1
    exact .map (.emission (lasting_verified A) hw₁ hends.proper) fun _ m hm => ⟨m, rfl, hm⟩
  | _ => cases hstep

/-- A step passes the guarantee on if what it returns is verified where it only passes marks on. -/
theorem Holds.runStep_verified (hA : A.Tolerates 1)
    (hw : (verified A).Holds (NumericTarget.reading K) A A.square w) {step : Step K}
    (hstates : step.statesNorm = false)
    (hpasses : step.passesMarks = true →
      ∀ m, (w.runStep A input step).1 = .ok (.multivector m) → m.Verified A) :
    (verified A).Holds (NumericTarget.reading K) A A.square (w.runStep A input step).2 := by
  by_cases hstep : step.passesMarks = true
  · obtain ⟨-, hw', hresult⟩ := passing_keeps input hw hstep
    have hreturned := hpasses hstep
    rw [Workspace.runStep] at hreturned ⊢
    rcases hrun : (step.perform A input).run.run w with ⟨e | result, w'⟩
    · rw [hrun] at hw'
      exact hw'.push trivial
    · rw [hrun] at hw' hresult hreturned
      obtain ⟨m, rfl, hm⟩ := hresult result rfl
      exact hw'.push ⟨hm, hreturned m rfl⟩
  · have hadmits := Step.admits_verified hA hstates (Bool.eq_false_iff.2 hstep)
    exact (hw.runStep (lasting_verified A) (supplied_verified A input) hadmits).2

end Guarantees

/-- Whatever the products and reflections of a run return is verified. This is so in particular if
they return nothing that is marked as unit. -/
def Workspace.PassesVerified (A : Algebra K Empty) (input : InputSource (NumericTarget K) K Empty) :
    Workspace (NumericTarget K) K Empty → Script K → Prop
  | _, [] => True
  | w, step :: rest =>
    (step.passesMarks = true →
      ∀ m, (w.runStep A input step).1 = .ok (.multivector m) → m.Verified A) ∧
    PassesVerified A input (w.runStep A input step).2 rest

/-- **All results of a run are verified**, whichever of its steps fail. -/
theorem Guarantees.Holds.run_verified (hA : A.Tolerates 1)
    (hw : (verified A).Holds (NumericTarget.reading K) A A.square w) {script : Script K}
    (hstates : ∀ step ∈ script, step.statesNorm = false)
    (hpasses : w.PassesVerified A input script) :
    (verified A).Holds (NumericTarget.reading K) A A.square (w.run A input script) := by
  induction script generalizing w with
  | nil => exact hw
  | cons step rest ih =>
    obtain ⟨hstep, hrest⟩ := List.forall_mem_cons.1 hstates
    exact ih (hw.runStep_verified hA hstep hpasses.1) hrest hpasses.2

end

namespace Script

/-! ### Lines where norms are verified -/

section Lines

variable [RootedNumber K] {A : Algebra K Empty} {m : Multivector K Empty} {f : Values K} {r : K}

omit [RootedNumber K] in
/-- A step that makes a multivector, in a run that has got some results. -/
theorem runStep_of_gives (A : Algebra K Empty) (input : InputSource (NumericTarget K) K Empty)
    (results : Array (StepResult K Empty)) (step : Step K)
    {action : Emission (NumericTarget K) K (Multivector K Empty)}
    {Q : Multivector K Empty → NumericTarget K → Prop} (h : action.Gives .idle Q)
    (hperform : (step.perform A input).run.run { target := .idle, results } =
      (Step.making action).run.run { target := .idle, results }) :
    ∃ m, Q m .idle ∧ Workspace.runStep A input { target := .idle, results } step =
      (.ok (.multivector m), { target := .idle, results := results.push (.multivector m) }) := by
  obtain ⟨m, ⟨⟩, hm, hQ⟩ := h
  have hreturned : action.run.run .idle = (.ok m, .idle) := hm
  have hmaking : (Step.making action).run.run { target := .idle, results } =
      (.multivector <$> (Work.succeed (action.run.run .idle).1 :
        Work (NumericTarget K) K Empty (Multivector K Empty))).run.run
          { target := (action.run.run .idle).2, results } := rfl
  refine ⟨m, hQ, ?_⟩
  rw [Workspace.runStep, hperform, hmaking, hreturned]
  rfl

/-- What has a square for its squared norm is divided by the root, within the tolerance. -/
theorem normalize_of_square (hone : A.Tolerates 1)
    (hm : (NumericTarget.reading K).Denotes A .idle m f) (hunit : m.knownUnit = false) (hr : 0 < r)
    (hnorm : Values.normSquared A.square f = r * r) :
    (A.normalize m).Gives NumericTarget.idle fun u t => u.knownUnit = true ∧ u.Verified A ∧
      ∃ g, (∀ b, f b = r * g b) ∧ (NumericTarget.reading K).Denotes A t u g := by
  have hpos : 0 < r * r := mul_pos hr hr
  refine .mono (Algebra.normalize_gives NumericTarget.sound_reading (NumericTarget.ready A .idle) hm
    hone hunit (hnorm ▸ hpos.ne')) ?_
  rintro u t ⟨-, hmarked, r', g, hr', hroot, hmultiple, hsign, hu⟩
  rw [hnorm] at hroot hsign
  rw [Number.abs_of_not_neg (lt_asymm hpos)] at hroot
  obtain rfl : r' = r := (mul_self_inj hr'.le hr.le).1 hroot
  refine ⟨hmarked, fun _ => ?_, g, hmultiple, hu⟩
  rw [Multivector.squaredNorm_eq hu, hsign, Number.sign_of_pos hpos]
  exact hone

/-- The geometric product of two multivectors that are marked as unit is marked as well. -/
theorem mul_of_marked {a b : Multivector K Empty} {g : Values K}
    (ha : (NumericTarget.reading K).Denotes A .idle a f) (hamarked : a.knownUnit = true)
    (hb : (NumericTarget.reading K).Denotes A .idle b g) (hbmarked : b.knownUnit = true) :
    (A.mul .geometric a b).Gives NumericTarget.idle fun p t => p.knownUnit = true ∧
      (NumericTarget.reading K).Denotes A t p (Values.convolve (Blade.twist A.square) f g) := by
  refine .mono (Algebra.mul_gives NumericTarget.sound_reading (NumericTarget.ready A .idle) ha hb
    .geometric) ?_
  rintro p t ⟨-, hp, hunit⟩
  rw [ProductKind.kernel_geometric] at hp
  have hkeeps : ProductKind.geometric.keepsAll a b = true :=
    List.all_eq_true.2 fun _ _ => List.all_eq_true.2 fun _ _ => rfl
  rw [hkeeps, hamarked, hbmarked] at hunit
  exact ⟨hunit, hp⟩

/-- A vector that is normalized, multiplied with itself and negated. -/
def unitSquare (r : K) : Script K :=
  [.vector [.number r], .unary .normalize (.result 0),
    .binary (.mul .geometric) (.result 1) (.result 1), .unary .negate (.result 2)]

/-- The product is one, so the run leaves the tolerance nowhere, and its last result is marked. -/
theorem unitSquare_passes (hone : A.Tolerates 1) (hdim : A.dimension = 1) (hsquare : A.square 0 = 1)
    (hr : 0 < r) (input : InputSource (NumericTarget K) K Empty) :
    Workspace.PassesVerified A input { target := .idle } (unitSquare r) ∧
    ∃ m ∈ ((Workspace.run A input { target := .idle } (unitSquare r)).results.getD 3 .nothing).made,
      m.knownUnit = true := by
  have hM := NumericTarget.sound_reading (K := K)
  have hxs : List.Forall₂ ((NumericTarget.reading K).HasValue .idle) [.number r] [r] :=
    .cons ⟨Reading.known_number r, rfl⟩ .nil
  have hnorm : ∀ x : K,
      Values.normSquared A.square (Values.single (.vector 0) x) = x * x := fun x => by
    rw [Values.normSquared_single, Blade.weight_vector _ (by decide), hsquare, one_mul]
  obtain ⟨v, ⟨-, hv, hvunit⟩, hstep₀⟩ := runStep_of_gives A input #[] (.vector [.number r])
    (Algebra.vector_gives hM trivial hxs hdim.symm) rfl
  have hvector : Values.vector [r] = Values.single (.vector 0) r := add_zero _
  rw [hvector] at hv
  obtain ⟨u, ⟨hmarked, -, g, hg, hu⟩, hstep₁⟩ := runStep_of_gives A input #[.multivector v]
    (.unary .normalize (.result 0)) (normalize_of_square hone hv hvunit hr (hnorm r)) rfl
  obtain rfl : g = Values.single (.vector 0) 1 := by
    funext b
    refine mul_left_cancel₀ hr.ne' ((hg b).symm.trans ?_)
    rw [← smul_eq_mul, ← Pi.smul_apply, Values.smul_single, mul_one]
  obtain ⟨p, ⟨hpmarked, hp⟩, hstep₂⟩ := runStep_of_gives A input #[.multivector v, .multivector u]
    (.binary (.mul .geometric) (.result 1) (.result 1)) (mul_of_marked hu hmarked hu hmarked) rfl
  obtain ⟨n, ⟨-, -, hn⟩, hstep₃⟩ := runStep_of_gives A input
    #[.multivector v, .multivector u, .multivector p] (.unary .negate (.result 2))
    (Algebra.negate_gives hM trivial hp) rfl
  simp only [List.push_toArray, List.nil_append, List.cons_append] at hstep₀ hstep₁ hstep₂ hstep₃
  constructor
  · simp only [unitSquare, Workspace.PassesVerified, hstep₀, hstep₁, hstep₂, hstep₃]
    refine ⟨nofun, nofun, fun _ m hm => ?_, nofun, trivial⟩
    obtain rfl : p = m := StepResult.multivector.inj (Except.ok.inj hm)
    have hversor : (Values.single (.vector 0) (1 : K)).Versor A.square := .single _ _
    intro _
    rw [Multivector.squaredNorm_eq hp, hversor.normSquared_mul, hnorm, one_mul, one_mul]
    exact hone
  · simp only [unitSquare, Workspace.run, List.foldl_cons, List.foldl_nil, hstep₀, hstep₁, hstep₂,
      hstep₃]
    exact ⟨n, List.mem_singleton_self n, hn.trans hpmarked⟩

/-- A scalar beside a vector, made of named components. -/
theorem ofNamed_scalar_add_vector (hscalar : A.bladeNamed? "" = some 0)
    (hvector : A.bladeNamed? "e0" = some (.vector 0)) (x : K) :
    (A.ofNamed [("", .number x), ("e0", .number 1)]).Gives NumericTarget.idle fun m t =>
      (NumericTarget.reading K).Denotes A t m (Values.scalar x + Values.single (.vector 0) 1) ∧
        m.knownUnit = false := by
  have hxs : List.Forall₂ ((NumericTarget.reading K).HasNamedValue .idle)
      [("", .number x), ("e0", .number 1)] [("", x), ("e0", 1)] :=
    .cons ⟨rfl, Reading.known_number x, rfl⟩ (.cons ⟨rfl, Reading.known_number 1, rfl⟩ .nil)
  have hnamed : Values.named A.bladeNamed? [("", x), ("e0", 1)] =
      .ok (Values.scalar x + (Values.single (.vector 0) 1 + 0)) := by
    simp only [Values.named, hscalar, hvector]
    rfl
  rw [add_zero] at hnamed
  exact .mono (Algebra.ofNamed_gives NumericTarget.sound_reading trivial hxs hnamed)
    fun _ _ h => h.2

/-- The product of the sum and the difference of a vector and a scalar is a scalar. -/
theorem convolve_sum_difference {R : Type*} [CommRing R] {q : Nat → R} {v : Values R}
    (hv : v.IsVector) (x : R) :
    Values.convolve (Blade.twist q) (Values.scalar x + v) (Values.scalar (-x) + v) =
      Values.scalar (Values.normSquared q v - x * x) := by
  have hscalar : ∀ y : R, Values.scalar y = y • Values.scalar 1 := fun y => by
    rw [Values.scalar, Values.scalar, Values.smul_single, mul_one]
  have hleft : ∀ y : R, Values.convolve (Blade.twist q) (Values.scalar y) v = y • v := fun y => by
    rw [hscalar, Values.convolve_smul_left, Values.one_convolve (Blade.twist_zero_left q)]
  have hright : ∀ y : R, Values.convolve (Blade.twist q) v (Values.scalar y) = y • v := fun y => by
    rw [hscalar, Values.convolve_smul_right, Values.convolve_one (Blade.twist_zero_right q)]
  have hsum : Values.scalar (Values.normSquared q v - x * x) =
      Values.scalar (x * -x) + Values.scalar (Values.normSquared q v) := by
    rw [Values.scalar, Values.scalar, Values.scalar, ← Values.single_add]
    congr 1
    ring
  rw [Values.convolve_add_left, Values.convolve_add_right, Values.convolve_add_right,
    Values.convolve_scalar_scalar (Blade.twist_zero_left q 0), hv.mul_self, hleft, hright, hsum,
    neg_smul]
  abel

section Values

variable {q : Nat → K} {g : Values K}

theorem normSquared_scalar_add_vector (hsquare : q 0 = 1 + 1 + 1) {x : K} (hx : x * x = 1) :
    Values.normSquared q (Values.scalar x + Values.single (.vector 0) 1) = (1 + 1) * (1 + 1) := by
  have hzero : Values.single (.vector 0) (1 : K) 0 = 0 := Values.single_of_ne 1 (by decide)
  rw [Values.normSquared_scalar_add _ _ hzero, Values.normSquared_single,
    Blade.weight_vector _ (by decide), hsquare, hx]
  ring

/-- Halves of a sum and a difference have a product that is a quarter of the product of both. -/
theorem normSquared_mul_halves (hsquare : q 0 = 1 + 1 + 1)
    (hf : Values.scalar 1 + Values.single (.vector 0) 1 = (1 + 1 : K) • f)
    (hg : Values.scalar (-1) + Values.single (.vector 0) 1 = (1 + 1 : K) • g) :
    (1 + 1) * (1 + 1) * Values.normSquared q (Values.convolve (Blade.twist q) f g) = 1 := by
  have hproduct : ((1 + 1) * (1 + 1) : K) • Values.convolve (Blade.twist q) f g =
      Values.scalar (1 + 1) := by
    rw [mul_smul, ← Values.convolve_smul_right, ← Values.convolve_smul_left, ← hf, ← hg,
      convolve_sum_difference (.single (by decide) 1), Values.normSquared_single,
      Blade.weight_vector _ (by decide), hsquare]
    congr 1
    ring
  have hnorms := congrArg (Values.normSquared q) hproduct
  rw [Values.normSquared_smul, Values.scalar, Values.normSquared_single, Blade.weight_zero,
    one_mul, mul_assoc] at hnorms
  have hpos : (0 : K) < 1 + 1 := add_pos zero_lt_one zero_lt_one
  exact mul_left_cancel₀ (mul_pos hpos hpos).ne' (hnorms.trans (mul_one _).symm)

end Values

/-- The sum and the difference of a vector and one, both normalized, and their product. -/
def sumTimesDifference : Script K :=
  [.named [("", .number 1), ("e0", .number 1)], .unary .normalize (.result 0),
    .named [("", .number (-1)), ("e0", .number 1)], .unary .normalize (.result 2),
    .binary (.mul .geometric) (.result 1) (.result 3)]

/-- Where the vector squares to three, both factors have norm one, and the product has not. -/
theorem run_sumTimesDifference (hone : A.Tolerates 1) (hscalar : A.bladeNamed? "" = some 0)
    (hvector : A.bladeNamed? "e0" = some (.vector 0)) (hsquare : A.square 0 = 1 + 1 + 1)
    (input : InputSource (NumericTarget K) K Empty) :
    ∃ sum a difference b p, (Workspace.run A input { target := .idle } sumTimesDifference).results =
        #[.multivector sum, .multivector a, .multivector difference, .multivector b,
          .multivector p] ∧
      (a.knownUnit = true ∧ a.Verified A) ∧ (b.knownUnit = true ∧ b.Verified A) ∧
      p.knownUnit = true ∧ (1 + 1) * (1 + 1) * p.squaredNorm A = 1 := by
  have hpos : (0 : K) < 1 + 1 := add_pos zero_lt_one zero_lt_one
  have hnorm := fun {x : K} => normSquared_scalar_add_vector (x := x) hsquare
  obtain ⟨sum, ⟨hsum, hsumunit⟩, hstep₀⟩ := runStep_of_gives A input #[]
    (.named [("", .number 1), ("e0", .number 1)]) (ofNamed_scalar_add_vector hscalar hvector 1) rfl
  obtain ⟨a, ⟨hamarked, haverified, f, hf, ha⟩, hstep₁⟩ := runStep_of_gives A input
    #[.multivector sum] (.unary .normalize (.result 0))
    (normalize_of_square hone hsum hsumunit hpos (hnorm (one_mul 1))) rfl
  obtain ⟨difference, ⟨hdifference, hdifferenceunit⟩, hstep₂⟩ := runStep_of_gives A input
    #[.multivector sum, .multivector a] (.named [("", .number (-1)), ("e0", .number 1)])
    (ofNamed_scalar_add_vector hscalar hvector (-1)) rfl
  obtain ⟨b, ⟨hbmarked, hbverified, g, hg, hb⟩, hstep₃⟩ := runStep_of_gives A input
    #[.multivector sum, .multivector a, .multivector difference] (.unary .normalize (.result 2))
    (normalize_of_square hone hdifference hdifferenceunit hpos (hnorm (by ring))) rfl
  obtain ⟨p, ⟨hpmarked, hp⟩, hstep₄⟩ := runStep_of_gives A input
    #[.multivector sum, .multivector a, .multivector difference, .multivector b]
    (.binary (.mul .geometric) (.result 1) (.result 3)) (mul_of_marked ha hamarked hb hbmarked) rfl
  simp only [List.push_toArray, List.nil_append, List.cons_append]
    at hstep₀ hstep₁ hstep₂ hstep₃ hstep₄
  refine ⟨sum, a, difference, b, p, ?_, ⟨hamarked, haverified⟩, ⟨hbmarked, hbverified⟩, hpmarked,
    ?_⟩
  · simp only [sumTimesDifference, Workspace.run, List.foldl_cons, List.foldl_nil, hstep₀, hstep₁,
      hstep₂, hstep₃, hstep₄]
  · rw [Multivector.squaredNorm_eq hp]
    exact normSquared_mul_halves hsquare (funext hf) (funext hg)

end Lines

/-- A real line where norms are verified. -/
noncomputable def verifiedLine (square : ℝ) : Algebra ℝ Empty :=
  .line square { unitTolerance? := some (1 / 4) }

theorem tolerates_verifiedLine (square : ℝ) : (verifiedLine square).Tolerates 1 := by
  refine Algebra.tolerates_one (fun tolerance h => ?_) (Number.not_sqrt_neg 1)
  obtain rfl : 1 / 4 = tolerance := Option.some.inj h
  norm_num

/-! ### What a script marks -/

/-- **What is marked as unit has a norm within the tolerance.** In an algebra that verifies unit
norms, in any metric, a script makes only such multivectors, whichever of its steps fail, if it does
not state unit norms itself and no product or reflection of its run returns a multivector that is
marked as unit and has a norm outside of the tolerance. -/
theorem norm_within_tolerance [OrderedNumber K] {A : Algebra K Empty} {tolerance : K}
    (hA : A.settings.unitTolerance? = some tolerance) (htolerance : ¬ tolerance < 0)
    (hroot : ∀ x : K, ¬ Number.sqrt x < 0) (input : InputSource (NumericTarget K) K Empty)
    {script : Script K} (hstates : ∀ step ∈ script, step.statesNorm = false)
    (hpasses : Workspace.PassesVerified A input { target := .idle } script) {i : Nat}
    {m : Multivector K Empty}
    (hm : m ∈ ((Workspace.run A input { target := .idle } script).results.getD i .nothing).made)
    (hunit : m.knownUnit = true) :
    ¬ tolerance < Number.abs (Number.sqrt (Number.abs (m.squaredNorm A)) - 1) := by
  have hone : A.Tolerates 1 := by
    refine Algebra.tolerates_one (fun tolerance' h => ?_) (hroot 1)
    rw [hA] at h
    exact Option.some.inj h ▸ htolerance
  have hrun := (Guarantees.Holds.start (NumericTarget.ready A .idle)).run_verified hone hstates
    hpasses
  exact (hrun.results i).verified hm hunit tolerance hA

theorem norm_within_tolerance_unitSquare :
    let made := ((Workspace.run (verifiedLine 1) (NumericTarget.inputs fun _ => 0)
      { target := .idle } (unitSquare 2)).results.getD 3 .nothing).made
    ∃ m ∈ made, m.knownUnit = true ∧
      ¬ 1 / 4 < Number.abs (Number.sqrt (Number.abs (m.squaredNorm (verifiedLine 1))) - 1) := by
  obtain ⟨hpasses, m, hm, hunit⟩ := unitSquare_passes (tolerates_verifiedLine 1) rfl rfl two_pos
    (NumericTarget.inputs fun _ => 0)
  have hstates : ∀ step ∈ unitSquare (2 : ℝ), step.statesNorm = false := by
    simp [unitSquare, Step.statesNorm]
  exact ⟨m, hm, hunit, norm_within_tolerance rfl (by norm_num) Number.not_sqrt_neg _ hstates hpasses
    hm hunit⟩

/-- **Products may leave the tolerance.** On the line whose vector squares to three, the sum and the
difference of the vector and one can be normalized within the tolerance. Their product is marked as
unit without verification, and its norm is one half. -/
theorem product_outside_tolerance :
    ∃ sum a difference b p, (Workspace.run (verifiedLine 3) (NumericTarget.inputs fun _ => 0)
        { target := .idle } sumTimesDifference).results = #[.multivector sum, .multivector a,
          .multivector difference, .multivector b, .multivector p] ∧
      (a.knownUnit = true ∧ a.Verified (verifiedLine 3)) ∧
      (b.knownUnit = true ∧ b.Verified (verifiedLine 3)) ∧ p.knownUnit = true ∧
      1 / 4 < Number.abs (Number.sqrt (Number.abs (p.squaredNorm (verifiedLine 3))) - 1) := by
  have hthree : (3 : ℝ) = 1 + 1 + 1 := by norm_num
  obtain ⟨sum, a, difference, b, p, hresults, ha, hb, hunit, hnorm⟩ :=
    run_sumTimesDifference (tolerates_verifiedLine 3) rfl rfl hthree
      (NumericTarget.inputs fun _ => 0)
  have hquadruple : ((1 + 1) * (1 + 1) : ℝ) * p.squaredNorm (verifiedLine 3) = 1 := hnorm
  have hquarter : p.squaredNorm (verifiedLine 3) = (1 / 2) ^ 2 := by linarith
  have hsquare : Number.abs ((1 / 2 : ℝ) ^ 2) = (1 / 2) ^ 2 := if_neg (by norm_num)
  have hroot : Number.sqrt ((1 / 2 : ℝ) ^ 2) = 1 / 2 := Real.sqrt_sq (by norm_num)
  have hdistance : Number.abs ((1 / 2 : ℝ) - 1) = -(1 / 2 - 1) := if_pos (by norm_num)
  refine ⟨sum, a, difference, b, p, hresults, ha, hb, hunit, ?_⟩
  rw [hquarter, hsquare, hroot, hdistance]
  norm_num

end Script

end Clifford
