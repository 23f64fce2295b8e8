import Clifford.Proofs.Algebra.Membership
import Clifford.Proofs.Algebra.Numeric
import Clifford.Proofs.Algebra.UnitHints
import Clifford.Proofs.Number.Real
import Clifford.Proofs.Script.Compilation
import Clifford.Proofs.Script.Guarantees

/-!
# Unit norms in scripts

A script of operations on versors is computed in an algebra where no vector has a negative square.
Then every multivector that it makes is a versor, and every one that is stated to have norm one
does have it.

## Main definitions

- `Step.isVersorial` — the operations that lead from versors to versors, and that leave the
  statement about the norm to the operation
- `Guarantees.versors` — everything that is made is a versor with a true statement about its norm

## Main results

- `Step.admits_versors` — these operations pass the guarantee on
- `Script.squaredNorm_eq_one` — statements about norms are true
-/

namespace Clifford

/-! ### Operations on versors -/

/-- Whether the operation leads from versors to versors. -/
def UnaryOperation.isVersorial : UnaryOperation → Bool
  | negate | gradeInvolution | reverse | conjugate | inverse | normalize => true
  | extractGrade _ | extract _ | dual | undual | exp | log => false

/-- Whether the operation leads from versors to versors. -/
def BinaryOperation.isVersorial : BinaryOperation → Bool
  | mul kind => kind == .geometric
  | sandwichProduct | reflect => true
  | minus => false

/-- Whether the step makes versors of versors, and leaves the statement about their norms to the
operation. -/
def Step.isVersorial {K : Type} : Step K → Bool
  | zero | one | pseudoscalar | basisVectors | scalar _ | vector _ | scale _ _ | sandwich _
  | apply _ _ _ | force _ | chain _ _ => true
  | call _ _ | combine _ _ _ | coefficient _ _ | measure _ _ | compare _ _ _ => true
  | unary op _ => op.isVersorial
  | binary op _ _ => op.isVersorial
  | mulAll kind _ => kind == .geometric
  | named _ | withKnownUnit _ _ | plus _ | outermorphism _ _ | slerp _ _ _ => false

/-- Whether every step of a script makes versors of versors. -/
def Script.isVersorial {K : Type} (script : Script K) : Bool := script.all Step.isVersorial

/-- The multivectors that a step has made, or has prepared as an operator. -/
def StepResult.made {K S : Type} : StepResult K S → List (Multivector K S)
  | nothing => []
  | multivector m => [m]
  | multivectors ms => ms
  | scalar _ => []
  | sandwich P => [P.operator]
  | points _ items => items.filterMap Except.toOption

variable {K : Type} [Number K]

section

variable [ExactNumber K]

/-! ### Guarantees -/

variable {σ S V : Type}

/-- Everything that is made is a versor, of which it is only stated that its norm is one if its
squared norm is one. Scalars have values. -/
def Guarantees.versors (M : Reading σ K S V) (A : Algebra K S) (q : Nat → K) :
    Guarantees σ K S where
  multivector s m := M.IsVersor A q s m
  factor s f := M.Known s f
  sandwich s P := Sandwich.ValidVersor M A q s P
  circle _ _ := True

theorem Guarantees.lasting_versors (M : Reading σ K S V) (A : Algebra K S) (q : Nat → K) :
    (versors M A q).Lasting M where
  multivector hext h := h.mono hext
  factor hext h := hext.known h
  sandwich hext h := h.mono hext
  circle _ _ := trivial
  number x := Reading.known_number x
  value b h := h.values.known_value b

/-- What was made are versors, also those that are prepared as operators. -/
theorem Guarantees.Result.isVersor {M : Reading σ K S V} {A : Algebra K S} {q : Nat → K} {s : σ}
    {result : StepResult K S} (h : (versors M A q).Result s result) {m : Multivector K S}
    (hm : m ∈ result.made) : M.IsVersor A q s m := by
  cases result with
  | nothing => cases hm
  | multivector m' => exact List.mem_singleton.1 hm ▸ h
  | multivectors ms => exact h m hm
  | scalar f => cases hm
  | sandwich P => exact List.mem_singleton.1 hm ▸ Sandwich.ValidVersor.isVersor h
  | points circle items =>
    refine h.2 m ?_
    obtain ⟨item, hitem, hm⟩ := List.mem_filterMap.1 hm
    cases item with
    | error e => cases hm
    | ok m' => exact Option.some.inj hm ▸ hitem

end

variable [OrderedNumber K] {σ S V : Type} [IsEmpty S] [Target σ K S V] {M : Reading σ K S V}
  {A : Algebra K S} {q : Nat → K} {s : σ} {m a b : Multivector K S}

theorem UnaryOperation.perform_versor [Ord S] (hM : M.Sound) (hA : M.Ready A s q)
    (hq : ∀ i, 0 ≤ q i) {op : UnaryOperation} (hop : op.isVersorial = true)
    (hm : M.IsVersor A q s m) :
    M.Ends True (op.perform A m) s fun r s' => M.IsVersor A q s' r := by
  cases op with
  | negate => exact Algebra.negate_versor hM hA hm True
  | gradeInvolution => exact Algebra.gradeInvolution_versor hM hA hm True
  | reverse => exact Algebra.reverse_versor hM hA hm True
  | conjugate => exact Algebra.conjugate_versor hM hA hm True
  | inverse => exact Algebra.inverse_versor hM hA hm
  | normalize => exact Algebra.normalize_versor hM hA hq hm
  | extractGrade k => cases hop
  | extract blades => cases hop
  | dual => cases hop
  | undual => cases hop
  | exp => cases hop
  | log => cases hop

theorem BinaryOperation.perform_versor (hM : M.Sound) (hA : M.Ready A s q)
    {op : BinaryOperation} (hop : op.isVersorial = true) (ha : M.IsVersor A q s a)
    (hb : M.IsVersor A q s b) :
    M.Ends True (op.perform A a b) s fun r s' => M.IsVersor A q s' r := by
  cases op with
  | minus => cases hop
  | mul kind =>
    obtain rfl : kind = .geometric := by simpa [isVersorial] using hop
    exact .of_gives (Algebra.mul_versor hM hA ha hb)
  | sandwichProduct => exact Algebra.sandwichProduct_versor hM hA ha hb True
  | reflect => exact Algebra.reflect_versor hM hA ha hb

/-- **Operations on versors pass the guarantee on.** -/
theorem Step.admits_versors [Ord S] [Std.LawfulEqOrd S] (hM : M.Sound) (hq : ∀ i, 0 ≤ q i)
    {step : Step K} (hstep : step.isVersorial = true) :
    (Guarantees.versors M A q).Admits M A q step := by
  cases step with
  | zero => exact fun s => Reading.denotes_zero.isVersor .zero rfl
  | one => exact fun s hA => Algebra.one_versor hM hA True
  | pseudoscalar => exact fun s hA => Algebra.pseudoscalar_versor hM hA True
  | basisVectors => exact fun s hA => Algebra.basisVectors_versor hM hA True
  | scalar x => exact fun s x hA hx => Algebra.scalar_versor hM hA hx True
  | vector xs => exact fun s xs hA hxs => Algebra.vector_versor hM hA hxs trivial
  | named components => cases hstep
  | call f args => exact fun s xs hA hxs => Algebra.call_known hM.steady f hA.ready hxs
  | combine op l r => exact fun s x y hA hx hy => Algebra.combine_known hM.steady op hA.ready hx hy
  | coefficient m b => trivial
  | scale x m => exact fun s x m hA hx hm => Algebra.scale_versor hM hA hx hm True
  | withKnownUnit m knownUnit => cases hstep
  | unary op m => exact fun s m hA hm => op.perform_versor hM hA hq hstep hm
  | binary op a b => exact fun s a b hA ha hb => op.perform_versor hM hA hstep ha hb
  | measure op m =>
    intro s m hA (hm : M.IsVersor A q s m)
    cases op with
    | normSquared => exact Algebra.normSquared_known hM.steady hA hm.proper
    | norm => exact Algebra.norm_known hM.steady hA hm.proper
  | compare op a b =>
    intro s a b hA (ha : M.IsVersor A q s a) (hb : M.IsVersor A q s b)
    cases op with
    | scalarProduct => exact Algebra.scalarProduct_known hM.steady hA ha.proper hb.proper
    | dist => exact Algebra.dist_known hM.steady hA ha.proper hb.proper
    | angle => exact Algebra.angle_known hM.steady hA ha.proper hb.proper
  | plus ms => cases hstep
  | mulAll kind ms =>
    obtain rfl : kind = .geometric := by simpa [Step.isVersorial] using hstep
    exact fun s ms hA hms => Algebra.mulAll_versor hM hA hms True
  | outermorphism m rows => cases hstep
  | slerp a b ts => cases hstep
  | sandwich operator => exact fun s m hA hm => Sandwich.sandwich_versor hA hm True
  | apply step x options =>
    exact fun s P x hA hP hx => Sandwich.applyWith_versor hM hA hP hx options
  | force step => exact fun s P hA hP => Sandwich.force_versor hM hA hP
  | chain operators x =>
    exact fun s ms x hA hms hx => Algebra.sandwichChain_versor hM hA hms hx

/-! ### Runs -/

namespace Script

/-- Inputs of the numeric target are numbers. -/
theorem supplied_versors {A : Algebra K Empty} {q : Nat → K}
    (input : InputSource (NumericTarget K) K Empty) :
    (Guarantees.versors (NumericTarget.reading K) A q).Supplied (NumericTarget.reading K) input :=
  fun _ _ _ _ _ => ⟨⟨fun t => t.elim, trivial⟩, NumericTarget.known _ _⟩

/-- **Statements about unit norms are true.** Where no vector has a negative square, a script of
operations on versors makes only multivectors whose squared norm is one if they are stated to have
norm one, whichever of its steps fail. -/
theorem squaredNorm_eq_one {A : Algebra K Empty} (hA : ∀ square ∈ A.metric, ¬ square.toNumber < 0)
    (input : InputSource (NumericTarget K) K Empty) {script : Script K}
    (hscript : script.isVersorial = true) {i : Nat} {m : Multivector K Empty}
    (hm : m ∈ ((Workspace.run A input { target := .idle } script).results.getD i .nothing).made)
    (hunit : m.knownUnit = true) : m.squaredNorm A = 1 := by
  have hq : ∀ i, 0 ≤ A.square i := by
    intro i
    rw [Algebra.square]
    cases hget : A.metric[i]? with
    | none => exact zero_le_one
    | some square => exact not_lt.1 (hA square (List.mem_of_getElem? hget))
  have hsteps := List.all_eq_true.1 hscript
  have hrun := (Guarantees.Holds.start (NumericTarget.ready A .idle)).run
    (Guarantees.lasting_versors _ A A.square) (supplied_versors input) fun step hstep =>
      Step.admits_versors NumericTarget.sound_reading hq (hsteps step hstep)
  obtain ⟨f, hf⟩ := (hrun.results i).isVersor hm
  rw [Multivector.squaredNorm_eq hf.toDenotes, hf.unit hunit]

/-- The Euclidean plane over the reals. -/
noncomputable def realPlane : Algebra ℝ Empty where
  id := 0
  metric := [.number 1, .number 1]
  names := #["", "e0", "e1", "e01"]
  dimension_le := by decide
  size_names := by decide

/-- A blade of the plane, of which it is stated that its norm is one. -/
noncomputable def planeUnit (b : Blade) : Multivector ℝ Empty :=
  { owner := 0, components := [(b, .number 1)], knownUnit := true }

/-- The product of both basis vectors. -/
def unitBivector : Script ℝ :=
  [.basisVectors, .binary (.mul .geometric) (.item 0 0) (.item 0 1)]

theorem basisVectors_realPlane :
    (realPlane.basisVectors : Emission (NumericTarget ℝ) ℝ _) =
      pure [planeUnit 1, planeUnit 2] := by
  have hbuild := fun b => realPlane.build_term b [.number 1] (x := 1)
    (by simp [Term.hasZero, Factor.isZero, Number.isZero])
    (by simp [Term.product?, Term.numbers?, Factor.number?, Number.productFrom])
  have hone : (Factor.number (1 : ℝ) : Factor ℝ Empty).isOne = true := decide_eq_true rfl
  rw [Algebra.basisVectors]
  change ([(.number 1, 0), (.number 1, 1)] : List (Factor ℝ Empty × Nat)).mapM _ = _
  simp only [List.mapM_cons, List.mapM_nil, hbuild, hone]
  rfl

theorem mul_realPlane :
    (realPlane.mul .geometric (planeUnit 1) (planeUnit 2) : Emission (NumericTarget ℝ) ℝ _) =
      pure (planeUnit 3) := by
  have hbuild := realPlane.build_term 3 [.number 1, .number 1] (x := 1)
    (by simp [Term.hasZero, Factor.isZero, Number.isZero])
    (by simp [Term.product?, Term.numbers?, Factor.number?, Number.productFrom])
  have hshared : Blade.positions ((1 : Blade) &&& 2) = [] := by
    rw [Blade.positions, dif_pos (by decide)]
  have hflips : isOdd ((1 : Blade).productFlips 2) = false := by
    rw [Blade.productFlips, Blade.positions_eq_filter]
    decide
  have hpair : realPlane.productContributions .geometric (planeUnit 1) (planeUnit 2) =
      [{ blade := 3, term := [.number 1, .number 1] }] := by
    rw [← hflips]
    simp only [Algebra.productContributions, planeUnit, List.flatMap_cons, List.flatMap_nil,
      List.filterMap_cons, List.filterMap_nil, Algebra.pairContribution?, Metric.factors?, hshared,
      Metric.factorsAt?]
    rfl
  rw [Algebra.mul, hpair, hbuild]
  rfl

theorem squaredNorm_eq_one_unitBivector :
    let made := ((Workspace.run realPlane (NumericTarget.inputs fun _ => 0) { target := .idle }
      unitBivector).results.getD 1 .nothing).made
    planeUnit 3 ∈ made ∧ (planeUnit 3).squaredNorm realPlane = 1 := by
  intro made
  have hmade : planeUnit 3 ∈ made := by
    have hfirst : Workspace.runStep realPlane (NumericTarget.inputs fun _ => 0)
        { target := .idle } .basisVectors = (.ok (.multivectors [planeUnit 1, planeUnit 2]),
          { target := .idle, results := #[.multivectors [planeUnit 1, planeUnit 2]] }) := by
      unfold Workspace.runStep Step.perform
      rw [basisVectors_realPlane]
      rfl
    have hsecond : ((Step.binary (.mul .geometric) (.item 0 0) (.item 0 1)).perform realPlane
        (NumericTarget.inputs fun _ => 0)).run.run
          { target := .idle, results := #[.multivectors [planeUnit 1, planeUnit 2]] } =
        (Step.making (realPlane.mul .geometric (planeUnit 1) (planeUnit 2))).run.run
          { target := .idle, results := #[.multivectors [planeUnit 1, planeUnit 2]] } := rfl
    change planeUnit 3 ∈ ((Workspace.runStep realPlane (NumericTarget.inputs fun _ => 0)
      (Workspace.runStep realPlane (NumericTarget.inputs fun _ => 0) { target := .idle }
        .basisVectors).2 (.binary (.mul .geometric) (.item 0 0) (.item 0 1))).2.results.getD 1
          .nothing).made
    rw [hfirst]
    unfold Workspace.runStep
    rw [hsecond, mul_realPlane]
    exact List.mem_singleton_self _
  refine ⟨hmade, squaredNorm_eq_one ?_ _ (by rfl) hmade rfl⟩
  rintro square (_ | ⟨_, _ | ⟨_, ⟨⟩⟩⟩)
  all_goals exact not_lt_of_ge zero_le_one

end Script

end Clifford
