import Clifford.Proofs.Script.Session

/-!
# Targets without remarks

A target may be muted, so that separators and remarks do nothing. Operations make remarks only to
announce themselves, and only in an algebra whose settings ask for it. In all other algebras, and
for everything that is built term by term, a muted target is as good as the target itself.

## Main definitions

- `Target.muted` — the target without separators and remarks
- `Silent` — a computation that is the same for the muted target

## Main results

- `Step.perform_silent` — the steps of an algebra without comments
- `Sandwich.applyWith_silent`, `Sandwich.force_silent` — prepared operators
- `Construction.add_silent`, `Construction.read_silent` — what is built term by term
-/

namespace Clifford

variable {σ K S V : Type} [Number K]

/-- The target without separators and remarks. -/
@[reducible]
def Target.muted (T : Target σ K S V) : Target σ K S V :=
  { T with space := pure (), comment := fun _ => pure () }

/-- The computation is the same for the target without separators and remarks. -/
abbrev Silent {α : Type} (c : Target σ K S V → α) : Prop := ∀ T, c T.muted = c T

/-! ### Scalars and drafts -/

namespace Cell

theorem add_silent (cell : Cell K V) (term : Term K S) (negate : Bool) :
    Silent fun _ : Target σ K S V => (cell.add term negate : StateM σ (Cell K V)) :=
  fun _ => rfl

theorem close_silent (cell : Cell K V) :
    Silent fun _ : Target σ K S V => (cell.close : StateM σ (Factor K S)) :=
  fun _ => rfl

theorem sum_silent (name : String) (terms : List (Term K S × Bool)) :
    Silent fun _ : Target σ K S V => (Cell.sum name terms : StateM σ (Factor K S)) :=
  fun _ => rfl

end Cell

namespace Draft

theorem add_silent (nameOf : Blade → String) (c : Contribution K S) (draft : Draft K V) :
    Silent fun _ : Target σ K S V => (draft.add nameOf c : StateM σ (Draft K V)) := by
  intro T
  induction draft with
  | nil => rfl
  | cons head rest ih =>
    obtain ⟨blade, cell⟩ := head
    simp only [add, ih, Cell.add_silent]

theorem addAll_silent (nameOf : Blade → String) (draft : Draft K V) (cs : List (Contribution K S)) :
    Silent fun _ : Target σ K S V => (draft.addAll nameOf cs : StateM σ (Draft K V)) := by
  intro T
  simp only [addAll, add_silent]

theorem close_silent (draft : Draft K V) :
    Silent fun _ : Target σ K S V => (draft.close : StateM σ (List (Blade × Factor K S))) := by
  intro T
  simp only [close, Cell.close_silent]

end Draft

/-! ### Operations -/

namespace Algebra

variable {A : Algebra K S}

theorem call_silent (f : ScalarFunction) (args : Term K S) :
    Silent fun _ : Target σ K S V => (call f args : Emission σ K (Factor K S)) :=
  fun _ => rfl

theorem combine_silent (op : Operator) (l r : Factor K S) :
    Silent fun _ : Target σ K S V => (combine op l r : Emission σ K (Factor K S)) :=
  fun _ => rfl

theorem sum_silent (name : String) (terms : List (Term K S × Bool)) :
    Silent fun _ : Target σ K S V => (sum name terms : Emission σ K (Factor K S)) :=
  fun _ => rfl

omit [Number K] in
/-- Nothing is announced where the settings do not ask for it. -/
theorem announce_silent (hA : A.settings.comments = false) (operation : String) :
    Silent fun _ : Target σ K S V => (A.announce operation : StateM σ Unit) := by
  intro T
  simp only [announce, hA, Bool.false_eq_true, if_false]

omit [Number K] in
theorem annotate_silent (hA : A.settings.comments = false) (operation : String) :
    Silent fun _ : Target σ K S V => (A.annotate operation : Emission σ K Unit) := by
  intro T
  simp only [annotate, announce_silent hA]

theorem extend_silent (draft : Draft K V) (cs : List (Contribution K S)) :
    Silent fun _ : Target σ K S V => (A.extend draft cs : Emission σ K (Draft K V)) := by
  intro T
  simp only [extend, Draft.addAll_silent]

theorem finish_silent (draft : Draft K V) :
    Silent fun _ : Target σ K S V => (A.finish draft : Emission σ K (Multivector K S)) := by
  intro T
  simp only [finish, Draft.close_silent]

theorem build_silent (cs : List (Contribution K S)) :
    Silent fun _ : Target σ K S V => (A.build cs : Emission σ K (Multivector K S)) := by
  intro T
  simp only [build, extend_silent, finish_silent]

theorem extendNamed_silent (draft : Draft K V) (cs : List (String × Factor K S)) :
    Silent fun _ : Target σ K S V => (A.extendNamed draft cs : Emission σ K (Draft K V)) := by
  intro T
  induction cs generalizing draft with
  | nil => rfl
  | cons c rest ih => simp only [extendNamed, extend_silent, ih]

theorem extract_silent (keep : Blade → Bool) (m : Multivector K S) :
    Silent fun _ : Target σ K S V => (A.extract keep m : Emission σ K (Multivector K S)) := by
  intro T
  simp only [extract, build_silent]

theorem pseudoscalar_silent :
    Silent fun _ : Target σ K S V => (A.pseudoscalar : Emission σ K (Multivector K S)) := by
  intro T
  simp only [pseudoscalar, build_silent]

theorem emitTree_silent (tree : ProductTree K S) :
    Silent fun _ : Target σ K S V => (A.emitTree tree : Emission σ K (Multivector K S)) := by
  intro T
  have hpath : @extendPath σ K S V _ T.muted = extendPath := rfl
  have hleaf : @emitLeaf σ K S V _ T.muted A = A.emitLeaf := by
    funext running leaf draft
    simp only [emitLeaf, Draft.add_silent]
  simp only [emitTree, hpath, hleaf, finish_silent]

section

variable (hA : A.settings.comments = false)

include hA

theorem reverse_silent (m : Multivector K S) :
    Silent fun _ : Target σ K S V => (A.reverse m : Emission σ K (Multivector K S)) := by
  intro T
  simp only [reverse, resign, annotate_silent hA, build_silent]

theorem scale_silent (x : Factor K S) (m : Multivector K S) :
    Silent fun _ : Target σ K S V => (A.scale x m : Emission σ K (Multivector K S)) := by
  intro T
  simp only [scale, annotate_silent hA, build_silent]

theorem plus_silent (ms : List (Multivector K S)) :
    Silent fun _ : Target σ K S V => (A.plus ms : Emission σ K (Multivector K S)) := by
  intro T
  simp only [plus, annotate_silent hA, build_silent]

theorem minus_silent (a b : Multivector K S) :
    Silent fun _ : Target σ K S V => (A.minus a b : Emission σ K (Multivector K S)) := by
  intro T
  simp only [minus, annotate_silent hA, build_silent]

theorem mul_silent (kind : ProductKind) (a b : Multivector K S) :
    Silent fun _ : Target σ K S V => (A.mul kind a b : Emission σ K (Multivector K S)) := by
  intro T
  simp only [mul, annotate_silent hA, build_silent]

theorem mulAll_silent (kind : ProductKind) (ms : List (Multivector K S)) :
    Silent fun _ : Target σ K S V => (A.mulAll kind ms : Emission σ K (Multivector K S)) := by
  intro T
  cases ms <;> simp only [mulAll, mul_silent hA, one, build_silent]

theorem normSquared_silent (m : Multivector K S) :
    Silent fun _ : Target σ K S V => (A.normSquared m : Emission σ K (Factor K S)) := by
  intro T
  simp only [normSquared, annotate_silent hA, sum_silent]

theorem scalarProduct_silent (a b : Multivector K S) :
    Silent fun _ : Target σ K S V => (A.scalarProduct a b : Emission σ K (Factor K S)) := by
  intro T
  simp only [scalarProduct, annotate_silent hA, sum_silent]

theorem norm_silent (m : Multivector K S) :
    Silent fun _ : Target σ K S V => (A.norm m : Emission σ K (Factor K S)) := by
  intro T
  simp only [norm, normSquared_silent hA, call_silent]

theorem inverse_silent (m : Multivector K S) :
    Silent fun _ : Target σ K S V => (A.inverse m : Emission σ K (Multivector K S)) := by
  intro T
  simp only [inverse, inverseComponent, inverseByReverse, reverse_silent hA, normSquared_silent hA,
    annotate_silent hA, combine_silent, build_silent]

theorem normalize_silent (m : Multivector K S) :
    Silent fun _ : Target σ K S V => (A.normalize m : Emission σ K (Multivector K S)) := by
  intro T
  simp only [normalize, normalizeComponent, normSquared_silent hA, annotate_silent hA, call_silent,
    combine_silent, scale_silent hA, build_silent]

theorem exp_silent (m : Multivector K S) :
    Silent fun _ : Target σ K S V => (A.exp m : Emission σ K (Multivector K S)) := by
  intro T
  simp only [exp, normSquared_silent hA, one, plus_silent hA, annotate_silent hA, call_silent,
    combine_silent, build_silent]

theorem log_silent (m : Multivector K S) :
    Silent fun _ : Target σ K S V => (A.log m : Emission σ K (Multivector K S)) := by
  intro T
  simp only [log, extract_silent, norm_silent hA, annotate_silent hA, call_silent, combine_silent,
    scale_silent hA]

theorem angle_silent (a b : Multivector K S) :
    Silent fun _ : Target σ K S V => (A.angle a b : Emission σ K (Factor K S)) := by
  intro T
  simp only [angle, mul_silent hA, norm_silent hA, scalarProduct_silent hA, call_silent]

theorem slerpAt_silent (c : Slerp K S) (x : Factor K S) :
    Silent fun _ : Target σ K S V => (A.slerpAt c x : Emission σ K (Multivector K S)) := by
  intro T
  simp only [slerpAt, slerpWeight, annotate_silent hA, call_silent, combine_silent, build_silent]

theorem outermorphism_silent (m : Multivector K S) (matrix : SparseMatrix K S) :
    Silent fun _ : Target σ K S V =>
      (A.outermorphism m matrix : Emission σ K (Multivector K S)) := by
  intro T
  simp only [outermorphism, annotate_silent hA, build_silent]

theorem sandwichChain_silent [Ord S] (ms : List (Multivector K S)) (x : Multivector K S) :
    Silent fun _ : Target σ K S V => (A.sandwichChain ms x : Emission σ K (Multivector K S)) := by
  intro T
  simp only [sandwichChain, annotate_silent hA, emitTree_silent]

end

end Algebra

namespace Sandwich

theorem pairValue_silent (P : Sandwich K S) (pair : Blade × Blade) :
    Silent fun _ : Target σ K S V =>
      (P.pairValue pair : StateM σ (Factor K S × Sandwich K S)) := by
  intro T
  simp only [pairValue, Cell.sum_silent]

theorem force_silent (P : Sandwich K S) :
    Silent fun _ : Target σ K S V => (P.force : StateM σ (Sandwich K S)) := by
  intro T
  have hall : ∀ (pairs : List (Blade × Blade)) (P : Sandwich K S),
      @forceAll σ K S V _ T.muted P pairs = P.forceAll pairs := by
    intro pairs
    induction pairs with
    | nil => exact fun _ => rfl
    | cons pair rest ih => intro P; simp only [forceAll, pairValue_silent, ih]
  simp only [force, hall]

theorem emitBuckets_silent (P : Sandwich K S) (x : Multivector K S) (draft : Draft K V)
    (buckets : List Bucket) :
    Silent fun _ : Target σ K S V =>
      (P.emitBuckets x draft buckets : StateM σ (Draft K V × Sandwich K S)) := by
  intro T
  induction buckets generalizing P draft with
  | nil => rfl
  | cons bucket rest ih => simp only [emitBuckets, pairValue_silent, Draft.add_silent, ih]

theorem applyWith_silent {P : Sandwich K S} (hP : P.algebra.settings.comments = false)
    (x : Multivector K S) (options : SandwichOptions) :
    Silent fun _ : Target σ K S V => (P.applyWith x options :
      StateM σ (Except (AlgebraError K) (Option (Multivector K S)) × Sandwich K S)) := by
  intro T
  simp only [applyWith, conclude, Algebra.announce_silent hP, force_silent, emitBuckets_silent,
    Algebra.finish_silent]

end Sandwich

/-! ### Steps -/

variable {A : Algebra K S} (hA : A.settings.comments = false)

include hA

theorem UnaryOperation.perform_silent [Ord S] (op : UnaryOperation) (m : Multivector K S) :
    Silent fun _ : Target σ K S V => (op.perform A m : Emission σ K (Multivector K S)) := by
  intro T
  cases op with
  | negate | gradeInvolution | conjugate =>
    simp only [perform, Algebra.negate, Algebra.gradeInvolution, Algebra.conjugate, Algebra.resign,
      Algebra.annotate_silent hA, Algebra.build_silent]
  | reverse => exact Algebra.reverse_silent hA m T
  | extractGrade k | extract blades =>
    simp only [perform, Algebra.extractGrade, Algebra.extract_silent]
  | inverse => exact Algebra.inverse_silent hA m T
  | normalize => exact Algebra.normalize_silent hA m T
  | dual | undual =>
    simp only [perform, Algebra.dual, Algebra.undual, Algebra.pseudoscalar_silent,
      Algebra.inverse_silent hA, Algebra.mul_silent hA]
  | exp => exact Algebra.exp_silent hA m T
  | log => exact Algebra.log_silent hA m T

theorem BinaryOperation.perform_silent (op : BinaryOperation) (a b : Multivector K S) :
    Silent fun _ : Target σ K S V => (op.perform A a b : Emission σ K (Multivector K S)) := by
  intro T
  cases op with
  | minus => exact Algebra.minus_silent hA a b T
  | mul kind => exact Algebra.mul_silent hA kind a b T
  | sandwichProduct =>
    simp only [perform, Algebra.sandwichProduct, Algebra.reverse_silent hA,
      Algebra.mulAll_silent hA]
  | reflect =>
    let P : Sandwich K S := { algebra := A, operator := a }
    have happly : @Sandwich.applyWith σ K S V _ T.muted P b {} = P.applyWith b {} :=
      Sandwich.applyWith_silent hA b {} T
    simp only [perform, Algebra.reflect, Algebra.normSquared_silent hA, Algebra.sandwich,
      bind_assoc, pure_bind, Sandwich.apply, P, happly, Algebra.combine_silent,
      Algebra.scale_silent hA]

theorem Measure.perform_silent (op : Measure) (m : Multivector K S) :
    Silent fun _ : Target σ K S V => (op.perform A m : Emission σ K (Factor K S)) := by
  intro T
  cases op with
  | normSquared => exact Algebra.normSquared_silent hA m T
  | norm => exact Algebra.norm_silent hA m T

theorem Comparison.perform_silent (op : Comparison) (a b : Multivector K S) :
    Silent fun _ : Target σ K S V => (op.perform A a b : Emission σ K (Factor K S)) := by
  intro T
  cases op with
  | scalarProduct => exact Algebra.scalarProduct_silent hA a b T
  | dist => simp only [perform, Algebra.dist, Algebra.minus_silent hA, Algebra.norm_silent hA]
  | angle => exact Algebra.angle_silent hA a b T

omit hA in
/-- Applying what a step has prepared makes no remark if its algebra asks for none. -/
theorem Step.applyPrepared_silent {w : Workspace σ K S} {step : Nat}
    (hw : ∀ P, w.results.getD step .nothing = .sandwich P → P.algebra.settings.comments = false)
    (x : MvRef) (options : SandwichOptions) :
    Silent fun _ : Target σ K S V =>
      (Step.applyPrepared step x options : Work σ K S (StepResult K S)).run.run w := by
  intro T
  have hlooked : ∀ (f : StepResult K S → Work σ K S (Sandwich K S))
      (k : Sandwich K S → Work σ K S (StepResult K S)),
      ((Work.resultAt step >>= f) >>= k).run.run w =
        (f (w.results.getD step .nothing) >>= k).run.run w := fun _ _ => rfl
  cases hresult : w.results.getD step .nothing with
  | sandwich P =>
    have hprepared : ∀ k : Sandwich K S → Work σ K S (StepResult K S),
        (Work.prepared step >>= k).run.run w = (k P).run.run w := by
      intro k
      rw [Work.prepared, hlooked, hresult]
      rfl
    simp only [applyPrepared, hprepared, Sandwich.applyWith_silent (hw P hresult)]
  | _ =>
    -- The step has prepared nothing, so both runs stop before the target is asked for anything.
    have hrefused : ∀ k : Sandwich K S → Work σ K S (StepResult K S),
        (Work.prepared step >>= k).run.run w = (.error .noValue, w) := by
      intro k
      rw [Work.prepared, hlooked, hresult]
      rfl
    simp only [applyPrepared, hrefused]

/-- **A step in an algebra without comments makes no remark**, if the operator that it applies
belongs to such an algebra. -/
theorem Step.perform_silent [Ord S] (input : InputSource σ K S) {w : Workspace σ K S}
    (hw : ∀ i P, w.results.getD i .nothing = .sandwich P → P.algebra.settings.comments = false)
    (step : Step K) :
    Silent fun _ : Target σ K S V =>
      (step.perform A input : Work σ K S (StepResult K S)).run.run w := by
  intro T
  cases step with
  | zero | call | combine | coefficient | withKnownUnit =>
    simp only [perform, Algebra.call_silent, Algebra.combine_silent]
  | one | pseudoscalar | basisVectors | scalar x | vector xs | named components =>
    simp only [perform, Algebra.one, Algebra.pseudoscalar, Algebra.basisVectors, Algebra.scalar,
      Algebra.vector, Algebra.ofNamed, Algebra.build_silent, Algebra.extendNamed_silent,
      Algebra.finish_silent]
  | scale x m => simp only [perform, Algebra.scale_silent hA]
  | unary op m => simp only [perform, op.perform_silent hA]
  | binary op a b => simp only [perform, op.perform_silent hA]
  | measure op m => simp only [perform, op.perform_silent hA]
  | compare op a b => simp only [perform, op.perform_silent hA]
  | plus ms => simp only [perform, Algebra.plus_silent hA]
  | mulAll kind ms => simp only [perform, Algebra.mulAll_silent hA]
  | outermorphism m rows => simp only [perform, Algebra.outermorphism_silent hA]
  | slerp a b ts =>
    simp only [perform, slerpPoints, Algebra.slerp, Algebra.angle_silent hA, Algebra.call_silent,
      Algebra.slerpAt_silent hA]
  | sandwich operator => rfl
  | apply step x options => exact applyPrepared_silent (hw step) x options T
  | force step => simp only [perform, Sandwich.force_silent]
  | chain operators x => simp only [perform, Algebra.sandwichChain_silent hA]

omit hA

/-! ### Sessions -/

namespace Construction

theorem add_silent (c : Construction K S V) (contribution : Contribution K S) :
    Silent fun _ : Target σ K S V => (c.add contribution : StateM σ (Construction K S V)) := by
  intro T
  rcases c with (cell | ⟨name, value⟩) | ⟨A, draft⟩ | _
  · simp only [add, Accumulator.add, Cell.add_silent]
  · rfl
  · simp only [add, Draft.add_silent]
  · rfl

theorem read_silent (c : Construction K S V) :
    Silent fun _ : Target σ K S V =>
      (c.read : StateM σ (StepResult K S × Construction K S V)) := by
  intro T
  rcases c with (cell | ⟨name, value⟩) | ⟨A, draft⟩ | _
  · simp only [read, Accumulator.value, Cell.close_silent]
  · rfl
  · simp only [read, Draft.close_silent]
  · rfl

end Construction

/-- The action is no remark, and creates no algebra whose operations announce themselves. -/
def Action.Quiet : Action K → Prop
  | .algebra _ _ settings => settings.comments = false
  | .space | .comment _ => False
  | .step _ _ | .scalar _ | .multivector _ | .add _ _ _ _ | .read _ => True

/-- No operation announces itself: neither those of the algebras nor the operators that steps have
prepared. -/
structure Session.Quiet (session : Session σ K S V) : Prop where
  algebras : ∀ A ∈ session.algebras, A.settings.comments = false
  prepared : ∀ i P, session.workspace.results.getD i .nothing = .sandwich P →
    P.algebra.settings.comments = false

/-- **A quiet action of a quiet session makes no remark.** -/
theorem Session.Quiet.perform_silent [Ord S] (input : InputSource σ K S) {session : Session σ K S V}
    (h : session.Quiet) {action : Action K} (haction : action.Quiet) :
    Silent fun _ : Target σ K S V => session.perform input action := by
  intro T
  cases action with
  | step i step =>
    simp only [Session.perform]
    split
    · rename_i A hA
      have hstep := Step.perform_silent (h.algebras A (List.mem_of_getElem? hA)) input h.prepared
        step T
      simp only [Workspace.runStep, hstep]
    · rfl
  | add k blade term negate => simp only [Session.perform, Construction.add_silent]
  | read k =>
    have hread : @Construction.read σ K S V _ T.muted = Construction.read :=
      funext fun c => c.read_silent T
    simp only [Session.perform, hread]
  | space | comment text => exact haction.elim
  | algebra | scalar | multivector => rfl

end Clifford
