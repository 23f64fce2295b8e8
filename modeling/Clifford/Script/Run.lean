import Clifford.Algebra.Chain
import Clifford.Algebra.Duality
import Clifford.Algebra.Outermorphism
import Clifford.Algebra.Rotor
import Clifford.Script

/-!
# Running scripts

A script is run in an algebra, for a target, with a source of inputs. The results of its steps are
kept in order; a step that fails leaves nothing, and the script goes on after it.

## Main definitions

- `StepResult` — what a step makes
- `InputSource` — where the factors of inputs come from
- `Workspace` — the state of the target and the results so far
- `Step.perform` — the result of a step
- `Workspace.run` — runs a script

## Design notes

A source of inputs is a parameter of a run. A program creates a symbol for each input, while
numbers can take the place of inputs for any target.

The factors of a step are read before its multivectors, each from left to right; reading an input
may change the state of the target.
-/

namespace Clifford

/-- What a step makes. -/
inductive StepResult (K S : Type) where
  /-- Nothing that later steps can refer to. -/
  | nothing
  /-- A multivector. -/
  | multivector (m : Multivector K S)
  /-- A list of multivectors. -/
  | multivectors (ms : List (Multivector K S))
  /-- A scalar. -/
  | scalar (f : Factor K S)
  /-- An operator that is prepared for sandwiches. -/
  | sandwich (P : Sandwich K S)
  /-- The great circle between two vectors and points on it, of which each may have failed. -/
  | points (circle : Slerp K S) (points : List (Except (AlgebraError K) (Multivector K S)))

/-- Why a step has no result. -/
inductive StepError (K : Type) where
  /-- It refers to a result that is not there, or is of another kind. -/
  | noValue
  /-- It refers to an input where the source has none. -/
  | noInput
  /-- The operation failed. -/
  | failed (e : AlgebraError K)
  deriving DecidableEq, Repr

/-- Where the factors of inputs come from. -/
abbrev InputSource (σ K S : Type) := String → Option (StateM σ (Factor K S))

/-- The state of a target and the results of the steps so far. -/
structure Workspace (σ K S : Type) where
  /-- The state of the target. -/
  target : σ
  /-- The results, in the order of the steps. -/
  results : Array (StepResult K S) := #[]

/-- Adds a result. -/
def Workspace.push {σ K S : Type} (workspace : Workspace σ K S) (result : StepResult K S) :
    Workspace σ K S :=
  { workspace with results := workspace.results.push result }

/-- Computations in a workspace. -/
abbrev Work (σ K S : Type) := ExceptT (StepError K) (StateM (Workspace σ K S))

namespace Work

variable {σ K S V : Type}

/-- Drives the target. -/
def onTarget {α : Type} (action : StateM σ α) : Work σ K S α :=
  modifyGet fun workspace =>
    let (result, target) := action.run workspace.target
    (result, { workspace with target })

/-- The result of an operation that may have failed. -/
def succeed {α : Type} : Except (AlgebraError K) α → Work σ K S α
  | .ok result => pure result
  | .error e => throw (.failed e)

/-- Runs an operation. -/
def emission {α : Type} (action : Emission σ K α) : Work σ K S α := do
  let result ← onTarget action.run
  succeed result

/-- The result of a step. -/
def resultAt (step : Nat) : Work σ K S (StepResult K S) := do
  let workspace ← get
  pure (workspace.results.getD step .nothing)

/-- The multivector of a reference. Of the points between two vectors only those that did not fail
are counted. -/
def multivector : MvRef → Work σ K S (Multivector K S)
  | .result step => do
    match ← resultAt step with
    | .multivector m => pure m
    | _ => throw .noValue
  | .item step index => do
    let items ← match ← resultAt step with
      | .multivectors ms => pure ms
      | .points _ points => pure (points.filterMap Except.toOption)
      | _ => throw .noValue
    match items[index]? with
    | some m => pure m
    | none => throw .noValue

/-- The multivectors of several references. -/
def multivectors (refs : List MvRef) : Work σ K S (List (Multivector K S)) :=
  refs.mapM multivector

/-- The operator that a step has prepared. -/
def prepared (step : Nat) : Work σ K S (Sandwich K S) := do
  match ← resultAt step with
  | .sandwich P => pure P
  | _ => throw .noValue

/-- Keeps what a prepared operator has found. -/
def keep (step : Nat) (P : Sandwich K S) : Work σ K S Unit :=
  modify fun workspace =>
    { workspace with results := workspace.results.setIfInBounds step (.sandwich P) }

variable [Number K]

/-- The factor of a reference. -/
def factor (input : InputSource σ K S) : FactorRef K → Work σ K S (Factor K S)
  | .number x => pure (.number x)
  | .input name =>
    match input name with
    | some action => onTarget action
    | none => throw .noInput
  | .coefficient m b => do
    let m ← multivector m
    pure (m.value b)
  | .result step => do
    match ← resultAt step with
    | .scalar f => pure f
    | _ => throw .noValue

/-- The factors of several references. -/
def factors (input : InputSource σ K S) (refs : List (FactorRef K)) : Work σ K S (Term K S) :=
  refs.mapM (factor input)

/-- The matrix of several references. -/
def matrix (input : InputSource σ K S) (rows : List (List (Option (FactorRef K)))) :
    Work σ K S (SparseMatrix K S) :=
  rows.mapM fun row => row.mapM fun
    | none => pure none
    | some ref => do
      let f ← factor input ref
      pure (some f)

end Work

variable {σ K S V : Type} [Number K] [Ord S] [Target σ K S V]

/-- An operation on a multivector. -/
def UnaryOperation.perform (A : Algebra K S) (m : Multivector K S) :
    UnaryOperation → Emission σ K (Multivector K S)
  | negate => A.negate m
  | gradeInvolution => A.gradeInvolution m
  | reverse => A.reverse m
  | conjugate => A.conjugate m
  | extractGrade k => A.extractGrade k m
  | extract blades => A.extract (fun b => blades.contains b) m
  | inverse => A.inverse m
  | normalize => A.normalize m
  | dual => A.dual m
  | undual => A.undual m
  | exp => A.exp m
  | log => A.log m

/-- An operation on two multivectors. -/
def BinaryOperation.perform (A : Algebra K S) (a b : Multivector K S) :
    BinaryOperation → Emission σ K (Multivector K S)
  | minus => A.minus a b
  | mul kind => A.mul kind a b
  | sandwichProduct => A.sandwichProduct a b
  | reflect => A.reflect a b

/-- A scalar of a multivector. -/
def Measure.perform (A : Algebra K S) (m : Multivector K S) : Measure → Emission σ K (Factor K S)
  | normSquared => A.normSquared m
  | norm => A.norm m

/-- A scalar of two multivectors. -/
def Comparison.perform (A : Algebra K S) (a b : Multivector K S) :
    Comparison → Emission σ K (Factor K S)
  | scalarProduct => A.scalarProduct a b
  | dist => A.dist a b
  | angle => A.angle a b

namespace Step

/-- The multivector that an operation makes. -/
def making (action : Emission σ K (Multivector K S)) : Work σ K S (StepResult K S) :=
  .multivector <$> Work.emission action

/-- The scalar that an operation makes. -/
def measuring (action : Emission σ K (Factor K S)) : Work σ K S (StepResult K S) :=
  .scalar <$> Work.emission action

/-- The points between two vectors. -/
def slerpPoints (A : Algebra K S) (a b : Multivector K S) (ts : Term K S) :
    Work σ K S (StepResult K S) := do
  let circle ← Work.emission (A.slerp a b)
  let points ← Work.onTarget (ts.mapM fun t => (A.slerpAt circle t).run)
  pure (.points circle points)

/-- The sandwich of an operand by the operator that a step has prepared. -/
def applyPrepared (step : Nat) (x : MvRef) (options : SandwichOptions) :
    Work σ K S (StepResult K S) := do
  let P ← Work.prepared step
  let x ← Work.multivector x
  let (result, P) ← Work.onTarget (P.applyWith x options)
  Work.keep step P
  match ← Work.succeed result with
  | some m => pure (.multivector m)
  | none => pure .nothing

/-- The result of a step. -/
def perform (A : Algebra K S) (input : InputSource σ K S) :
    Step K → Work σ K S (StepResult K S)
  | zero => pure (.multivector A.zero)
  | one => making A.one
  | pseudoscalar => making A.pseudoscalar
  | basisVectors => .multivectors <$> Work.emission A.basisVectors
  | scalar x => do
    let x ← Work.factor input x
    making (A.scalar x)
  | vector coefficients => do
    let coefficients ← Work.factors input coefficients
    making (A.vector coefficients)
  | named components => do
    let components ← components.mapM fun (name, ref) => do
      let f ← Work.factor input ref
      pure (name, f)
    making (A.ofNamed components)
  | call f args => do
    let args ← Work.factors input args
    measuring (Algebra.call f args)
  | combine op left right => do
    let left ← Work.factor input left
    let right ← Work.factor input right
    measuring (Algebra.combine op left right)
  | coefficient m b => do
    let m ← Work.multivector m
    pure (.scalar (m.value b))
  | scale x m => do
    let x ← Work.factor input x
    let m ← Work.multivector m
    making (A.scale x m)
  | withKnownUnit m knownUnit => do
    let m ← Work.multivector m
    pure (.multivector (m.withKnownUnit knownUnit))
  | unary op m => do
    let m ← Work.multivector m
    making (op.perform A m)
  | binary op a b => do
    let a ← Work.multivector a
    let b ← Work.multivector b
    making (op.perform A a b)
  | measure op m => do
    let m ← Work.multivector m
    measuring (op.perform A m)
  | compare op a b => do
    let a ← Work.multivector a
    let b ← Work.multivector b
    measuring (op.perform A a b)
  | plus ms => do
    let ms ← Work.multivectors ms
    making (A.plus ms)
  | mulAll kind ms => do
    let ms ← Work.multivectors ms
    making (A.mulAll kind ms)
  | outermorphism m rows => do
    let rows ← Work.matrix input rows
    let m ← Work.multivector m
    making (A.outermorphism m rows)
  | slerp a b ts => do
    let ts ← Work.factors input ts
    let a ← Work.multivector a
    let b ← Work.multivector b
    slerpPoints A a b ts
  | sandwich operator => do
    let operator ← Work.multivector operator
    .sandwich <$> Work.emission (A.sandwich operator)
  | apply step x options => applyPrepared step x options
  | force step => do
    let P ← Work.prepared step
    let P ← Work.onTarget P.force
    Work.keep step P
    pure .nothing
  | chain operators x => do
    let operators ← Work.multivectors operators
    let x ← Work.multivector x
    making (A.sandwichChain operators x)

end Step

namespace Workspace

/-- Runs a step and keeps its result. -/
def runStep (A : Algebra K S) (input : InputSource σ K S) (workspace : Workspace σ K S)
    (step : Step K) : Except (StepError K) (StepResult K S) × Workspace σ K S :=
  match (step.perform A input).run.run workspace with
  | (.ok result, workspace) => (.ok result, workspace.push result)
  | (.error e, workspace) => (.error e, workspace.push .nothing)

/-- Runs a script. -/
def run (A : Algebra K S) (input : InputSource σ K S) (workspace : Workspace σ K S)
    (script : Script K) : Workspace σ K S :=
  script.foldl (fun workspace step => (workspace.runStep A input step).2) workspace

end Workspace

end Clifford
