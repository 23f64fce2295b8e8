import Clifford.Script.Run
import Clifford.Proofs.Algebra.Norm
import Clifford.Proofs.Algebra.Outermorphism

/-!
# Meanings of scripts

What a script of polynomial operations means does not depend on a target: multivectors are their
coefficient functions, prepared operators those of the operator, and every step computes on them.

## Main definitions

- `Step.isPolynomial` — the operations that stay within polynomials of their operands, and that do
  not change what is known about norms
- `Meaning` — what a step makes
- `Interpretation` — the dimension, the squares, the blade names and the inputs of a script
- `Interpretation.step`, `Interpretation.run` — the meaning of a step and of a script
-/

namespace Clifford

/-! ### Polynomial operations -/

/-- Whether the operation changes signs or leaves out components. -/
def UnaryOperation.isPolynomial : UnaryOperation → Bool
  | negate | gradeInvolution | reverse | conjugate | extractGrade _ | extract _ => true
  | inverse | normalize | dual | undual | exp | log => false

/-- Whether the operation is a difference or a product. -/
def BinaryOperation.isPolynomial : BinaryOperation → Bool
  | minus | mul _ | sandwichProduct => true
  | reflect => false

/-- Whether the step computes polynomials of its operands. Leaving out the grades that an operand
lacks is no such computation, since it depends on which components are listed. -/
def Step.isPolynomial {K : Type} : Step K → Bool
  | zero | one | scalar _ | vector _ | named _ | coefficient _ _ | scale _ _ | plus _
  | mulAll _ _ | outermorphism _ _ | sandwich _ | force _ | chain _ _ => true
  | combine op _ _ => op != .div
  | unary op _ => op.isPolynomial
  | binary op _ _ => op.isPolynomial
  | measure op _ => op == .normSquared
  | compare op _ _ => op == .scalarProduct
  | apply _ _ options => !options.keepOperandGrades
  | pseudoscalar | basisVectors | call _ _ | withKnownUnit _ _ | slerp _ _ _ => false

/-- Whether every step of a script computes polynomials. -/
def Script.isPolynomial {K : Type} (script : Script K) : Bool := script.all Step.isPolynomial

/-! ### Meanings -/

/-- What a step makes. -/
inductive Meaning (K : Type) where
  /-- Nothing that later steps can refer to. -/
  | nothing
  /-- A multivector. -/
  | multivector (f : Values K)
  /-- A scalar. -/
  | scalar (x : K)
  /-- An operator that is prepared for sandwiches. -/
  | sandwich (f : Values K)

/-- What the operations and the inputs of a script refer to. -/
structure Interpretation (K : Type) where
  /-- The number of basis vectors. -/
  dimension : Nat
  /-- The squares of the basis vectors. -/
  squares : Nat → K
  /-- The blade with a name. -/
  bladeNamed? : String → Option Blade
  /-- The values of the inputs. -/
  inputs : String → K

variable {K : Type}

namespace Meaning

/-- The meaning of a step. -/
def resultAt (meanings : List (Meaning K)) (step : Nat) : Except (StepError K) (Meaning K) :=
  .ok (meanings.getD step .nothing)

/-- The coefficients of a multivector. Polynomial steps make no lists of multivectors. -/
def multivectorAt (meanings : List (Meaning K)) : MvRef → Except (StepError K) (Values K)
  | .result step => do
    match ← Meaning.resultAt meanings step with
    | .multivector f => pure f
    | _ => throw .noValue
  | .item _ _ => throw .noValue

/-- The coefficients of an operator that a step has prepared. -/
def preparedAt (meanings : List (Meaning K)) (step : Nat) : Except (StepError K) (Values K) := do
  match ← Meaning.resultAt meanings step with
  | .sandwich f => pure f
  | _ => throw .noValue

theorem getD_of_preparedAt {meanings : List (Meaning K)} {step : Nat}
    {f : Values K}
    (h : Meaning.preparedAt meanings step = .ok f) : meanings.getD step .nothing = .sandwich f := by
  change (match meanings.getD step .nothing with
    | .sandwich f => Except.ok f
    | _ => Except.error StepError.noValue) = _ at h
  split at h
  · rename_i hmeaning
    rw [hmeaning, Except.ok.inj h]
  · cases h

end Meaning

/-- What an operation does to coefficients. -/
def UnaryOperation.act {R : Type*} [CommRing R] (f : Values R) : UnaryOperation → Values R
  | negate => -f
  | gradeInvolution => Values.flipped (fun b => isOdd b.grade) f
  | reverse => Values.reversed f
  | conjugate => Values.flipped (fun b => isOdd (b.grade + b.reverseFlips)) f
  | extractGrade k => Values.kept (fun b => b.grade == k) f
  | extract blades => Values.kept (fun b => blades.contains b) f
  | _ => f

/-- What an operation does to two lots of coefficients. -/
noncomputable def BinaryOperation.act {R : Type*} [CommRing R] (q : Nat → R) (f g : Values R) :
    BinaryOperation → Values R
  | minus => f - g
  | mul kind => Values.convolve (kind.kernel q) f g
  | sandwichProduct => Values.conjugate q f g
  | reflect => g

namespace Interpretation

variable [Number K] (I : Interpretation K) (meanings : List (Meaning K))

/-- The value of a factor. -/
def factor : FactorRef K → Except (StepError K) K
  | .number x => pure x
  | .input name => pure (I.inputs name)
  | .coefficient m b => do
    let f ← Meaning.multivectorAt meanings m
    pure (f b)
  | .result step => do
    match ← Meaning.resultAt meanings step with
    | .scalar x => pure x
    | _ => throw .noValue

/-- The values of a matrix. -/
def matrix (rows : List (List (Option (FactorRef K)))) :
    Except (StepError K) (List (List (Option K))) :=
  rows.mapM fun row => row.mapM fun
    | none => pure none
    | some ref => do
      let x ← I.factor meanings ref
      pure (some x)

variable [ExactNumber K]

/-- The meaning of a polynomial step. -/
noncomputable def step : Step K → Except (StepError K) (Meaning K)
  | .zero => pure (.multivector 0)
  | .one => pure (.multivector (Values.scalar 1))
  | .scalar x => do
    let x ← I.factor meanings x
    pure (.multivector (Values.scalar x))
  | .vector coefficients => do
    let xs ← coefficients.mapM (I.factor meanings)
    if xs.length ≠ I.dimension then
      throw (.failed (.dimensionMismatch I.dimension xs.length))
    else pure (.multivector (Values.vector xs))
  | .named components => do
    let xs ← components.mapM fun (name, ref) => do
      let x ← I.factor meanings ref
      pure (name, x)
    match Values.named I.bladeNamed? xs with
    | .ok f => pure (.multivector f)
    | .error e => throw (.failed e)
  | .combine op left right => do
    let x ← I.factor meanings left
    let y ← I.factor meanings right
    pure (.scalar (op.eval x y))
  | .coefficient m b => do
    let f ← Meaning.multivectorAt meanings m
    pure (.scalar (f b))
  | .scale x m => do
    let x ← I.factor meanings x
    let f ← Meaning.multivectorAt meanings m
    pure (.multivector fun b => x * f b)
  | .unary op m => do
    let f ← Meaning.multivectorAt meanings m
    pure (.multivector (op.act f))
  | .binary op a b => do
    let f ← Meaning.multivectorAt meanings a
    let g ← Meaning.multivectorAt meanings b
    pure (.multivector (op.act I.squares f g))
  | .measure _ m => do
    let f ← Meaning.multivectorAt meanings m
    pure (.scalar (Values.normSquared I.squares f))
  | .compare _ a b => do
    let f ← Meaning.multivectorAt meanings a
    let g ← Meaning.multivectorAt meanings b
    pure (.scalar (Values.scalarProduct I.squares f g))
  | .plus ms => do
    let fs ← ms.mapM (Meaning.multivectorAt meanings)
    pure (.multivector fs.sum)
  | .mulAll kind ms => do
    let fs ← ms.mapM (Meaning.multivectorAt meanings)
    pure (.multivector (kind.product I.squares fs))
  | .outermorphism m rows => do
    let xss ← I.matrix meanings rows
    let f ← Meaning.multivectorAt meanings m
    if I.dimension < xss.length then
      throw (.failed (.dimensionMismatch I.dimension xss.length))
    else pure (.multivector (Values.outermorphism xss f))
  | .sandwich operator => do
    let f ← Meaning.multivectorAt meanings operator
    pure (.sandwich f)
  | .apply step x options => do
    let f ← Meaning.preparedAt meanings step
    let g ← Meaning.multivectorAt meanings x
    pure (if options.dummy then .nothing else .multivector (Values.conjugate I.squares f g))
  | .force step => do
    let _ ← Meaning.preparedAt meanings step
    pure .nothing
  | .chain operators x => do
    let fs ← operators.mapM (Meaning.multivectorAt meanings)
    let g ← Meaning.multivectorAt meanings x
    pure (.multivector (fs.foldr (Values.conjugate I.squares) g))
  | _ => pure .nothing

/-- The meanings after a step. A step that fails means nothing. -/
noncomputable def next (step : Step K) : List (Meaning K) :=
  meanings ++ [match I.step meanings step with
    | .ok meaning => meaning
    | .error _ => .nothing]

/-- The meanings of the steps of a script. -/
noncomputable def run (script : Script K) : List (Meaning K) :=
  script.foldl (fun meanings step => I.next meanings step) meanings

end Interpretation

end Clifford
