import Clifford.Algebra.Elements
import Clifford.Blade.Naming
import Clifford.Number.Double
import Clifford.Program
import Clifford.Target.Numeric

/-!
# Sample algebras and multivectors

Operands for experiments: Euclidean algebras, multivectors whose coefficients are all inputs, and
random numeric multivectors that a seed reproduces.

## Main definitions

- `Algebra.euclidean` — the algebra in which all basis vectors square to one
- `symbolicEven` — the even multivector of numbered inputs
- `RandomStream` — pseudo-random numbers
- `randomMultivector` — a multivector of random coefficients
-/

namespace Clifford

/-- The algebra of `n` basis vectors that square to one, with default names and settings. -/
def Algebra.euclidean {K S : Type} [Number K] (id n : Nat) :
    Except (AlgebraError K) (Algebra K S) :=
  Algebra.create id (List.replicate n (.number 1)) (Blade.defaultNames n) {}

namespace Algebra

variable {K : Type} [Number K]

/-- The blades of an algebra, in the order of their words. -/
def blades {S : Type} (A : Algebra K S) : List Blade :=
  (List.range (Blade.count A.dimension)).map (BitVec.ofNat 32)

/-- The multivector with an input for each blade of even grade, named by a common beginning and
the word of the blade. All inputs are created before any is used. -/
def symbolicEven (A : Algebra K Handle) (beginning : String) :
    Emission (Program K) K (Multivector K Handle) := do
  let even := A.blades.filter fun b => !isOdd b.grade
  let inputs ← ExceptT.lift (even.mapM fun b => do
    let f ← Program.input (beginning ++ toString b.toNat)
    pure (b, f))
  A.build (inputs.map fun (b, f) => { blade := b, term := [f] })

end Algebra

/-- A stream of pseudo-random words, determined by its seed. -/
structure RandomStream where
  /-- The state, which moves on by a fixed odd step. -/
  state : UInt64
  deriving DecidableEq, Repr

namespace RandomStream

/-- The next word: the state after a step, mixed by shifts and multiplications. -/
def nextWord : StateM RandomStream UInt64 :=
  modifyGet fun stream =>
    let state : UInt64 := stream.state + 0x9E3779B97F4A7C15
    let mixed : UInt64 := (state ^^^ (state >>> 30)) * 0xBF58476D1CE4E5B9
    let mixed : UInt64 := (mixed ^^^ (mixed >>> 27)) * 0x94D049BB133111EB
    (mixed ^^^ (mixed >>> 31), ⟨state⟩)

/-- The next number, at least zero and below one. -/
def nextFraction : StateM RandomStream Float := do
  let word ← nextWord
  pure ((Float.ofNat (word >>> 11).toNat).scaleB (-53))

end RandomStream

namespace Algebra

/-- The random coefficients of an algebra: each blade is present with probability `density`, with a
coefficient of at least minus one and below one. -/
def randomCoefficients (density : Float) :
    List Blade → StateM RandomStream (List (Contribution Float Empty))
  | [] => pure []
  | b :: rest => do
    let chance ← RandomStream.nextFraction
    if chance < density then
      let fraction ← RandomStream.nextFraction
      let others ← randomCoefficients density rest
      pure ({ blade := b, term := [.number (2 * fraction - 1)] } :: others)
    else randomCoefficients density rest

/-- A multivector of random coefficients. -/
def randomMultivector (A : Algebra Float Empty) (density : Float) (stream : RandomStream) :
    Emission (NumericTarget Float) Float (Multivector Float Empty) :=
  A.build ((randomCoefficients density A.blades).run stream).1

end Algebra

end Clifford
