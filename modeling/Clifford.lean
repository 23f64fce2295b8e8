import Clifford.Blade.Naming
import Clifford.Number.Double
import Clifford.Scalar
import Clifford.Metric
import Clifford.Error
import Clifford.Accumulator
import Clifford.Target.Numeric
import Clifford.Expression.Tree
import Clifford.Program.Listing
import Clifford.Program.Evaluation
import Clifford.ProductTree
import Clifford.Multivector
import Clifford.Algebra.Linear
import Clifford.Algebra.Product
import Clifford.Algebra.Duality
import Clifford.Algebra.Rotor
import Clifford.Algebra.Outermorphism
import Clifford.Algebra.Sandwich
import Clifford.Algebra.Chain
import Clifford.Target.Journal
import Clifford.Algebra.Description
import Clifford.Algebra.Sample
import Clifford.Script.Run
import Clifford.Script.Vocabulary
import Clifford.Proofs.Blade.Bits
import Clifford.Proofs.Blade.Flips
import Clifford.Proofs.Number.Exact
import Clifford.Proofs.Values.Convolution
import Clifford.Proofs.Target.Outcome
import Clifford.Proofs.Target.Reading
import Clifford.Proofs.Accumulator
import Clifford.Proofs.Multivector
import Clifford.Proofs.Algebra.Building
import Clifford.Proofs.Algebra.Product
import Clifford.Proofs.Algebra.Elements
import Clifford.Proofs.Expression.Arena
import Clifford.Proofs.Program.WellFormed
import Clifford.Proofs.Expression.Value
import Clifford.Proofs.Program.Value
import Clifford.Proofs.Program.Reading
import Clifford.Proofs.Algebra.Associativity
import Clifford.Proofs.Algebra.Linear
import Clifford.Proofs.Algebra.Conjugation
import Clifford.Proofs.Algebra.Sandwich
import Clifford.Proofs.ProductTree.Value
import Clifford.Proofs.Target.Operators
import Clifford.Proofs.Algebra.Chain
import Clifford.Proofs.Program.Evaluator
import Clifford.Proofs.Algebra.Norm
import Clifford.Proofs.Algebra.Outermorphism
import Clifford.Proofs.Script.Meaning
import Clifford.Proofs.Script.Work
import Clifford.Proofs.Script.Simulation
import Clifford.Proofs.Script.Compilation
import Clifford.Proofs.Algebra.Reversion
import Clifford.Proofs.Algebra.GradePreservation
import Clifford.Proofs.Algebra.Inverse
import Clifford.Proofs.Target.Steady
import Clifford.Proofs.Algebra.Terms
import Clifford.Proofs.Algebra.Membership
import Clifford.Proofs.Algebra.SandwichMembership
import Clifford.Proofs.Algebra.UnitHints
import Clifford.Proofs.Expression.Text
import Clifford.Proofs.Number.Real
import Clifford.Proofs.Program.Execution
import Clifford.Proofs.Program.Listing
import Clifford.Proofs.Script.Execution
import Clifford.Proofs.Script.Listing
import Clifford.Proofs.Script.UnitHints
import Clifford.Proofs.Blade.Vectors
import Clifford.Proofs.Values.Exterior
import Clifford.Proofs.Algebra.Exponential
import Clifford.Proofs.Algebra.Interpolation
import Clifford.Proofs.Algebra.Functoriality
import Clifford.Proofs.Algebra.Minors
import Clifford.Proofs.Algebra.Numeric
import Clifford.Proofs.Algebra.Normalization
import Clifford.Proofs.Algebra.Verification
import Clifford.Proofs.Script.Verification
import Clifford.Proofs.ProductTree.Merging
import Clifford.Proofs.ProductTree.Nodes
import Clifford.Proofs.ProductTree.Traversal
import Clifford.Proofs.ProductTree.Sums
import Clifford.Proofs.Target.Calls
import Clifford.Proofs.Algebra.Cancellation
import Clifford.Proofs.Target.Refusal
import Clifford.Proofs.Algebra.Operation
import Clifford.Proofs.Algebra.Refusal
import Clifford.Proofs.Program.Growth
import Clifford.Proofs.Script.Permanence
import Clifford.Proofs.Expression.Sharing
import Clifford.Proofs.Script.Requests
import Clifford.Proofs.Script.Muting
import Clifford.Proofs.Script.Numeric
import Clifford.Proofs.Text.Grammar
import Clifford.Proofs.Text.Spelling
import Clifford.Proofs.Expression.Parsing
import Clifford.Proofs.Algebra.Involutions
import Clifford.Proofs.Target.Protocol
import Clifford.Proofs.Algebra.Blades
import Clifford.Proofs.Algebra.SandwichBlades
import Clifford.Proofs.Algebra.PairProducts
import Clifford.Proofs.Algebra.Closure
import Clifford.Proofs.Multivector.Index
import Clifford.Proofs.Script.Representation
import Clifford.Proofs.Script.Layout
import Clifford.Proofs.Blade.Names
import Clifford.Proofs.Algebra.Names
import Clifford.Proofs.Algebra.Contractions
import Clifford.Proofs.Number.Field
import Clifford.Proofs.Target.Numbers
import Clifford.Proofs.Algebra.Literals
import Clifford.Proofs.Algebra.SquaredNorm
import Clifford.Proofs.Algebra.ScalarProduct
import Clifford.Proofs.Algebra.Magnitude
import Clifford.Proofs.Algebra.Inversion
import Clifford.Proofs.Algebra.Rescaling
import Clifford.Proofs.Algebra.Duality
import Clifford.Proofs.Algebra.Reflection
import Clifford.Proofs.Algebra.Rotor
import Clifford.Proofs.Program.Assembly
import Clifford.Proofs.Program.FreshNames
import Clifford.Proofs.Program.Dependence
import Clifford.Proofs.Algebra.Components
import Clifford.Proofs.Algebra.GradeParts
import Clifford.Proofs.Number.Double
import Clifford.Proofs.ProductTree.FactorOrder
import Clifford.Proofs.Blade.Sweeps
import Clifford.Proofs.Metric
import Clifford.Proofs.Blade.Inversions
import Clifford.Proofs.Algebra.Inclusion
