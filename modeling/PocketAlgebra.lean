import PocketAlgebra.Calculator.CommandLine
import PocketAlgebra.Main
import PocketAlgebra.Proofs.Field.Reduction
import PocketAlgebra.Proofs.Laurent.Idempotence
import PocketAlgebra.Proofs.Laurent.Polynomial
import PocketAlgebra.Proofs.Pool.Insertion
import PocketAlgebra.Proofs.Pool.Ownership
import PocketAlgebra.Proofs.Text.Buffer
import PocketAlgebra.Proofs.Pool.Growth
import PocketAlgebra.Proofs.Pool.Undo
import PocketAlgebra.Pool.Slab
import PocketAlgebra.Pool.SlotMap
import PocketAlgebra.Proofs.Pool.Places
import PocketAlgebra.Proofs.Pool.Slab
import PocketAlgebra.Proofs.Pool.SlabCopy
import PocketAlgebra.Proofs.Shape.Canonical
import PocketAlgebra.Proofs.Shape.Function
import PocketAlgebra.Proofs.Shape.Engine
import PocketAlgebra.Pool.Reading
import PocketAlgebra.Pool.Reducing
import PocketAlgebra.Proofs.Pool.AllOrNothing
import PocketAlgebra.Proofs.Pool.Operations
import PocketAlgebra.Proofs.Codec.Safety
import PocketAlgebra.Proofs.Grammar.Completeness
import PocketAlgebra.Proofs.Grammar.WellFormed
import PocketAlgebra.Proofs.Order.Agreement
import PocketAlgebra.Proofs.Interruption.Approximation
import PocketAlgebra.Proofs.Expansion.Chain
import PocketAlgebra.Proofs.Evaluation.Resolution
import PocketAlgebra.Proofs.Alpha.Reduction
import PocketAlgebra.Proofs.Expansion.Strict
import PocketAlgebra.Proofs.Termination.Engine
import PocketAlgebra.Proofs.Extent.Engine
import PocketAlgebra.Proofs.Layout.Agreement
import PocketAlgebra.Proofs.Calculator.Failure
import PocketAlgebra.Proofs.Principal.Power
import PocketAlgebra.Proofs.Codec.Reduced
import PocketAlgebra.Proofs.Expr.Occurrence
import PocketAlgebra.Proofs.Principal.RationalPower
import PocketAlgebra.Proofs.Slope.Reduction
import PocketAlgebra.Proofs.Matrix.Grid
import PocketAlgebra.Proofs.Matrix.Powers
import PocketAlgebra.Proofs.Circular.Reduction
import PocketAlgebra.Proofs.Evaluation.WholeNumber
import PocketAlgebra.Proofs.Grammar.Spans
import PocketAlgebra.Proofs.Text.Rounding
import PocketAlgebra.Proofs.Pool.ExactCopy
import PocketAlgebra.Proofs.Evaluation.Checked
import PocketAlgebra.Proofs.Text.Checked
import PocketAlgebra.Proofs.Codec.Stack
import PocketAlgebra.Proofs.Reduction.Integer
import PocketAlgebra.Proofs.Reduction.Logarithm
import PocketAlgebra.Proofs.Stable.Idempotence
