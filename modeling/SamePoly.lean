import SamePoly.Scalar.Exact
import SamePoly.Scalar.Double
import SamePoly.Number.Power
import SamePoly.Text.Alphabetic
import SamePoly.Text.Quoted
import SamePoly.Text.Blank
import SamePoly.Text.Symbol
import SamePoly.Text.Offset
import SamePoly.Arithmetic.Value
import SamePoly.Operand
import SamePoly.Normal
import SamePoly.Malformed
import SamePoly.Summands
import SamePoly.Factors
import SamePoly.Polynomial.Spelling
import SamePoly.Polynomial.Comparison
import SamePoly.Violation.Check
import SamePoly.Trace
import SamePoly.Command.Arguments
import SamePoly.Main
import SamePoly.Proofs.Construction
import SamePoly.Proofs.RingLaws
import SamePoly.Proofs.Saturation
import SamePoly.Proofs.Terms
import SamePoly.Proofs.Exponents
import SamePoly.Proofs.Termination
import SamePoly.Proofs.Comparison
import SamePoly.Proofs.Lines
import SamePoly.Proofs.Session
import SamePoly.Proofs.Evaluation
import SamePoly.Proofs.Rewriting
import SamePoly.Proofs.Tidy
import SamePoly.Proofs.Preservation
import SamePoly.Proofs.Idempotence
import SamePoly.Proofs.OperandEnd
import SamePoly.Proofs.Pairing
import SamePoly.Proofs.Matching
import SamePoly.Proofs.Separators
import SamePoly.Proofs.Sites
import SamePoly.Proofs.Spacing
import SamePoly.Proofs.Grouping
import SamePoly.Proofs.Products
import SamePoly.Proofs.Divisors
import SamePoly.Proofs.Faults
import SamePoly.Proofs.Constants
