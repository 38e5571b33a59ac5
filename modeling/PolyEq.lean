import PolyEq.Main
import PolyEq.Proofs.Binary64.Nearest
import PolyEq.Proofs.Binary64.Packing
import PolyEq.Proofs.Binary64.Shifting
import PolyEq.Proofs.Binary64.Arithmetic
import PolyEq.Proofs.Binary64.Conversion
import PolyEq.Proofs.Tolerance
import PolyEq.Proofs.SquareRoot.Newton
import PolyEq.Proofs.SquareRoot.Convergence
import PolyEq.Proofs.SquareRoot.Integers
import PolyEq.Proofs.Fraction
import PolyEq.Proofs.Solution.Values
import PolyEq.Proofs.Solution.Quadratic
import PolyEq.Proofs.Solution.ExactForm
import PolyEq.Proofs.Solution.ExactRoots
import PolyEq.Proofs.Decimal.RoundTrip
import PolyEq.Proofs.Equation.RoundTrip
import PolyEq.Proofs.Binary64.Special
import PolyEq.Proofs.Equation.Edits
import PolyEq.Proofs.Binary64.Error
import PolyEq.Proofs.Equation.Coefficients
import PolyEq.Proofs.Equation.Degree
import PolyEq.Proofs.SquareRoot.Accuracy
import PolyEq.Proofs.Text.Infix
import PolyEq.Proofs.Solution.Derivation
import PolyEq.Proofs.Solution.Overflow
import PolyEq.Proofs.Solution.Magnitude
import PolyEq.Proofs.Solution.Residual
import PolyEq.Proofs.Solution.Reliable
import PolyEq.Proofs.Text.Blanks
import PolyEq.Proofs.Equation.Blanks
import PolyEq.Proofs.Text.Signs
import PolyEq.Proofs.Term.Reading
import PolyEq.Proofs.Equation.Signs
import PolyEq.Proofs.IntegerLike
import PolyEq.Proofs.Solution.CheckedArithmetic
import PolyEq.Proofs.Binary64.Opposite
import PolyEq.Proofs.Equation.Exchange
import PolyEq.Proofs.Solution.Mirror
import PolyEq.Proofs.Text.Joining
import PolyEq.Proofs.Equation.Sides
import PolyEq.Proofs.Equation.Sum
import PolyEq.Proofs.Solution.Heading
import PolyEq.Proofs.Text.Summands
import PolyEq.Proofs.Equation.Shown
import PolyEq.Proofs.Report
import PolyEq.Proofs.Decimal.Literal
import PolyEq.Proofs.Term.Grammar
import PolyEq.Proofs.Equation.Contribution
import PolyEq.Proofs.Text.Folding
import PolyEq.Proofs.Decimal.Summands
import PolyEq.Proofs.Solution.Folding
import PolyEq.Proofs.Equation.Operators
import PolyEq.Proofs.Text.Neighbours
import PolyEq.Proofs.Equation.PlusSigns
import PolyEq.Proofs.Solution.Approximation
import PolyEq.Proofs.Solution.RootOrder
import PolyEq.Proofs.Solution.WellFormed
import PolyEq.Proofs.Equation.Accumulation
import PolyEq.Proofs.Equation.Exactness
import PolyEq.Proofs.Equation.Emptiness
import PolyEq.Proofs.Equation.Reduction
import PolyEq.Proofs.SquareRoot.Loop
import PolyEq.Proofs.Binary64.Overflow
import PolyEq.Proofs.Decimal.Shortest
import PolyEq.Proofs.Rounding
import PolyEq.Proofs.Decimal.Approximate
import PolyEq.Proofs.Text.Tightening
