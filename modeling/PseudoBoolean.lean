import PseudoBoolean.Binary64
import PseudoBoolean.Cell
import PseudoBoolean.Coefficient
import PseudoBoolean.Compilation
import PseudoBoolean.Decimal.Shortest
import PseudoBoolean.Decimal.Style
import PseudoBoolean.Decoded
import PseudoBoolean.Expr.Arithmetic
import PseudoBoolean.Expr.Basic
import PseudoBoolean.Expr.Equality
import PseudoBoolean.Expr.Evaluation
import PseudoBoolean.Expr.Expansion
import PseudoBoolean.Expr.Fingerprint
import PseudoBoolean.Expr.Layout
import PseudoBoolean.Gadget
import PseudoBoolean.Ising
import PseudoBoolean.Layout
import PseudoBoolean.Model.Basic
import PseudoBoolean.Model.Decoding
import PseudoBoolean.Monomial
import PseudoBoolean.OrderedSet
import PseudoBoolean.Ordering
import PseudoBoolean.Polynomial
import PseudoBoolean.PowerProduct
import PseudoBoolean.Printer
import PseudoBoolean.Proofs.AuxiliaryLabel
import PseudoBoolean.Proofs.AuxiliaryLabel.Grouping
import PseudoBoolean.Proofs.Compilation
import PseudoBoolean.Proofs.Decoded
import PseudoBoolean.Proofs.Decoded.Leaves
import PseudoBoolean.Proofs.Expr.Agreement
import PseudoBoolean.Proofs.Expr.Arithmetic
import PseudoBoolean.Proofs.Expr.Canonical
import PseudoBoolean.Proofs.Expr.Duplicates
import PseudoBoolean.Proofs.Expr.Equality
import PseudoBoolean.Proofs.Expr.Evaluation
import PseudoBoolean.Proofs.Expr.Fed
import PseudoBoolean.Proofs.Expr.Fingerprint
import PseudoBoolean.Proofs.Expr.Labels
import PseudoBoolean.Proofs.Expr.Layout
import PseudoBoolean.Proofs.Expr.Leaves
import PseudoBoolean.Proofs.Expr.Nodes
import PseudoBoolean.Proofs.Expr.Normal
import PseudoBoolean.Proofs.Expr.Polynomial
import PseudoBoolean.Proofs.Expr.Rearrangement
import PseudoBoolean.Proofs.Expr.Skeleton
import PseudoBoolean.Proofs.Expr.Support
import PseudoBoolean.Proofs.Expr.Value
import PseudoBoolean.Proofs.Fold
import PseudoBoolean.Proofs.Formula
import PseudoBoolean.Proofs.Gadget
import PseudoBoolean.Proofs.Model.Audit
import PseudoBoolean.Proofs.Model.Auxiliary
import PseudoBoolean.Proofs.Model.Bits
import PseudoBoolean.Proofs.Model.Deferred
import PseudoBoolean.Proofs.Model.Energy
import PseudoBoolean.Proofs.Model.Formula
import PseudoBoolean.Proofs.Model.Gadget
import PseudoBoolean.Proofs.Model.Index
import PseudoBoolean.Proofs.Model.Minimum
import PseudoBoolean.Proofs.Model.Named
import PseudoBoolean.Proofs.Model.Pattern
import PseudoBoolean.Proofs.Model.Placement
import PseudoBoolean.Proofs.Model.Presentation
import PseudoBoolean.Proofs.Model.Rearrangement
import PseudoBoolean.Proofs.Model.Regular
import PseudoBoolean.Proofs.Model.RoundTrip
import PseudoBoolean.Proofs.Model.Samples
import PseudoBoolean.Proofs.Model.Spins
import PseudoBoolean.Proofs.Model.Threshold
import PseudoBoolean.Proofs.Model.Variables
import PseudoBoolean.Proofs.Polynomial.Failure
import PseudoBoolean.Proofs.Polynomial.Overflow
import PseudoBoolean.Proofs.Polynomial.Product
import PseudoBoolean.Proofs.Polynomial.Sum
import PseudoBoolean.Proofs.Polynomial.Support
import PseudoBoolean.Proofs.Polynomial.Value
import PseudoBoolean.Proofs.QuadraticForm.Cells
import PseudoBoolean.Proofs.QuadraticForm.Evaluation
import PseudoBoolean.Proofs.QuadraticForm.Renaming
import PseudoBoolean.Proofs.QuadraticForm.Spins
import PseudoBoolean.Proofs.QuadraticForm.Value
import PseudoBoolean.Proofs.Quadratization.Alignment
import PseudoBoolean.Proofs.Quadratization.Frequency
import PseudoBoolean.Proofs.Quadratization.Gap
import PseudoBoolean.Proofs.Quadratization.Labels
import PseudoBoolean.Proofs.Quadratization.Pattern
import PseudoBoolean.Proofs.Quadratization.Run
import PseudoBoolean.Proofs.Quadratization.Shape
import PseudoBoolean.Proofs.Quadratization.Stage
import PseudoBoolean.Proofs.Quadratization.Support
import PseudoBoolean.Proofs.Quadratization.Termination
import PseudoBoolean.Proofs.Quadratization.Value
import PseudoBoolean.Proofs.Scalar.Double
import PseudoBoolean.Proofs.Scalar.Rank
import PseudoBoolean.Proofs.Solution
import PseudoBoolean.Proofs.Table.Lookup
import PseudoBoolean.Proofs.Table.Product
import PseudoBoolean.Proofs.Table.Renaming
import PseudoBoolean.Proofs.Table.Sum
import PseudoBoolean.Proofs.Weight.Evaluation
import PseudoBoolean.Proofs.Weight.Feed
import PseudoBoolean.Proofs.Weight.Operations
import PseudoBoolean.Proofs.Weight.Placeholders
import PseudoBoolean.Proofs.Weight.Powers
import PseudoBoolean.Proofs.Weight.Product
import PseudoBoolean.Proofs.Weight.Sum
import PseudoBoolean.Proofs.Weight.Value
import PseudoBoolean.Proofs.Weight.Wrapping
import PseudoBoolean.QuadraticForm.Basic
import PseudoBoolean.Quadratization.Basic
import PseudoBoolean.Quadratization.Frequency
import PseudoBoolean.Quadratization.Step
import PseudoBoolean.Record
import PseudoBoolean.Scalar
import PseudoBoolean.Solution
import PseudoBoolean.Table
import PseudoBoolean.Text.Quoted
import PseudoBoolean.Variable
import PseudoBoolean.Weight
