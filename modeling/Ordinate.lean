import Ordinate.Main
import Ordinate.Proofs.Derivative.Attached
import Ordinate.Proofs.Derivative.Fixed
import Ordinate.Proofs.Derivative.Orders
import Ordinate.Proofs.Derivative.Real
import Ordinate.Proofs.Derivative.Recorded
import Ordinate.Proofs.Derivative.Table
import Ordinate.Proofs.Expression.Applied
import Ordinate.Proofs.Expression.Chains
import Ordinate.Proofs.Expression.Frame
import Ordinate.Proofs.Expression.InOrder
import Ordinate.Proofs.Expression.Literals
import Ordinate.Proofs.Expression.Rendered
import Ordinate.Proofs.Expression.Stepwise
import Ordinate.Proofs.Expression.Worth
import Ordinate.Proofs.Number.Grammar
import Ordinate.Proofs.Number.Ratio
import Ordinate.Proofs.Number.Rounding
import Ordinate.Proofs.Number.Shortest
import Ordinate.Proofs.Number.Spelling
import Ordinate.Proofs.Parse.Arranged
import Ordinate.Proofs.Parse.Checked
import Ordinate.Proofs.Parse.Descent
import Ordinate.Proofs.Parse.Levels
import Ordinate.Proofs.Parse.Nested
import Ordinate.Proofs.Parse.Noted
import Ordinate.Proofs.Parse.Outcome
import Ordinate.Proofs.Parse.Respelt
import Ordinate.Proofs.Parse.Written
import Ordinate.Proofs.Sampling.Curve
import Ordinate.Proofs.Sampling.Doubles
import Ordinate.Proofs.Sampling.Exact
