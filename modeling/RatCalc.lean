import RatCalc.Session
import RatCalc.Token
import RatCalc.Proofs.Number.Decimal
import RatCalc.Proofs.Normal.Termination
import RatCalc.Proofs.Normal.Descent
import RatCalc.Proofs.Normal.Fixpoint
import RatCalc.Proofs.Normal.Meaning
import RatCalc.Proofs.Normal.Soundness
import RatCalc.Proofs.Eval.Arithmetic
import RatCalc.Proofs.Scope
import RatCalc.Proofs.Eval.Normalizing
import RatCalc.Proofs.Eval.Coupling
import RatCalc.Proofs.Eval.Direct
import RatCalc.Proofs.Number.Canonical
import RatCalc.Proofs.Session
import RatCalc.Proofs.Eval.Depth
import RatCalc.Proofs.Eval.Stability
import RatCalc.Proofs.Number.Grammar
import RatCalc.Proofs.Normal.Contents
import RatCalc.Proofs.Value.Likeness
import RatCalc.Proofs.Value.Stores
import RatCalc.Proofs.Eval.Matching
import RatCalc.Proofs.Eval.Renumbering
import RatCalc.Proofs.Eval.Frame
import RatCalc.Proofs.Eval.Locality
import RatCalc.Proofs.Eval.Snapshot
import RatCalc.Proofs.Eval.Malformed
import RatCalc.Proofs.Normal.Structure
import RatCalc.Proofs.Number.Exact
import RatCalc.Proofs.Eval.OperandOrder
import RatCalc.Proofs.Normal.RoundLimit
import RatCalc.Proofs.Normal.Divisions
import RatCalc.Proofs.Normal.Sorting
import RatCalc.Proofs.Normal.Gathering
import RatCalc.Proofs.Eval.Literals
import RatCalc.Proofs.Number.Powers
import RatCalc.Proofs.Number.Roots
import RatCalc.Proofs.Number.Rounding
import RatCalc.Proofs.Number.Truncation
import RatCalc.Proofs.History
import RatCalc.Proofs.Number.Negation
import RatCalc.Proofs.Eval.Nesting
import RatCalc.Proofs.Eval.Derived
import RatCalc.Proofs.Limit.Probes
import RatCalc.Proofs.Limit.Negation
import RatCalc.Proofs.Limit.Poles
import RatCalc.Proofs.Number.Snapping
import RatCalc.Proofs.Eval.Extrema
import RatCalc.Proofs.Eval.Units
import RatCalc.Proofs.Limit.Removable
import RatCalc.Proofs.Eval.Cancellation
import RatCalc.Proofs.Expr.Rendering
