import RatCalc.Normal.Folding
import RatCalc.Normal.Fraction
import RatCalc.Normal.Negation
import RatCalc.Normal.Ordering

/-!
# The passes of the normaliser

Five passes, each a function from trees to trees, and the order in which they run by default.
-/

namespace RatCalc

inductive Pass where
  | negation | leveling | fractions | ordering | folding
deriving DecidableEq

namespace Pass

/-- All passes, in the order of the default pipeline. -/
def all : List Pass := [negation, leveling, fractions, ordering, folding]

/-- The name a pass has in the log. -/
def name : Pass → String
  | negation => "transform_negatives"
  | leveling => "level_operators"
  | fractions => "simplify_rationals"
  | ordering => "to_canonical_order"
  | folding => "unfold_constant"

def ofName? (s : String) : Option Pass := all.find? (·.name == s)

/-- What a pass makes of a tree. -/
def apply {φ : Type} [DecidableEq φ] : Pass → Expr φ → Expr φ
  | negation => Expr.withoutNegation
  | leveling => Expr.leveled
  | fractions => Expr.withFractionsOutside
  | ordering => Expr.ordered
  | folding => Expr.folded

end Pass

end RatCalc
