import RatCalc.Expr.Order
import RatCalc.Normal.Traversal

/-!
# Chains in canonical order
-/

namespace RatCalc.Expr

variable {φ : Type}

/-- The rule of the pass. -/
def orderRule : Expr φ → Expr φ
  | .chain op es => .chain op (sort es)
  | e => e

/-- The operands of every chain sorted. -/
def ordered (e : Expr φ) : Expr φ := bottomUp orderRule e

end RatCalc.Expr
