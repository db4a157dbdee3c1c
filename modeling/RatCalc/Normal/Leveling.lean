import RatCalc.Normal.Traversal

/-!
# Sums and products as chains

`(a + b) + (c + d)` becomes the one chain of `a`, `b`, `c`, `d`.  A chain of the other operator stays one operand.
-/

namespace RatCalc.Expr

variable {φ : Type}

/-- The operands that a tree brings to a chain of `op`: its own, if it is one, and else itself. -/
def splice (op : ChainOp) : Expr φ → List (Expr φ)
  | .chain op' es => if op' = op then es else [.chain op' es]
  | e => [e]

/-- The rule of the pass. -/
def levelRule : Expr φ → Expr φ
  | .binary o a b =>
    match ChainOp.ofBinary? o with
    | some op => .chain op (splice op a ++ splice op b)
    | none => .binary o a b
  | .chain op es => .chain op (es.flatMap (splice op))
  | e => e

/-- All sums and products turned into chains, nested ones of one operator into one. -/
def leveled (e : Expr φ) : Expr φ := bottomUp levelRule e

end RatCalc.Expr
