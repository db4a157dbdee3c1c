import RatCalc.Normal.Traversal

/-!
# Negation, percent and difference as sums and products

| tree    | becomes          |
|---------|------------------|
| `+x`    | `x`              |
| `-x`    | `-1 * x`         |
| `x%`    | `x * 0.01`       |
| `a - b` | `a + (-1 * b)`   |

A sign written after its operand and a percent written before it are left alone.
-/

namespace RatCalc.Expr

variable {φ : Type}

/-- The product with minus one. -/
def negated (e : Expr φ) : Expr φ := mul (.num "-1") e

/-- The rule of the pass. -/
def positiveRule : Expr φ → Expr φ
  | .unary .plus .before e => e
  | .unary .minus .before e => negated e
  | .unary .percent .after e => mul e (.num "0.01")
  | .binary .sub a b => .binary .add a (negated b)
  | e => e

/-- Signs, percents and differences turned into sums and products. -/
def withoutNegation (e : Expr φ) : Expr φ := bottomUp positiveRule e

end RatCalc.Expr
