import RatCalc.Normal.Traversal

/-!
# Divisions above products

| tree                | becomes                 |
|---------------------|-------------------------|
| `(p / q) * (r / s)` | `(p * r) / (q * s)`     |
| `(p / q) / (r / s)` | `(p * s) / (q * r)`     |
| `a * (r / s) * b`   | `(a * r * b) / s`       |

A factor that is no division counts as its own numerator and brings no denominator.  The children of a node have been
through the pass before it, so their numerators and denominators are no divisions, and one step at the node suffices.
-/

namespace RatCalc.Expr

variable {φ : Type}

/-- The numerator of a division; other trees are their own. -/
def numerator : Expr φ → Expr φ
  | .binary .div p _ => p
  | e => e

/-- The denominator of a division. -/
def denominator? : Expr φ → Option (Expr φ)
  | .binary .div _ q => some q
  | _ => none

def isDivision (e : Expr φ) : Bool := e.denominator?.isSome

/-- The product of two trees either of which may be a division. -/
def mulFractions (a b : Expr φ) : Expr φ :=
  match a.denominator?, b.denominator? with
  | none, none => mul a b
  | none, some s => div (mul a b.numerator) s
  | some q, none => div (mul a.numerator b) q
  | some q, some s => div (mul a.numerator b.numerator) (mul q s)

/-- The quotient of two trees either of which may be a division. -/
def divFractions (a b : Expr φ) : Expr φ :=
  match a.denominator?, b.denominator? with
  | none, none => div a b
  | none, some s => div (mul a s) b.numerator
  | some q, none => div a.numerator (mul q b)
  | some q, some s => div (mul a.numerator s) (mul q b.numerator)

/-- A product of any length, with its divisions collected into one. -/
def collectFractions (es : List (Expr φ)) : Expr φ :=
  if es.any isDivision then div (.chain .mul (es.map numerator)) (productOf (es.filterMap denominator?))
  else .chain .mul es

/-- The rule of the pass. -/
def fractionRule : Expr φ → Expr φ
  | .binary .mul a b => mulFractions a b
  | .binary .div a b => divFractions a b
  | .chain .mul es => collectFractions es
  | e => e

/-- Divisions moved out of products and out of one another. -/
def withFractionsOutside (e : Expr φ) : Expr φ := bottomUp fractionRule e

end RatCalc.Expr
