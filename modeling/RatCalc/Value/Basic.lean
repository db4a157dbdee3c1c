import RatCalc.Error
import RatCalc.Expr.Printer
import RatCalc.Value.Builtin

/-!
# Values

Numbers, the unit, the host's own values, and six kinds of functions: closures, the built-in functions, and those that
the algebra of values makes of others.

* `closure ps e s` — the parameters, the body, and the scope in which the body's other names are looked up;
* `supplied vs f` — `f` with `vs` put before its arguments;
* `composed f g` — `x ↦ f (g x)`;
* `lifted op f g`, `liftedUnary op f` — an operator applied to what the functions return.
-/

namespace RatCalc

/-- Scopes are known by their number. -/
abbrev ScopeId := Nat

inductive Value (φ : Type) where
  | number (value : ExtRat)
  | unit
  | foreign (value : φ)
  | closure (params : List String) (body : Expr φ) (scope : ScopeId)
  | builtin (function : Builtin)
  | supplied (bound : List (Value φ)) (callee : Value φ)
  | composed (outer inner : Value φ)
  | lifted (op : BinaryOp) (lhs rhs : Value φ)
  | liftedUnary (op : UnaryOp) (operand : Value φ)

/-- The side of a binary operator on which a value stands. -/
inductive Side where
  | left | right
deriving DecidableEq

/-- What a host says of its values.  An operation that answers `none` is not overridden. -/
class Foreign (φ : Type) extends ForeignKind φ where
  render : φ → String
  /-- Whether two are one and the same value. -/
  same : φ → φ → Bool
  /-- Arithmetic with the value on the given side and another on the opposite one. -/
  binary : φ → BinaryOp → Value φ → Side → Option (Except EvalError (Value φ)) := fun _ _ _ _ => none
  unary : φ → UnaryOp → Option (Except EvalError (Value φ)) := fun _ _ => none
  /-- The order of the value against another. -/
  compare : φ → Value φ → Option Ordering := fun _ _ => none
  call : φ → List (Value φ) → Option (Except EvalError (Value φ)) := fun _ _ => none
  isTruthy : φ → Bool := fun _ => true

namespace Value

variable {φ : Type}

instance : Inhabited (Value φ) := ⟨.unit⟩

/-- One for true and zero for false. -/
def ofBool (b : Bool) : Value φ := .number (.ofInt (if b then 1 else 0))

def isUnit : Value φ → Bool
  | .unit => true
  | _ => false

def number? : Value φ → Option ExtRat
  | .number r => some r
  | _ => none

/-- Whether the value is a function; a host's value is none, even if it can be called. -/
def isFunction : Value φ → Bool
  | .number _ | .unit | .foreign _ => false
  | _ => true

/-- The kind of a value, as errors name it. -/
def kind [ForeignKind φ] : Value φ → String
  | .number _ => "number"
  | .unit => "unit"
  | .foreign x => ForeignKind.kind x
  | _ => "function"

/-- Numbers hold if they are defined and not zero, functions always, the unit never. -/
def isTruthy [Foreign φ] : Value φ → Bool
  | .number r => !r.isZero && !r.isUndefined
  | .unit => false
  | .foreign x => Foreign.isTruthy x
  | _ => true

/-- Equality of values that are not functions: numbers by form, a host's values by identity. -/
def same [Foreign φ] : Value φ → Value φ → Bool
  | .number a, .number b => a == b
  | .unit, .unit => true
  | .foreign x, .foreign y => Foreign.same x y
  | _, _ => false

/-! ## text -/

/-- The name of a function in errors. -/
def describe? : Value φ → Option String
  | .number _ | .unit | .foreign _ => none
  | .closure ps _ _ => some ("closure(" ++ String.intercalate ", " ps ++ ")")
  | .builtin b => some b.name
  | .supplied bound _ => some ("partial application of " ++ Numeral.text bound.length ++ " argument(s)")
  | .composed _ _ => some "composition"
  | .lifted op _ _ => some ("lifted '" ++ op.symbol ++ "'")
  | .liftedUnary op _ => some ("lifted '" ++ op.symbol ++ "'")

mutual
/-- The text of a value. -/
def render [Foreign φ] : Value φ → String
  | .number r => r.render
  | .unit => "()"
  | .foreign x => Foreign.render x
  | .closure ps e _ => Expr.parenthesized (String.intercalate ", " ps) ++ " -> " ++ e.render
  | .builtin b => "<builtin " ++ b.name ++ ">"
  | .supplied bound f => renderBound bound ++ render f
  | .composed f g => Expr.parenthesized (render f ++ " . " ++ render g)
  | .lifted op f g => Expr.parenthesized (render f ++ " " ++ op.symbol ++ " " ++ render g)
  | .liftedUnary .percent f => Expr.parenthesized (render f ++ "%")
  | .liftedUnary op f => Expr.parenthesized (op.symbol ++ render f)
/-- The bound arguments, each followed by a colon. -/
def renderBound [Foreign φ] : List (Value φ) → String
  | [] => ""
  | v :: vs => render v ++ ":" ++ renderBound vs
end

end Value

end RatCalc
