import RatCalc.Value.Basic

/-!
# The algebra of values

Which rule an operator follows is decided by the first that fits:

1. the unit on either side gives the unit;
2. two numbers follow the arithmetic of numbers;
3. a host's value, the left one first, may override;
4. everything else is lifted: `f + g` is the function `x ↦ f x + g x`.

Comparisons give one or zero and need an order; composition and the logical operators work on all values.
-/

namespace RatCalc.Value

variable {φ : Type} [Foreign φ]

/-- An arithmetic operator on two values. -/
def arithmetic (op : BinaryOp) (a b : Value φ) : Except EvalError (Value φ) :=
  match a, b with
  | .unit, _ | _, .unit => .ok .unit
  | .number x, .number y => .ok (.number (op.onNumbers x y))
  | .foreign x, _ => (Foreign.binary x op b .left).getD (.ok (.lifted op a b))
  | _, .foreign y => (Foreign.binary y op a .right).getD (.ok (.lifted op a b))
  | _, _ => .ok (.lifted op a b)

/-- `x ↦ outer (inner x)`, or the unit if either is. -/
def compose (outer inner : Value φ) : Value φ :=
  if outer.isUnit || inner.isUnit then .unit else .composed outer inner

/-- Whether a comparison holds under an order; without one only `!=` does. -/
def holds : BinaryOp → Option Ordering → Bool
  | .ne, none => true
  | _, none => false
  | .eq, some o => o == .eq
  | .ne, some o => o != .eq
  | .lt, some o => o == .lt
  | .le, some o => o != .gt
  | .gt, some o => o == .gt
  | .ge, some o => o != .lt
  | _, some _ => false

/-- A comparison of two values.  The undefined number has no order to any other, but comparing it is no error. -/
def compare (op : BinaryOp) (a b : Value φ) : Except EvalError (Value φ) :=
  match a, b with
  | .unit, _ | _, .unit => .ok .unit
  | .number x, .number y => .ok (ofBool (holds op (x.cmp? y)))
  | .foreign x, _ => decided (Foreign.compare x b)
  | _, .foreign y => decided ((Foreign.compare y a).map Ordering.swap)
  | _, _ => decided none
where
  /-- The answer under an order that must exist. -/
  decided : Option Ordering → Except EvalError (Value φ)
    | some o => .ok (ofBool (holds op (some o)))
    | none => .error (.notOrdered op a.kind b.kind)

/-- Whether a logical operator takes its left operand; every operator but `and` is treated as `or`. -/
def takesLeft (op : BinaryOp) (a : Value φ) : Bool :=
  match op with
  | .and => !a.isTruthy
  | _ => a.isTruthy

/-- `a and b` is `a` if that is false, else `b`; `or` is the other way round. -/
def logical (op : BinaryOp) (a b : Value φ) : Value φ := if takesLeft op a then a else b

/-- A binary operator on two values. -/
def binary (op : BinaryOp) (a b : Value φ) : Except EvalError (Value φ) :=
  match op with
  | .compose => .ok (compose a b)
  | .and | .or => .ok (logical op a b)
  | .eq | .ne | .lt | .le | .gt | .ge => compare op a b
  | .add | .sub | .mul | .div | .mod | .pow => arithmetic op a b

/-- A unary operator on a value. -/
def unary (op : UnaryOp) (a : Value φ) : Except EvalError (Value φ) :=
  match a with
  | .unit => .ok .unit
  | .number x => .ok (.number (op.onNumber x))
  | .foreign x => (Foreign.unary x op).getD (.ok (.liftedUnary op a))
  | _ => .ok (.liftedUnary op a)

end RatCalc.Value
