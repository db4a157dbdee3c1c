import RatCalc.Eval.Limit
import RatCalc.Value.Algebra

/-!
# The standard table

The names that are bound from the start, and what the built-in functions do.  A unit among the arguments of a numeric
function makes the result the unit.
-/

namespace RatCalc

variable {φ : Type}

/-- Constants of the standard table. -/
def constants : List (String × Value φ) :=
  [("pi", .number .pi), ("e", .number .euler), ("tau", .number .tau), ("Infinity", .number .infinity),
   ("Undefined", .number .undefined), ("unit", .unit)]

/-- The value of a name in the standard table. -/
def standard? (name : String) : Option (Value φ) :=
  (constants.lookup name).or ((Builtin.ofName? name).map .builtin)

namespace Builtin

variable [Foreign φ]

/-- A numeric argument: a number, or `none` for the unit. -/
def numeric (b : Builtin) : Value φ → Except EvalError (Option ExtRat)
  | .number r => .ok (some r)
  | .unit => .ok none
  | v => .error (.invalidArgument b.name ("expected a number, got " ++ v.kind))

/-- A function of numbers on a value. -/
def mapNumber (b : Builtin) (f : ExtRat → ExtRat) (v : Value φ) : Except EvalError (Value φ) := do
  match ← b.numeric v with
  | some r => return .number (f r)
  | none => return .unit

/-- The degree that a number is, if it is a positive integer of 32 bits. -/
def degree? (r : ExtRat) : Option Nat :=
  if r.isInteger && 0 < r.num && r.num < Decimal.countLimit then some r.num.toNat else none

/-- The root of `v` of the degree `n`, which is looked at first. -/
def rootOf (v n : Value φ) : Except EvalError (Value φ) := do
  match ← root.numeric n with
  | none => return .unit
  | some r =>
    match degree? r with
    | some degree => root.mapNumber (·.nthRoot degree) v
    | none => throw (.invalidArgument root.name "degree must be a positive integer")

/-- The extremum of the numbers so far and those to come; `keep` is the order in which a new one wins. -/
def extremum (b : Builtin) (keep : Ordering) (best : Option ExtRat) : List (Value φ) → Except EvalError (Value φ)
  | [] => .ok (match best with | some r => .number r | none => .unit)
  | v :: vs => do
    match ← b.numeric v with
    | none => return .unit
    | some r =>
      match best with
      | none => extremum b keep (some r) vs
      | some current =>
        match r.cmp? current with
        | none => return .number .undefined
        | some o => extremum b keep (some (if o = keep then r else current)) vs

variable (call : Value φ → List (Value φ) → Eval φ (Value φ))

/-- Call a built-in function; calls that it makes itself go through `call`. -/
def run (b : Builtin) (args : List (Value φ)) : Eval φ (Value φ) :=
  match b, args with
  | .min, _ :: _ => Eval.ofExcept (extremum .min .lt none args)
  | .max, _ :: _ => Eval.ofExcept (extremum .max .gt none args)
  | .root, [v, n] => Eval.ofExcept (rootOf v n)
  | .compose, [f, g] => return Value.compose f g
  | .limit side, [f, v] => do
    match ← Eval.ofExcept (b.numeric v) with
    | some point => Limit.limit call f point side
    | none => return .unit
  | b, [v] =>
    match b.onNumber? with
    | some f => Eval.ofExcept (b.mapNumber f v)
    | none => Eval.fail (.wrongArgumentCount b.name b.arity.minimum 1)
  | b, args => Eval.fail (.wrongArgumentCount b.name b.arity.minimum args.length)

end Builtin

end RatCalc
