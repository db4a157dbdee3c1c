import RatCalc.Eval.Expr

/-!
# Calls

A call takes steps: each step ends with a value or with the call that comes in its place.  The loop over the steps is
the only recursion that fuel bounds; one unit is spent on each step, and calls nested in a step get what is left.

* `callStep` — one step;
* `bounce` — steps until a value comes out;
* `enter` — a nested call: counted while it lasts, refused if there are too many;
* `callValue` — a call from outside, at a given amount of fuel.
-/

namespace RatCalc

variable {φ : Type} [Foreign φ] (cx : Context φ)

/-- The bindings of a call's scope: parameters to arguments, a repeated parameter to its last argument. -/
def frame (params : List String) (args : List (Value φ)) : Bindings φ := Bindings.insertAll (params.zip args) []

section Step

variable (call : Value φ → List (Value φ) → Eval φ (Value φ))

/-- An operand of a lifted operator: the result of a function, and everything else as a constant. -/
def pointwise (v : Value φ) (args : List (Value φ)) : Eval φ (Value φ) :=
  if v.isFunction then call v args else return v

/-- One step of a call. -/
def callStep (callee : Value φ) (args : List (Value φ)) : Eval φ (Step φ) :=
  match callee with
  | .unit => return .done .unit
  | .number _ => Eval.fail (.notCallable callee.kind args.length)
  | .foreign x =>
    match Foreign.call x args with
    | some result => do return .done (← Eval.ofExcept result)
    | none => Eval.fail (.notCallable callee.kind args.length)
  | .closure params body scope =>
    if params.length ≠ args.length then
      Eval.fail (.wrongArgumentCount (callee.describe?.getD "") params.length args.length)
    else do
      let inner ← Eval.pushScope fun _ => { bindings := frame params args, parent := some scope }
      evalTail cx call inner body
  | .builtin b => do return .done (← b.run call args)
  | .supplied bound f => return .tail f (bound ++ args)
  | .composed outer inner => do
    let v ← call inner args
    return .tail outer [v]
  | .lifted op f g => do
    let left ← pointwise call f args
    let right ← pointwise call g args
    return .done (← Eval.ofExcept (left.binary op right))
  | .liftedUnary op f => do
    let v ← pointwise call f args
    return .done (← Eval.ofExcept (v.unary op))

end Step

/-- A call nested in the present one, performed by `loop`. -/
def enter (loop : Value φ → List (Value φ) → Eval φ (Value φ)) (callee : Value φ) (args : List (Value φ)) :
    Eval φ (Value φ) := fun m =>
  let depth := m.depth + 1
  if cx.config.maxDepth < depth then
    .error (.tooDeep depth cx.config.maxDepth) (m.note (.tooDeep depth cx.config.maxDepth))
  else
    match loop callee args { m with depth := depth } with
    | .ok v m => .ok v { m with depth := depth - 1 }
    | .error e m => .error e { m with depth := depth - 1 }
    | .outOfFuel => .outOfFuel

/-- The steps of a call until there is a value. -/
def bounce (fuel : Nat) (callee : Value φ) (args : List (Value φ)) (m : Machine φ) : Outcome φ (Value φ) :=
  match fuel with
  | 0 => .outOfFuel
  | fuel + 1 =>
    match callStep cx (enter cx (bounce fuel)) callee args m with
    | .ok (.done v) m => .ok v m
    | .ok (.tail next nextArgs) m => bounce fuel next nextArgs (m.note (.tailCall next.kind nextArgs.length))
    | .error e m => .error e m
    | .outOfFuel => .outOfFuel

/-- Call a value. -/
def callValue (fuel : Nat) (callee : Value φ) (args : List (Value φ)) : Eval φ (Value φ) :=
  enter cx (bounce cx fuel) callee args

end RatCalc
