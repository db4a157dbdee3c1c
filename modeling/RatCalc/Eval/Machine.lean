import RatCalc.Eval.Config
import RatCalc.Scope

/-!
# The state of an evaluation

An evaluation works on a machine: the scopes, the number of nested calls, and the log.  It ends with a value, with an
error, or because its fuel is spent; the machine is known in the first two cases.
-/

namespace RatCalc

structure Machine (φ : Type) where
  store : Store φ := {}
  /-- Calls that have begun and not ended, those in tail position not counted. -/
  depth : Nat := 0
  /-- The notes so far, the latest first. -/
  notes : List (Event φ) := []

namespace Machine

variable {φ : Type}

def note (m : Machine φ) (event : Event φ) : Machine φ := { m with notes := event :: m.notes }

def noteAll (m : Machine φ) (events : List (Event φ)) : Machine φ := { m with notes := events.reverse ++ m.notes }

/-- The log in the order it was written, as far as a reader asked for it. -/
def log (m : Machine φ) (asked : Level) : List (Event φ) := (m.notes.filter (·.level.shownAt asked)).reverse

end Machine

/-- How an evaluation ends. -/
inductive Outcome (φ α : Type) where
  | ok (value : α) (machine : Machine φ)
  | error (error : EvalError) (machine : Machine φ)
  | outOfFuel

/-- An evaluation of an `α`. -/
def Eval (φ α : Type) : Type := Machine φ → Outcome φ α

namespace Eval

variable {φ α β : Type}

@[always_inline, inline]
protected def pure (a : α) : Eval φ α := fun m => .ok a m

@[always_inline, inline]
protected def bind (x : Eval φ α) (f : α → Eval φ β) : Eval φ β := fun m =>
  match x m with
  | .ok a m => f a m
  | .error e m => .error e m
  | .outOfFuel => .outOfFuel

@[always_inline]
instance : Monad (Eval φ) where
  pure := Eval.pure
  bind := Eval.bind

/-- End with an error. -/
def fail (e : EvalError) : Eval φ α := fun m => .error e m

/-- Give up. -/
def exhausted : Eval φ α := fun _ => .outOfFuel

/-- Go on with the result of an operation on values. -/
def ofExcept : Except EvalError α → Eval φ α
  | .ok a => pure a
  | .error e => fail e

/-- Write to the log. -/
def note (event : Event φ) : Eval φ Unit := fun m => .ok () (m.note event)

def noteAll (events : List (Event φ)) : Eval φ Unit := fun m => .ok () (m.noteAll events)

/-- The visible binding of a name. -/
def get? (scope : ScopeId) (name : String) : Eval φ (Option (Value φ)) := fun m => .ok (m.store.get? scope name) m

/-- Bind a name in a scope. -/
def define (scope : ScopeId) (name : String) (v : Value φ) : Eval φ Unit := fun m =>
  .ok () { m with store := m.store.define scope name v }

/-- Make a scope. -/
def pushScope (make : Store φ → Scope φ) : Eval φ ScopeId := fun m =>
  .ok m.store.next { m with store := m.store.push (make m.store) }

end Eval

end RatCalc
