import RatCalc.Eval.Call

/-!
# Sessions

An interpreter has settings, the host's definitions, and a top scope that keeps its bindings from one expression to the
next.  Several interpreters may share a machine: a function made by one can be called from another.
-/

namespace RatCalc

/-- Settings and definitions, and the scope in which top-level expressions run. -/
structure Interpreter (φ : Type) where
  context : Context φ := {}
  top : ScopeId

namespace Interpreter

variable {φ : Type}

/-- A new interpreter, with an empty top scope. -/
def create (context : Context φ) : Eval φ (Interpreter φ) := do return ⟨context, ← Eval.pushScope fun _ => {}⟩

/-- The value of a name at the top, apart from the host's definitions and the standard table. -/
def binding? (i : Interpreter φ) (name : String) : Eval φ (Option (Value φ)) := Eval.get? i.top name

/-- Bind a name at the top. -/
def define (i : Interpreter φ) (name : String) (v : Value φ) : Eval φ Unit := Eval.define i.top name v

variable [Foreign φ]

/-- Evaluate a tree as it is. -/
def evaluate (i : Interpreter φ) (fuel : Nat) (e : Expr φ) : Eval φ (Value φ) := fun m =>
  eval i.context (callValue i.context fuel) i.top e { m.note (.evaluating e) with depth := 0 }

/-- The pipeline that expressions go through before they run. -/
def pipeline (i : Interpreter φ) : Pipeline := ({} : Pipeline).withMaxRounds i.context.config.maxRounds

/-- Run an expression: refuse it if a literal is malformed, normalise it unless that is turned off, evaluate it. -/
def run [DecidableEq φ] (i : Interpreter φ) (fuel : Nat) (e : Expr φ) : Eval φ (Value φ) :=
  match e.firstFault? with
  | some (text, fault) => Eval.fail (.malformedLiteral text fault)
  | none =>
    if i.context.config.normalizes then do
      Eval.noteAll (i.pipeline.normalizeEvents e)
      i.evaluate fuel (i.pipeline.normalize e)
    else i.evaluate fuel e

/-- Call a value. -/
def call (i : Interpreter φ) (fuel : Nat) (callee : Value φ) (args : List (Value φ)) : Eval φ (Value φ) :=
  callValue i.context fuel callee args

/-- The limit of a function at a point. -/
def limit (i : Interpreter φ) (fuel : Nat) (f : Value φ) (point : ExtRat) (side : Approach) : Eval φ (Value φ) :=
  Limit.limit (i.call fuel) f point side

end Interpreter

end RatCalc
