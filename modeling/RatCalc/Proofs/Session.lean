import RatCalc.Session
import RatCalc.Proofs.Eval.Coupling

/-!
# Operations and sessions

What a host can ask of an interpreter, one operation after the other.

* `Operation`, `Interpreter.perform` — the operations, and how they end;
* `Interpreter.Session` — the machines in which an interpreter can be found between operations;
* `follows_perform` — operations follow each other if their calls do.
-/

namespace RatCalc

variable {φ α : Type}

/-- The machine of a run that has ended. -/
def Outcome.machine? : Outcome φ α → Option (Machine φ)
  | .ok _ m => some m
  | .error _ m => some m
  | .outOfFuel => none

/-- What a host asks of an interpreter. -/
inductive Operation (φ : Type) where
  | run (e : Expr φ)
  | evaluate (e : Expr φ)
  | call (callee : Value φ) (args : List (Value φ))
  | limit (f : Value φ) (point : ExtRat) (side : Approach)
  | define (name : String) (v : Value φ)
  | binding (name : String)

namespace Interpreter

variable [Foreign φ] [DecidableEq φ]

/-- Perform an operation; its answer is a value, or none for a definition and for a name without one. -/
def perform (i : Interpreter φ) (fuel : Nat) : Operation φ → Eval φ (Option (Value φ))
  | .run e => do return some (← i.run fuel e)
  | .evaluate e => do return some (← i.evaluate fuel e)
  | .call callee args => do return some (← i.call fuel callee args)
  | .limit f point side => do return some (← i.limit fuel f point side)
  | .define name v => do
    i.define name v
    return none
  | .binding name => i.binding? name

/-- The machines that an interpreter finds between operations.  It is created while no call is under way; an operation
that has ended, with a value or with an error, leaves its machine to the next. -/
inductive Session (i : Interpreter φ) : Machine φ → Prop
  | created {cx : Context φ} {m m' : Machine φ} (hdepth : m.depth = 0) (h : create cx m = .ok i m') : Session i m'
  | performed {m m' : Machine φ} {fuel : Nat} {op : Operation φ} (hm : Session i m)
      (h : (i.perform fuel op m).machine? = some m') : Session i m'

end Interpreter

/-! ## operations that follow each other -/

namespace Coupling

variable [Foreign φ] {c : Coupling φ} {i i' : Interpreter φ} {n n' : Nat}

theorem follows_noteAll (events : List (Event φ)) : c.Follows (Eval.noteAll events) (Eval.noteAll events) := by
  have hnotes : ∀ m m' : Machine φ, c.Linked m m' → c.Linked (m.noteAll events) (m'.noteAll events) := by
    induction events with
    | nil => exact fun m m' h => h
    | cons event events ih =>
      intro m m' h
      have hm := ih (m.note event) (m'.note event) (c.note event h)
      simpa [Machine.noteAll, Machine.note] using hm
  exact fun m m' h => .ok (hnotes m m' h)

section

variable (hcx : i.context.Alike i'.context) (htop : i.top = i'.top)
  (hcall : ∀ f args, c.Follows (callValue i.context n f args) (callValue i'.context n' f args))
  (hentry : ∀ ⦃m m'⦄, c.Linked m m' → c.Linked { m with depth := 0 } { m' with depth := 0 })
include hcx htop hcall hentry

theorem follows_evaluate (e : Expr φ) : c.Follows (i.evaluate n e) (i'.evaluate n' e) := by
  intro m m' h
  unfold Interpreter.evaluate
  rw [htop]
  exact follows_eval hcx hcall i'.top e (hentry (c.note (.evaluating e) h))

/-- **Operations follow each other if their calls do.** -/
theorem follows_perform [DecidableEq φ] (hnormalizes : i.context.config.normalizes = i'.context.config.normalizes)
    (hrounds : i.context.config.maxRounds = i'.context.config.maxRounds) (op : Operation φ) :
    c.Follows (i.perform n op) (i'.perform n' op) := by
  cases op with
  | run e =>
    refine Follows.bind ?_ fun _ => follows_pure _
    have hpipeline : i.pipeline = i'.pipeline := by rw [Interpreter.pipeline, Interpreter.pipeline, hrounds]
    unfold Interpreter.run
    rw [hpipeline, hnormalizes]
    cases e.firstFault? with
    | some fault => exact follows_fail (.inl id)
    | none =>
      refine Follows.ite ?_ (follows_evaluate hcx htop hcall hentry e)
      exact (follows_noteAll _).bind fun _ => follows_evaluate hcx htop hcall hentry _
  | evaluate e => exact (follows_evaluate hcx htop hcall hentry e).bind fun _ => follows_pure _
  | call f args => exact (hcall f args).bind fun _ => follows_pure _
  | limit f point side => exact (follows_limit hcall f point side).bind fun _ => follows_pure _
  | define name v =>
    show c.Follows (Eval.define i.top name v >>= fun _ => pure none) (Eval.define i'.top name v >>= fun _ => pure none)
    rw [htop]
    exact (follows_define i'.top name v).bind fun _ => follows_pure _
  | binding name =>
    show c.Follows (Eval.get? i.top name) (Eval.get? i'.top name)
    rw [htop]
    exact follows_get? i'.top name

end

end Coupling

end RatCalc
