import RatCalc.Proofs.Session
import RatCalc.Proofs.Eval.Normalizing

/-!
# Fuel and limits

An operation that ends, and is refused no call for its depth, has used neither all its fuel nor all the depth it was
allowed.  More of either changes nothing: not the answer, not the scopes, not the log.

* `Coupling.unlessStopped` — equal runs, unless the first lacks fuel or is refused a call;
* `bounce_follows_bounce` — calls with more fuel and a higher limit follow those with less;
* `Interpreter.perform_of_higher_limit` — and so do operations.
-/

namespace RatCalc

variable {φ α : Type} [Foreign φ]

/-- Runs that are equal, unless the first lacks fuel or is refused a call for its depth. -/
def Coupling.unlessStopped : Coupling φ where
  Linked m m' := m = m'
  Admits _ := True
  Excuses
    | some e => e.IsTooDeep
    | none => True
  store_eq h := by rw [h]
  note _ h := by rw [h]
  withStore _ h := by rw [h]
  admits _ := trivial

open Coupling

variable {cx cx' : Context φ}

/-- A run that was not stopped is the run that follows it. -/
theorem Coupling.Follows.of_unlessStopped {x y : Eval φ α} (h : unlessStopped.Follows x y) {m : Machine φ}
    {o : Outcome φ α} (hx : x m = o) (hended : o ≠ .outOfFuel)
    (hdeep : ∀ d limit m', o ≠ .error (.tooDeep d limit) m') : y m = o := by
  have hxy := @h m m rfl
  rw [hx] at hxy
  generalize y m = o' at hxy
  cases hxy with
  | ok hm => rw [show _ = _ from hm]
  | error hm => rw [show _ = _ from hm]
  | spent => rfl
  | excusedError he =>
    obtain ⟨d, limit, rfl⟩ := EvalError.isTooDeep_iff.1 he
    exact absurd rfl (hdeep d limit _)
  | excusedSpent => exact absurd rfl hended

/-! ## calls -/

theorem enter_follows_of_le (hmax : cx.config.maxDepth ≤ cx'.config.maxDepth)
    {loop loop' : Value φ → List (Value φ) → Eval φ (Value φ)} {callee : Value φ} {args : List (Value φ)}
    (h : unlessStopped.Follows (loop callee args) (loop' callee args)) :
    unlessStopped.Follows (enter cx loop callee args) (enter cx' loop' callee args) := by
  rintro m _ rfl
  rcases Nat.lt_or_ge cx.config.maxDepth (m.depth + 1) with hlt | hle
  · rw [enter_of_lt hlt]
    exact .excusedError trivial
  · rw [enter_of_le hle, enter_of_le (hle.trans hmax)]
    have hx := @h { m with depth := m.depth + 1 } _ rfl
    exact hx.onMachine (fun _ _ h => by cases h; rfl) (fun _ h => h) (fun _ h => h)

variable (hcx : cx.Alike cx') (hmax : cx.config.maxDepth ≤ cx'.config.maxDepth)
include hcx hmax

/-- **Calls with more fuel and a higher limit follow those with less.** -/
theorem bounce_follows_bounce {n n' : Nat} (hn : n ≤ n') (callee : Value φ) (args : List (Value φ)) :
    unlessStopped.Follows (bounce cx n callee args) (bounce cx' n' callee args) := by
  induction n generalizing n' callee args with
  | zero => exact fun _ _ _ => .excusedSpent trivial
  | succ n ih =>
    obtain ⟨k, rfl⟩ : ∃ k, n' = k + 1 := ⟨n' - 1, by omega⟩
    have hloop : ∀ f args, unlessStopped.Follows (bounce cx n f args) (bounce cx' k f args) := ih (by omega)
    have hnested : ∀ f args, unlessStopped.Follows (enter cx (bounce cx n) f args) (enter cx' (bounce cx' k) f args) :=
      fun f args => enter_follows_of_le hmax (hloop f args)
    rw [bounce_succ, bounce_succ]
    exact (follows_callStep hcx hnested callee args).bind (follows_goOn hloop)

theorem callValue_follows_callValue {n n' : Nat} (hn : n ≤ n') (callee : Value φ) (args : List (Value φ)) :
    unlessStopped.Follows (callValue cx n callee args) (callValue cx' n' callee args) :=
  enter_follows_of_le hmax (bounce_follows_bounce hcx hmax hn callee args)

omit hcx hmax

/-! ## operations -/

namespace Interpreter

/-- The interpreter with another limit. -/
def withMaxDepth (i : Interpreter φ) (limit : Nat) : Interpreter φ :=
  { i with context := { i.context with config := { i.context.config with maxDepth := limit } } }

variable [DecidableEq φ]

/-- **A higher limit never changes an answer.**  An operation that ends, and is not refused a call for its depth, ends
under a higher limit with the same value or error and the same machine, however much more fuel there is. -/
theorem perform_of_higher_limit (i : Interpreter φ) {limit limit' n n' : Nat} (hlimit : limit ≤ limit') (hn : n ≤ n')
    {op : Operation φ} {m : Machine φ} {o : Outcome φ (Option (Value φ))}
    (hrun : (i.withMaxDepth limit).perform n op m = o) (hended : o ≠ .outOfFuel)
    (hdeep : ∀ d l m', o ≠ .error (.tooDeep d l) m') : (i.withMaxDepth limit').perform n' op m = o := by
  have hcx : (i.withMaxDepth limit).context.Alike (i.withMaxDepth limit').context := ⟨rfl, rfl⟩
  have hcall : ∀ f args, unlessStopped.Follows (callValue (i.withMaxDepth limit).context n f args)
      (callValue (i.withMaxDepth limit').context n' f args) := callValue_follows_callValue hcx hlimit hn
  have hfollows := follows_perform hcx rfl hcall (fun m m' h => by cases h; rfl) rfl rfl op
  exact hfollows.of_unlessStopped hrun hended hdeep

/-- Twice the absolute value: the inner call is the second of two that are allowed. -/
theorem perform_of_higher_limit_composed :
    let i : Interpreter Empty := { top := 0 }
    let op : Operation Empty := .call (.composed (.builtin .abs) (.builtin .abs)) [.number ⟨-3, 1⟩]
    let o : Outcome Empty (Option (Value Empty)) := .ok (some (.number ⟨3, 1⟩)) { notes := [.tailCall "function" 1] }
    (i.withMaxDepth 2).perform 3 op {} = o ∧ o ≠ .outOfFuel ∧ (∀ d l m', o ≠ .error (.tooDeep d l) m') ∧
      (i.withMaxDepth 48).perform 5 op {} = o := by
  intro i op o
  have hrun : (i.withMaxDepth 2).perform 3 op {} = o := rfl
  have hended : o ≠ .outOfFuel := nofun
  have hdeep : ∀ d l m', o ≠ .error (.tooDeep d l) m' := nofun
  exact ⟨hrun, hended, hdeep, perform_of_higher_limit i (by decide) (by decide) hrun hended hdeep⟩

end Interpreter

end RatCalc
