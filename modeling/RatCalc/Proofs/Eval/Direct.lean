import RatCalc.Proofs.Eval.Coupling

/-!
# Direct evaluation

A second evaluator that performs every call at once, in tail position too: it hands no call back, takes no steps, and
counts nothing.  The evaluator with steps refines it.

* `Direct.perform`, `Direct.call` — a call by plain recursion; the fuel bounds the nesting;
* `evalTail_bind_make`, `callStep_bind_make` — a tail call that is handed back and then made is a direct call;
* `bounce_follows_direct` — with the same fuel, the steps of a call end as the direct call does;
* `callValue_refines_direct` — so do evaluations, unless a call is refused for its depth.
-/

set_option linter.unusedSectionVars false

namespace RatCalc

variable {φ α : Type}

/-! ## sequencing -/

namespace Eval

theorem id_map (x : Eval φ α) : id <$> x = x := by
  funext m
  show Eval.bind x (fun a => Eval.pure (id a)) m = x m
  rw [Eval.bind]
  cases x m <;> rfl

theorem bind_assoc {β γ : Type} (x : Eval φ α) (f : α → Eval φ β) (g : β → Eval φ γ) :
    x >>= f >>= g = x >>= fun a => f a >>= g := by
  funext m
  show Eval.bind (Eval.bind x f) g m = Eval.bind x (fun a => Eval.bind (f a) g) m
  unfold Eval.bind
  cases x m <;> rfl

instance : LawfulMonad (Eval φ) := LawfulMonad.mk' _ id_map (fun _ _ => rfl) bind_assoc

end Eval

variable [Foreign φ] (cx : Context φ)

/-! ## the direct evaluator -/

namespace Direct

/-- A call whose body, and whatever it ends in, is evaluated at once; calls in it are made by `call`. -/
def perform (call : Value φ → List (Value φ) → Eval φ (Value φ)) (callee : Value φ) (args : List (Value φ)) :
    Eval φ (Value φ) :=
  match callee with
  | .unit => return .unit
  | .number _ => Eval.fail (.notCallable callee.kind args.length)
  | .foreign x =>
    match Foreign.call x args with
    | some result => Eval.ofExcept result
    | none => Eval.fail (.notCallable callee.kind args.length)
  | .closure params body scope =>
    if params.length ≠ args.length then
      Eval.fail (.wrongArgumentCount (callee.describe?.getD "") params.length args.length)
    else do
      let inner ← Eval.pushScope fun _ => { bindings := frame params args, parent := some scope }
      eval cx call inner body
  | .builtin b => b.run call args
  | .supplied bound f => call f (bound ++ args)
  | .composed outer inner => do
    let v ← call inner args
    call outer [v]
  | .lifted op f g => do
    let left ← pointwise call f args
    let right ← pointwise call g args
    Eval.ofExcept (left.binary op right)
  | .liftedUnary op f => do
    let v ← pointwise call f args
    Eval.ofExcept (v.unary op)

/-- A call by recursion. -/
def call : Nat → Value φ → List (Value φ) → Eval φ (Value φ)
  | 0 => fun _ _ => Eval.exhausted
  | n + 1 => perform cx (call n)

end Direct

/-! ## tail calls that are made at once -/

section Make

variable {cx} (call : Value φ → List (Value φ) → Eval φ (Value φ))

/-- Make the call that a step hands back, if it does. -/
def Step.make : Step φ → Eval φ (Value φ)
  | .done v => return v
  | .tail callee args => call callee args

mutual
theorem evalTail_bind_make (scope : ScopeId) :
    ∀ e : Expr φ, evalTail cx call scope e >>= Step.make call = eval cx call scope e
  | .apply f as => by simp [evalTail, eval, Step.make]
  | .choice bs => by
    rw [evalTail, eval]
    exact evalTailChoice_bind_make scope bs.length bs
  | .block es => by
    rw [evalTail, eval]
    exact evalTailBlock_bind_make scope es
  | .num _ | .var _ | .assign _ _ _ | .lambda _ _ | .supply _ _ | .unary _ _ _ | .binary _ _ _ | .chain _ _ | .unit
  | .foreign _ => by simp [evalTail, Step.make]
theorem evalTailBlock_bind_make (scope : ScopeId) :
    ∀ es : List (Expr φ), evalTailBlock cx call scope es >>= Step.make call = evalBlock cx call scope es
  | [] => by simp [evalTailBlock, evalBlock, Step.make]
  | [e] => by
    rw [evalTailBlock, evalBlock]
    exact evalTail_bind_make scope e
  | e :: e' :: es => by
    have ih := evalTailBlock_bind_make scope (e' :: es)
    show (eval cx call scope e >>= fun _ => evalTailBlock cx call scope (e' :: es)) >>= Step.make call =
      eval cx call scope e >>= fun _ => evalBlock cx call scope (e' :: es)
    rw [bind_assoc, ih]
theorem evalTailChoice_bind_make (scope : ScopeId) (n : Nat) :
    ∀ bs : List (Branch (Expr φ)), evalTailChoice cx call scope n bs >>= Step.make call = evalChoice cx call scope n bs
  | [] => by
    rw [evalTailChoice, evalChoice]
    rfl
  | .otherwise a :: _ => by
    rw [evalTailChoice, evalChoice]
    exact evalTail_bind_make scope a
  | .when g a :: bs => by
    rw [evalTailChoice, evalChoice, bind_assoc]
    congr 1
    funext v
    split
    · exact evalTail_bind_make scope a
    · exact evalTailChoice_bind_make scope n bs
end

/-- **A step followed by the call it hands back is a direct call.** -/
theorem callStep_bind_make (callee : Value φ) (args : List (Value φ)) :
    callStep cx call callee args >>= Step.make call = Direct.perform cx call callee args := by
  cases callee with
  | unit => rfl
  | number _ => rfl
  | foreign x =>
    unfold callStep Direct.perform
    dsimp only
    cases Foreign.call x args with
    | none => rfl
    | some result => simp [Step.make]
  | closure params body scope =>
    unfold callStep Direct.perform
    dsimp only
    split
    · rfl
    · rw [bind_assoc]
      congr 1
      funext inner
      exact evalTail_bind_make call inner body
  | _ => simp [callStep, Direct.perform, Step.make]

end Make

/-! ## the loop and the direct call -/

/-- Machines with the same scopes.  A refusal for depth excuses the first run, which alone counts. -/
def Coupling.sameStore : Coupling φ where
  Linked m m' := m.store = m'.store
  Admits _ := True
  Excuses
    | some e => e.IsTooDeep
    | none => False
  store_eq h := h
  note _ h := h
  withStore _ _ := rfl
  admits _ := trivial

open Coupling

variable {cx}

theorem enter_follows {x : Eval φ (Value φ)} {loop : Value φ → List (Value φ) → Eval φ (Value φ)} {callee : Value φ}
    {args : List (Value φ)} (h : sameStore.Follows (loop callee args) x) :
    sameStore.Follows (enter cx loop callee args) x := by
  intro m m' hm
  rcases Nat.lt_or_ge cx.config.maxDepth (m.depth + 1) with hlt | hle
  · rw [enter_of_lt hlt]
    exact .excusedError trivial
  · rw [enter_of_le hle, ← Outcome.onMachine_id (x m')]
    have hx := @h { m with depth := m.depth + 1 } m' hm
    exact hx.onMachine (fun _ _ h => h) (fun _ h => h) (fun _ h => h)

/-- **The steps of a call end as the direct call does**, with the same fuel, unless a call is refused for its depth. -/
theorem bounce_follows_direct (n : Nat) (callee : Value φ) (args : List (Value φ)) :
    sameStore.Follows (bounce cx n callee args) (Direct.call cx n callee args) := by
  -- the steps of a loop and the nesting of direct calls spend the same fuel, so one induction serves both
  induction n generalizing callee args with
  | zero => exact fun _ _ _ => .spent
  | succ n ih =>
    have hnested : ∀ f args, sameStore.Follows (enter cx (bounce cx n) f args) (Direct.call cx n f args) :=
      fun f args => enter_follows (ih f args)
    rw [bounce_succ, Direct.call, ← callStep_bind_make]
    refine (follows_callStep (.refl cx) hnested callee args).bind ?_
    intro step
    cases step with
    | done v => exact follows_pure v
    | tail next nextArgs =>
      -- only the loop makes a note of it
      exact fun m m' h => @ih next nextArgs (m.note _) m' h

/-! ## refinement -/

/-- The value or error of a run that has ended, and the scopes it leaves. -/
def Outcome.result? : Outcome φ α → Option (Except EvalError α × Store φ)
  | .ok v m => some (.ok v, m.store)
  | .error e m => some (.error e, m.store)
  | .outOfFuel => none

/-- Started alike, `x` ends as `y` does, with the same result and scopes, or is refused a call for its depth. -/
def Refines (m : Machine φ) (x y : Eval φ α) : Prop :=
  (∀ r s, (x m).result? = some (r, s) → (∀ d limit, r ≠ .error (.tooDeep d limit)) → (y m).result? = some (r, s)) ∧
    ∀ r s, (y m).result? = some (r, s) →
      (x m).result? = some (r, s) ∨ ∃ d limit s', (x m).result? = some (.error (.tooDeep d limit), s')

theorem Coupling.Follows.refines {x y : Eval φ α} (h : sameStore.Follows x y) (m : Machine φ) : Refines m x y := by
  have hm := @h m m rfl
  unfold Refines
  generalize x m = o at hm
  generalize y m = o' at hm
  cases hm with
  | @ok a m₁ m₂ hs =>
    have hs : m₁.store = m₂.store := hs
    simp [Outcome.result?, hs]
  | @error e m₁ m₂ hs =>
    have hs : m₁.store = m₂.store := hs
    simp [Outcome.result?, hs]
  | spent => simp [Outcome.result?]
  | excusedError he =>
    obtain ⟨d, limit, rfl⟩ := EvalError.isTooDeep_iff.1 he
    simp [Outcome.result?]
  | excusedSpent he => exact he.elim

/-- **The evaluator with steps refines direct evaluation.**  Trees, trees in tail position whose call is then made, and
calls end with the value or error of direct evaluation, and leave the same scopes; if direct evaluation ends, so do
they; the one exception is a call that is refused for its depth.  Both spend the same fuel. -/
theorem callValue_refines_direct (cx : Context φ) (n : Nat) (m : Machine φ) :
    (∀ scope e, Refines m (eval cx (callValue cx n) scope e) (eval cx (Direct.call cx n) scope e)) ∧
      (∀ scope e, Refines m (evalTail cx (callValue cx n) scope e >>= Step.make (callValue cx n))
        (eval cx (Direct.call cx n) scope e)) ∧
      ∀ callee args, Refines m (callValue cx n callee args) (Direct.call cx n callee args) := by
  have hcall : ∀ f args, sameStore.Follows (callValue cx n f args) (Direct.call cx n f args) :=
    fun f args => enter_follows (bounce_follows_direct n f args)
  refine ⟨?_, ?_, ?_⟩
  · intro scope e
    exact (follows_eval (.refl cx) hcall scope e).refines m
  · intro scope e
    rw [evalTail_bind_make]
    exact (follows_eval (.refl cx) hcall scope e).refines m
  · intro callee args
    exact (hcall callee args).refines m

end RatCalc
