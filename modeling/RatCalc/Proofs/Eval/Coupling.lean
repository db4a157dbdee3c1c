import RatCalc.Eval.Call

/-!
# Coupled runs

Evaluation makes its calls through an argument.  Two evaluations of one tree that differ only in this argument go
through the same steps between the calls, so whatever relates the calls relates the evaluations.  All that is said of
the evaluator as a whole, over runs of any length, is derived from this.

* `EvalError.Ordinary` — the errors that arise outside of calls;
* `Coupling` — how two runs are compared: the pairs of machines, the errors, and the endings after which one gives up;
* `Coupling.Follows` — from coupled machines, the second evaluation ends as the first does;
* `follows_eval`, `follows_callStep`, … — evaluations follow each other if their calls do.
-/

set_option linter.unusedSectionVars false

namespace RatCalc

variable {φ α β : Type} [Foreign φ]

/-! ## errors outside of calls -/

/-- The refusal of a call for being nested too deep. -/
def EvalError.IsTooDeep : EvalError → Prop
  | .tooDeep _ _ => True
  | _ => False

theorem EvalError.isTooDeep_iff {e : EvalError} : e.IsTooDeep ↔ ∃ d limit, e = .tooDeep d limit := by
  cases e <;> simp [IsTooDeep]

/-- What the implementation of a host's values returns as an error. -/
def EvalError.RaisedByHost (φ : Type) [Foreign φ] (e : EvalError) : Prop :=
  (∃ (x : φ) (op : BinaryOp) (v : Value φ) (side : Side), Foreign.binary x op v side = some (.error e)) ∨
    (∃ (x : φ) (op : UnaryOp), Foreign.unary x op = some (.error e)) ∨
    ∃ (x : φ) (args : List (Value φ)), Foreign.call x args = some (.error e)

/-- Every error but the evaluator's own refusals of calls. -/
def EvalError.Ordinary (φ : Type) [Foreign φ] (e : EvalError) : Prop := ¬ e.IsTooDeep ∨ e.RaisedByHost φ

/-- A result that is no refusal. -/
def OrdinaryResult (φ : Type) [Foreign φ] (r : Except EvalError α) : Prop := ∀ e, r = .error e → e.Ordinary φ

namespace OrdinaryResult

theorem ok (a : α) : OrdinaryResult φ (.ok a) := fun _ h => nomatch h

theorem error {e : EvalError} (h : e.Ordinary φ) : OrdinaryResult φ (.error e : Except EvalError α) := by
  rintro e' ⟨⟩
  exact h

theorem bind {x : Except EvalError α} {f : α → Except EvalError β} (hx : OrdinaryResult φ x)
    (hf : ∀ a, OrdinaryResult φ (f a)) : OrdinaryResult φ (x >>= f) := by
  cases x with
  | error e => exact error (hx e rfl)
  | ok a => exact hf a

/-- The result of a host's operation, or else a value. -/
theorem getD {r : Option (Except EvalError α)} (a : α)
    (h : ∀ e, r = some (.error e) → e.RaisedByHost φ) : OrdinaryResult φ (r.getD (.ok a)) := by
  cases r with
  | none => exact ok a
  | some r =>
    rintro e rfl
    exact .inr (h e rfl)

end OrdinaryResult

namespace Value

theorem ordinaryResult_arithmetic (op : BinaryOp) (a b : Value φ) : OrdinaryResult φ (arithmetic op a b) := by
  unfold arithmetic
  split
  · exact .ok _
  · exact .ok _
  · exact .ok _
  · exact .getD _ fun e h => .inl ⟨_, _, _, _, h⟩
  · exact .getD _ fun e h => .inl ⟨_, _, _, _, h⟩
  · exact .ok _

theorem ordinaryResult_decided (op : BinaryOp) (a b : Value φ) (o : Option Ordering) :
    OrdinaryResult φ (compare.decided op a b o) := by
  cases o with
  | none => exact .error (.inl id)
  | some o => exact .ok _

theorem ordinaryResult_compare (op : BinaryOp) (a b : Value φ) : OrdinaryResult φ (compare op a b) := by
  unfold compare
  split
  · exact .ok _
  · exact .ok _
  · exact .ok _
  · exact ordinaryResult_decided _ _ _ _
  · exact ordinaryResult_decided _ _ _ _
  · exact ordinaryResult_decided _ _ _ _

theorem ordinaryResult_binary (op : BinaryOp) (a b : Value φ) : OrdinaryResult φ (binary op a b) := by
  unfold binary
  split
  · exact .ok _
  · exact .ok _
  · exact .ok _
  all_goals first | exact ordinaryResult_compare _ a b | exact ordinaryResult_arithmetic _ a b

theorem ordinaryResult_unary (op : UnaryOp) (a : Value φ) : OrdinaryResult φ (unary op a) := by
  unfold unary
  split
  · exact .ok _
  · exact .ok _
  · exact .getD _ fun e h => .inr (.inl ⟨_, _, h⟩)
  · exact .ok _

end Value

namespace Builtin

theorem ordinaryResult_numeric (b : Builtin) (v : Value φ) : OrdinaryResult φ (b.numeric v) := by
  unfold numeric
  split
  · exact .ok _
  · exact .ok _
  · exact .error (.inl id)

theorem ordinaryResult_mapNumber (b : Builtin) (f : ExtRat → ExtRat) (v : Value φ) :
    OrdinaryResult φ (b.mapNumber f v) := by
  refine OrdinaryResult.bind (b.ordinaryResult_numeric v) ?_
  rintro (_ | r) <;> exact .ok _

theorem ordinaryResult_rootOf (v n : Value φ) : OrdinaryResult φ (rootOf v n) := by
  refine OrdinaryResult.bind (root.ordinaryResult_numeric n) ?_
  rintro (_ | r)
  · exact .ok _
  · dsimp only
    split
    · exact ordinaryResult_mapNumber _ _ _
    · exact .error (.inl id)

theorem ordinaryResult_extremum (b : Builtin) (keep : Ordering) (best : Option ExtRat) (vs : List (Value φ)) :
    OrdinaryResult φ (extremum b keep best vs) := by
  induction vs generalizing best with
  | nil => exact .ok _
  | cons v vs ih =>
    rw [extremum]
    refine OrdinaryResult.bind (b.ordinaryResult_numeric v) ?_
    rintro (_ | r)
    · exact .ok _
    · dsimp only
      split
      · exact ih _
      · split
        · exact .ok _
        · exact ih _

end Builtin

/-- Contexts with the same definitions and the same way to close functions. -/
structure Context.Alike (cx cx' : Context φ) : Prop where
  lookup : cx.lookup = cx'.lookup
  capture : cx.config.capture = cx'.config.capture

theorem Context.Alike.refl (cx : Context φ) : cx.Alike cx := ⟨rfl, rfl⟩

/-! ## nested calls, and the loop over steps -/

/-- The outcome with another machine in place of the one it leaves. -/
def Outcome.onMachine (f : Machine φ → Machine φ) : Outcome φ α → Outcome φ α
  | .ok a m => .ok a (f m)
  | .error e m => .error e (f m)
  | .outOfFuel => .outOfFuel

theorem Outcome.onMachine_id (o : Outcome φ α) : o.onMachine id = o := by cases o <;> rfl

theorem enter_of_lt {cx : Context φ} {m : Machine φ} (h : cx.config.maxDepth < m.depth + 1)
    (loop : Value φ → List (Value φ) → Eval φ (Value φ)) (callee : Value φ) (args : List (Value φ)) :
    enter cx loop callee args m =
      .error (.tooDeep (m.depth + 1) cx.config.maxDepth) (m.note (.tooDeep (m.depth + 1) cx.config.maxDepth)) :=
  if_pos h

theorem enter_of_le {cx : Context φ} {m : Machine φ} (h : m.depth + 1 ≤ cx.config.maxDepth)
    (loop : Value φ → List (Value φ) → Eval φ (Value φ)) (callee : Value φ) (args : List (Value φ)) :
    enter cx loop callee args m =
      (loop callee args { m with depth := m.depth + 1 }).onMachine ({ · with depth := m.depth }) := by
  unfold enter
  rw [if_neg (Nat.not_lt.2 h)]
  cases loop callee args { m with depth := m.depth + 1 } <;> rfl

/-- The value that a step gives, or that `loop` makes of the call it hands back, after a note of that call. -/
def Step.goOn (loop : Value φ → List (Value φ) → Eval φ (Value φ)) : Step φ → Eval φ (Value φ)
  | .done v => return v
  | .tail callee args => do
    Eval.note (.tailCall callee.kind args.length)
    loop callee args

theorem bounce_succ (cx : Context φ) (n : Nat) (callee : Value φ) (args : List (Value φ)) :
    bounce cx (n + 1) callee args = callStep cx (enter cx (bounce cx n)) callee args >>= Step.goOn (bounce cx n) := by
  funext m
  show bounce cx (n + 1) callee args m = Eval.bind _ _ m
  rw [bounce, Eval.bind]
  cases callStep cx (enter cx (bounce cx n)) callee args m with
  | ok step m' => cases step <;> rfl
  | error e m' => rfl
  | outOfFuel => rfl

/-! ## couplings -/

/-- How two runs are compared. -/
structure Coupling (φ : Type) [Foreign φ] where
  /-- The machines that the runs may have at the same moment. -/
  Linked : Machine φ → Machine φ → Prop
  /-- The errors with which both may end. -/
  Admits : EvalError → Prop
  /-- The endings of the first run after which nothing is asked of the second: an error, or `none` for spent fuel. -/
  Excuses : Option EvalError → Prop
  store_eq : ∀ {m m'}, Linked m m' → m.store = m'.store
  note : ∀ {m m'} event, Linked m m' → Linked (m.note event) (m'.note event)
  withStore : ∀ {m m'} s, Linked m m' → Linked { m with store := s } { m' with store := s }
  admits : ∀ {e : EvalError}, e.Ordinary φ → Admits e

namespace Coupling

variable (c : Coupling φ)

/-- The endings of compared runs. -/
inductive Related : Outcome φ α → Outcome φ α → Prop
  | ok {a : α} {m m' : Machine φ} (h : c.Linked m m') : Related (.ok a m) (.ok a m')
  | error {e : EvalError} {m m' : Machine φ} (h : c.Linked m m') (he : c.Admits e) : Related (.error e m) (.error e m')
  | spent : Related .outOfFuel .outOfFuel
  | excusedError {e : EvalError} {m : Machine φ} {o : Outcome φ α} (h : c.Excuses (some e)) : Related (.error e m) o
  | excusedSpent {o : Outcome φ α} (h : c.Excuses none) : Related .outOfFuel o

/-- From linked machines, the second evaluation ends as the first does. -/
def Follows (x y : Eval φ α) : Prop := ∀ ⦃m m'⦄, c.Linked m m' → c.Related (x m) (y m')

/-- Machines of related outcomes may be put right on both sides. -/
theorem Related.onMachine {c c' : Coupling φ} {o o' : Outcome φ α} {f g : Machine φ → Machine φ} (h : c.Related o o')
    (hlinked : ∀ ⦃m m'⦄, c.Linked m m' → c'.Linked (f m) (g m')) (hadmits : ∀ ⦃e⦄, c.Admits e → c'.Admits e)
    (hexcuses : ∀ ⦃ending⦄, c.Excuses ending → c'.Excuses ending) : c'.Related (o.onMachine f) (o'.onMachine g) := by
  cases h with
  | ok h => exact .ok (hlinked h)
  | error h he => exact .error (hlinked h) (hadmits he)
  | spent => exact .spent
  | excusedError he => exact .excusedError (hexcuses he)
  | excusedSpent he => exact .excusedSpent (hexcuses he)

variable {c}

/-! ## steps -/

theorem follows_pure (a : α) : c.Follows (pure a) (pure a) := fun _ _ h => .ok h

theorem Follows.bind {x y : Eval φ α} {f g : α → Eval φ β} (hx : c.Follows x y) (hf : ∀ a, c.Follows (f a) (g a)) :
    c.Follows (x >>= f) (y >>= g) := by
  intro m m' h
  show c.Related (Eval.bind x f m) (Eval.bind y g m')
  unfold Eval.bind
  have hxy := hx h
  generalize x m = o at hxy
  generalize y m' = o' at hxy
  cases hxy with
  | ok h' => exact hf _ h'
  | error h' he => exact .error h' he
  | spent => exact .spent
  | excusedError he => exact .excusedError he
  | excusedSpent he => exact .excusedSpent he

theorem Follows.ite {p : Prop} [Decidable p] {x y z w : Eval φ α} (hx : c.Follows x y) (hz : c.Follows z w) :
    c.Follows (if p then x else z) (if p then y else w) := by
  split
  · exact hx
  · exact hz

theorem follows_fail {e : EvalError} (he : e.Ordinary φ) : c.Follows (Eval.fail e : Eval φ α) (Eval.fail e) :=
  fun _ _ h => .error h (c.admits he)

theorem follows_ofExcept {r : Except EvalError α} (hr : OrdinaryResult φ r) :
    c.Follows (Eval.ofExcept r) (Eval.ofExcept r) := by
  cases r with
  | ok a => exact follows_pure a
  | error e => exact follows_fail (hr e rfl)

theorem follows_note (event : Event φ) : c.Follows (Eval.note event) (Eval.note event) :=
  fun _ _ h => .ok (c.note event h)

theorem follows_get? (scope : ScopeId) (name : String) : c.Follows (Eval.get? scope name) (Eval.get? scope name) := by
  intro m m' h
  rw [Eval.get?, Eval.get?, c.store_eq h]
  exact .ok h

theorem follows_define (scope : ScopeId) (name : String) (v : Value φ) :
    c.Follows (Eval.define scope name v) (Eval.define scope name v) := by
  intro m m' h
  rw [Eval.define, Eval.define, c.store_eq h]
  exact .ok (c.withStore _ h)

theorem follows_pushScope (make : Store φ → Scope φ) : c.Follows (Eval.pushScope make) (Eval.pushScope make) := by
  intro m m' h
  rw [Eval.pushScope, Eval.pushScope, c.store_eq h]
  exact .ok (c.withStore _ h)

section Calls

variable {cx cx' : Context φ} {call call' : Value φ → List (Value φ) → Eval φ (Value φ)} {scope : ScopeId}

/-! ## limits and built-in functions -/

section Functions

variable (hcall : ∀ f args, c.Follows (call f args) (call' f args))
include hcall

theorem follows_probe (f : Value φ) (x : ExtRat) : c.Follows (Limit.probe call f x) (Limit.probe call' f x) := by
  refine (hcall f _).bind ?_
  intro v
  cases v with
  | number y => exact follows_pure y
  | _ => exact follows_fail (.inl id)

theorem follows_approach (f : Value φ) (place : ExtRat → ExtRat) (n : Nat) (gap : ExtRat) (trend : Option Limit.Trend) :
    c.Follows (Limit.approach call f place n gap trend) (Limit.approach call' f place n gap trend) := by
  induction n generalizing gap trend with
  | zero => cases trend <;> exact follows_pure _
  | succ n ih =>
    rw [Limit.approach, Limit.approach]
    refine (follows_probe hcall f _).bind ?_
    intro y
    refine (follows_note _).bind ?_
    intro _
    cases Limit.judge trend y with
    | error settled => exact follows_pure _
    | ok trend => exact ih _ _

theorem follows_limit (f : Value φ) (point : ExtRat) (side : Approach) :
    c.Follows (Limit.limit call f point side) (Limit.limit call' f point side) := by
  refine (hcall f _).bind ?_
  intro direct
  refine Follows.ite (follows_pure _) ?_
  cases side with
  | left => exact (follows_approach hcall f _ _ _ _).bind fun _ => follows_pure _
  | right => exact (follows_approach hcall f _ _ _ _).bind fun _ => follows_pure _
  | both =>
    refine (follows_approach hcall f _ _ _ _).bind ?_
    intro left
    exact (follows_approach hcall f _ _ _ _).bind fun _ => follows_pure _

theorem follows_run (b : Builtin) (args : List (Value φ)) : c.Follows (b.run call args) (b.run call' args) := by
  unfold Builtin.run
  split
  · exact follows_ofExcept (Builtin.ordinaryResult_extremum _ _ _ _)
  · exact follows_ofExcept (Builtin.ordinaryResult_extremum _ _ _ _)
  · exact follows_ofExcept (Builtin.ordinaryResult_rootOf _ _)
  · exact follows_pure _
  · refine (follows_ofExcept (Builtin.ordinaryResult_numeric _ _)).bind ?_
    intro point
    cases point with
    | none => exact follows_pure _
    | some point => exact follows_limit hcall _ _ _
  · split
    · exact follows_ofExcept (Builtin.ordinaryResult_mapNumber _ _ _)
    · exact follows_fail (.inl id)
  · exact follows_fail (.inl id)

end Functions

/-! ## names and literals -/

section Names

variable (hcx : cx.Alike cx')
include hcx

theorem follows_resolve (name : String) : c.Follows (resolve cx scope name) (resolve cx' scope name) := by
  refine (follows_get? scope name).bind ?_
  intro found
  rw [hcx.lookup]
  cases found.or ((cx'.lookup name).or (standard? name)) with
  | none => exact follows_fail (.inl id)
  | some v => exact follows_pure v

theorem follows_close (params : List String) (body : Expr φ) :
    c.Follows (close cx scope params body) (close cx' scope params body) := by
  unfold close
  rw [hcx.capture]
  cases cx'.config.capture with
  | live => exact follows_pure _
  | snapshot => exact (follows_pushScope _).bind fun _ => follows_pure _

omit hcx in
theorem follows_evalLiteral (text : String) : c.Follows (evalLiteral text) (evalLiteral text) := by
  unfold evalLiteral
  cases Literal.read text with
  | ok r => exact follows_pure _
  | error fault => exact follows_fail (.inl id)

end Names

/-! ## trees -/

section Trees

variable (hcx : cx.Alike cx') (hcall : ∀ f args, c.Follows (call f args) (call' f args))
include hcx hcall

mutual
/-- **Evaluations follow each other if their calls do.** -/
theorem follows_eval (scope : ScopeId) : ∀ e : Expr φ, c.Follows (eval cx call scope e) (eval cx' call' scope e)
  | .num text => by
    rw [eval, eval]
    exact follows_evalLiteral text
  | .var name => by
    rw [eval, eval]
    exact follows_resolve hcx name
  | .assign _ name e => by
    rw [eval, eval]
    refine (follows_eval scope e).bind ?_
    intro v
    exact (follows_define scope name v).bind fun _ => follows_pure v
  | .lambda params body => by
    rw [eval, eval]
    exact follows_close hcx params body
  | .choice bs => by
    rw [eval, eval]
    exact follows_evalChoice scope bs.length bs
  | .apply f as => by
    rw [eval, eval]
    refine (follows_eval scope f).bind ?_
    intro callee
    exact (follows_evalList scope as).bind fun args => hcall callee args
  | .supply as f => by
    rw [eval, eval]
    refine (follows_evalList scope as).bind ?_
    intro bound
    exact (follows_eval scope f).bind fun _ => follows_pure _
  | .unary op _ e => by
    rw [eval, eval]
    exact (follows_eval scope e).bind fun v => follows_ofExcept (v.ordinaryResult_unary op)
  | .binary op a b => by
    rw [eval, eval]
    refine (follows_eval scope a).bind ?_
    intro left
    refine Follows.ite (follows_pure _) ?_
    exact (follows_eval scope b).bind fun right => follows_ofExcept (Value.ordinaryResult_binary op left right)
  | .chain op es => by
    rw [eval, eval]
    exact follows_evalChain scope op es
  | .block es => by
    rw [eval, eval]
    exact follows_evalBlock scope es
  | .unit => by
    rw [eval, eval]
    exact follows_pure _
  | .foreign x => by
    rw [eval, eval]
    exact follows_pure _
theorem follows_evalList (scope : ScopeId) :
    ∀ es : List (Expr φ), c.Follows (evalList cx call scope es) (evalList cx' call' scope es)
  | [] => by
    rw [evalList, evalList]
    exact follows_pure _
  | e :: es => by
    rw [evalList, evalList]
    refine (follows_eval scope e).bind ?_
    intro v
    exact (follows_evalList scope es).bind fun _ => follows_pure _
theorem follows_evalChain (scope : ScopeId) (op : ChainOp) :
    ∀ es : List (Expr φ), c.Follows (evalChain cx call scope op es) (evalChain cx' call' scope op es)
  | [] => by
    rw [evalChain, evalChain]
    exact follows_evalLiteral _
  | e :: es => by
    rw [evalChain, evalChain]
    exact (follows_eval scope e).bind fun v => follows_evalChainFrom scope op v es
theorem follows_evalChainFrom (scope : ScopeId) (op : ChainOp) (acc : Value φ) :
    ∀ es : List (Expr φ), c.Follows (evalChainFrom cx call scope op acc es) (evalChainFrom cx' call' scope op acc es)
  | [] => by
    rw [evalChainFrom, evalChainFrom]
    exact follows_pure _
  | e :: es => by
    rw [evalChainFrom, evalChainFrom]
    refine (follows_eval scope e).bind ?_
    intro v
    refine (follows_ofExcept (Value.ordinaryResult_binary op.toBinary acc v)).bind ?_
    intro acc
    exact follows_evalChainFrom scope op acc es
theorem follows_evalBlock (scope : ScopeId) :
    ∀ es : List (Expr φ), c.Follows (evalBlock cx call scope es) (evalBlock cx' call' scope es)
  | [] => by
    rw [evalBlock, evalBlock]
    exact follows_pure _
  | [e] => by
    rw [evalBlock, evalBlock]
    exact follows_eval scope e
  | e :: e' :: es => (follows_eval scope e).bind fun _ => follows_evalBlock scope (e' :: es)
theorem follows_evalChoice (scope : ScopeId) (n : Nat) :
    ∀ bs : List (Branch (Expr φ)), c.Follows (evalChoice cx call scope n bs) (evalChoice cx' call' scope n bs)
  | [] => by
    rw [evalChoice, evalChoice]
    exact follows_fail (.inl id)
  | .otherwise a :: _ => by
    rw [evalChoice, evalChoice]
    exact follows_eval scope a
  | .when g a :: bs => by
    rw [evalChoice, evalChoice]
    refine (follows_eval scope g).bind ?_
    intro v
    exact Follows.ite (follows_eval scope a) (follows_evalChoice scope n bs)
end

mutual
theorem follows_evalTail (scope : ScopeId) :
    ∀ e : Expr φ, c.Follows (evalTail cx call scope e) (evalTail cx' call' scope e)
  | .apply f as => by
    rw [evalTail, evalTail]
    refine (follows_eval hcx hcall scope f).bind ?_
    intro callee
    exact (follows_evalList hcx hcall scope as).bind fun _ => follows_pure _
  | .choice bs => by
    rw [evalTail, evalTail]
    exact follows_evalTailChoice scope bs.length bs
  | .block es => by
    rw [evalTail, evalTail]
    exact follows_evalTailBlock scope es
  | .num _ | .var _ | .assign _ _ _ | .lambda _ _ | .supply _ _ | .unary _ _ _ | .binary _ _ _ | .chain _ _ | .unit
  | .foreign _ => (follows_eval hcx hcall scope _).bind fun _ => follows_pure _
theorem follows_evalTailBlock (scope : ScopeId) :
    ∀ es : List (Expr φ), c.Follows (evalTailBlock cx call scope es) (evalTailBlock cx' call' scope es)
  | [] => by
    rw [evalTailBlock, evalTailBlock]
    exact follows_pure _
  | [e] => by
    rw [evalTailBlock, evalTailBlock]
    exact follows_evalTail scope e
  | e :: e' :: es => (follows_eval hcx hcall scope e).bind fun _ => follows_evalTailBlock scope (e' :: es)
theorem follows_evalTailChoice (scope : ScopeId) (n : Nat) :
    ∀ bs : List (Branch (Expr φ)),
      c.Follows (evalTailChoice cx call scope n bs) (evalTailChoice cx' call' scope n bs)
  | [] => by
    rw [evalTailChoice, evalTailChoice]
    exact follows_fail (.inl id)
  | .otherwise a :: _ => by
    rw [evalTailChoice, evalTailChoice]
    exact follows_evalTail scope a
  | .when g a :: bs => by
    rw [evalTailChoice, evalTailChoice]
    refine (follows_eval hcx hcall scope g).bind ?_
    intro v
    exact Follows.ite (follows_evalTail scope a) (follows_evalTailChoice scope n bs)
end

/-! ## steps of a call -/

omit hcx in
theorem follows_pointwise (v : Value φ) (args : List (Value φ)) :
    c.Follows (pointwise call v args) (pointwise call' v args) := Follows.ite (hcall v args) (follows_pure v)

/-- **Steps of a call follow each other if the calls nested in them do.** -/
theorem follows_callStep (callee : Value φ) (args : List (Value φ)) :
    c.Follows (callStep cx call callee args) (callStep cx' call' callee args) := by
  cases callee with
  | unit => exact follows_pure _
  | number _ => exact follows_fail (.inl id)
  | foreign x =>
    unfold callStep
    dsimp only
    cases hresult : Foreign.call x args with
    | none => exact follows_fail (.inl id)
    | some result =>
      have hordinary : OrdinaryResult φ result := by
        rintro e rfl
        exact .inr (.inr (.inr ⟨x, args, hresult⟩))
      exact (follows_ofExcept hordinary).bind fun _ => follows_pure _
  | closure params body scope =>
    refine Follows.ite (follows_fail (.inl id)) ?_
    exact (follows_pushScope _).bind fun inner => follows_evalTail hcx hcall inner body
  | builtin b => exact (follows_run hcall b args).bind fun _ => follows_pure _
  | supplied bound f => exact follows_pure _
  | composed outer inner => exact (hcall inner args).bind fun _ => follows_pure _
  | lifted op f g =>
    refine (follows_pointwise hcall f args).bind ?_
    intro left
    refine (follows_pointwise hcall g args).bind ?_
    intro right
    exact (follows_ofExcept (Value.ordinaryResult_binary op left right)).bind fun _ => follows_pure _
  | liftedUnary op f =>
    refine (follows_pointwise hcall f args).bind ?_
    intro v
    exact (follows_ofExcept (v.ordinaryResult_unary op)).bind fun _ => follows_pure _

end Trees

theorem follows_goOn {loop loop' : Value φ → List (Value φ) → Eval φ (Value φ)}
    (hloop : ∀ f args, c.Follows (loop f args) (loop' f args)) (step : Step φ) :
    c.Follows (step.goOn loop) (step.goOn loop') := by
  cases step with
  | done v => exact follows_pure v
  | tail f args => exact (follows_note _).bind fun _ => hloop f args

end Calls

end Coupling

end RatCalc
