import RatCalc.Proofs.Eval.Nesting
import RatCalc.Proofs.Eval.Stability

/-!
# Functions made of functions

Values can be made of others: a function with arguments supplied, a composition, and operators on functions.  What such a
value means is plain from the way it is made, by recursion on it; calls take steps, nest and hand calls back, and still
end as the meaning says.

* `Value.meaning` — what a value does with arguments, where `call` makes the calls of all values that are made of no other;
* `bounce_composed`, … — the steps of a call, one equation for each way to make a value;
* `bounce_follows_meaning` — a call follows the meaning, by induction on the value;
* `meaning_follows_direct` — and the meaning direct evaluation, which needs no more fuel than the value is high;
* `callsByMeaning` — calls and meanings end alike.
-/

set_option linter.unusedSectionVars false

namespace RatCalc

variable {φ α : Type} [Foreign φ]

/-! ## meanings -/

namespace Value

/-- What a value does with arguments.  An operator on functions works on their results, and takes all else as it is. -/
def meaning (call : Value φ → List (Value φ) → Eval φ (Value φ)) : Value φ → List (Value φ) → Eval φ (Value φ)
  | .supplied bound f, args => meaning call f (bound ++ args)
  | .composed outer inner, args => do
    let v ← meaning call inner args
    meaning call outer [v]
  | .lifted op f g, args => do
    let left ← (if f.isFunction then meaning call f args else pure f)
    let right ← (if g.isFunction then meaning call g args else pure g)
    Eval.ofExcept (left.binary op right)
  | .liftedUnary op f, args => do
    let v ← (if f.isFunction then meaning call f args else pure f)
    Eval.ofExcept (v.unary op)
  | f, args => call f args

/-- How often a value is made of others, one within the other. -/
def height : Value φ → Nat
  | .supplied _ f | .liftedUnary _ f => height f + 1
  | .composed f g | .lifted _ f g => max (height f) (height g) + 1
  | _ => 0

variable (call : Value φ → List (Value φ) → Eval φ (Value φ))

theorem meaning_composed_assoc (f g h : Value φ) (args : List (Value φ)) :
    (composed (composed f g) h).meaning call args = (composed f (composed g h)).meaning call args := by
  simp only [meaning, bind_assoc]

/-- Arguments that were supplied one list after the other, the last list first: the first list goes in front. -/
theorem meaning_foldr_supplied (bounds : List (List (Value φ))) (f : Value φ) (args : List (Value φ)) :
    (bounds.foldr supplied f).meaning call args = f.meaning call (bounds.reverse.flatten ++ args) := by
  induction bounds generalizing args with
  | nil => rfl
  | cons bound bounds ih => simp [meaning, ih]

end Value

open Coupling

/-- **Meanings follow each other if the calls do.** -/
theorem follows_meaning {c : Coupling φ} {call call' : Value φ → List (Value φ) → Eval φ (Value φ)}
    (hcall : ∀ f args, c.Follows (call f args) (call' f args)) :
    ∀ (f : Value φ) (args : List (Value φ)), c.Follows (f.meaning call args) (f.meaning call' args)
  | .supplied bound f, args => follows_meaning hcall f (bound ++ args)
  | .composed outer inner, args => (follows_meaning hcall inner args).bind fun v => follows_meaning hcall outer [v]
  | .lifted op f g, args => by
    rw [Value.meaning, Value.meaning]
    refine (Follows.ite (follows_meaning hcall f args) (follows_pure f)).bind ?_
    intro left
    refine (Follows.ite (follows_meaning hcall g args) (follows_pure g)).bind ?_
    intro right
    exact follows_ofExcept (Value.ordinaryResult_binary op left right)
  | .liftedUnary op f, args => by
    rw [Value.meaning, Value.meaning]
    refine (Follows.ite (follows_meaning hcall f args) (follows_pure f)).bind ?_
    intro v
    exact follows_ofExcept (v.ordinaryResult_unary op)
  | .number _, args | .unit, args | .foreign _, args | .closure _ _ _, args | .builtin _, args => hcall _ args

/-! ## the steps of a call -/

section Steps

variable (cx : Context φ) (n : Nat) (args : List (Value φ))

theorem bounce_supplied (bound : List (Value φ)) (f : Value φ) :
    bounce cx (n + 1) (.supplied bound f) args =
      Eval.note (.tailCall f.kind (bound ++ args).length) >>= fun _ => bounce cx n f (bound ++ args) := by
  rw [bounce_succ]
  rfl

theorem bounce_composed (outer inner : Value φ) :
    bounce cx (n + 1) (.composed outer inner) args =
      enter cx (bounce cx n) inner args >>= fun v =>
        Eval.note (.tailCall outer.kind 1) >>= fun _ => bounce cx n outer [v] := by
  rw [bounce_succ]
  simp only [callStep, Step.goOn, bind_assoc, pure_bind]
  rfl

theorem bounce_lifted (op : BinaryOp) (f g : Value φ) :
    bounce cx (n + 1) (.lifted op f g) args =
      pointwise (enter cx (bounce cx n)) f args >>= fun left =>
        pointwise (enter cx (bounce cx n)) g args >>= fun right => Eval.ofExcept (left.binary op right) := by
  rw [bounce_succ]
  simp only [callStep, Step.goOn, bind_assoc, pure_bind, bind_pure]
  rfl

theorem bounce_liftedUnary (op : UnaryOp) (f : Value φ) :
    bounce cx (n + 1) (.liftedUnary op f) args =
      pointwise (enter cx (bounce cx n)) f args >>= fun v => Eval.ofExcept (v.unary op) := by
  rw [bounce_succ]
  simp only [callStep, Step.goOn, bind_assoc, pure_bind, bind_pure]
  rfl

end Steps

variable {cx : Context φ}

/-! ## calls follow meanings -/

theorem follows_pointwise_left {lessFuel : Prop} {d d' : Nat} {loop : Value φ → List (Value φ) → Eval φ (Value φ)}
    {f : Value φ} {args : List (Value φ)} {y : Eval φ (Value φ)}
    (h : d + 1 ≤ cx.config.maxDepth → (deeper lessFuel (d + 1) d').Follows (loop f args) y) :
    (deeper lessFuel d d').Follows (pointwise (enter cx loop) f args) (if f.isFunction then y else pure f) :=
  Follows.ite (follows_enter_left h) (follows_pure f)

/-- **The steps of a call end as the meaning says.**  The calls that the meaning makes are under fewer others, and may have
more fuel. -/
theorem bounce_follows_meaning : ∀ (f : Value φ) {n n' d d' : Nat} (args : List (Value φ)), n ≤ n' → d' < d →
    d ≤ cx.config.maxDepth →
      (deeper True d d').Follows (bounce cx n f args) (f.meaning (callValue cx n') args)
  | .supplied bound f, 0, _, _, _, args, _, _, _
  | .composed outer inner, 0, _, _, _, args, _, _, _
  | .lifted op f g, 0, _, _, _, args, _, _, _
  | .liftedUnary op f, 0, _, _, _, args, _, _, _ => fun _ _ _ => .excusedSpent trivial
  | .supplied bound f, n + 1, n', d, d', args, hn, hd, hmax => by
    rw [bounce_supplied]
    exact fun m m' h => @bounce_follows_meaning f n n' d d' (bound ++ args) (by omega) hd hmax (m.note _) m' h
  | .composed outer inner, n + 1, n', d, d', args, hn, hd, hmax => by
    rw [bounce_composed, Value.meaning]
    refine (follows_enter_left fun hroom => ?_).bind ?_
    · exact bounce_follows_meaning inner args (by omega) (by omega) hroom
    · intro v m m' h
      exact @bounce_follows_meaning outer n n' d d' [v] (by omega) hd hmax (m.note _) m' h
  | .lifted op f g, n + 1, n', d, d', args, hn, hd, hmax => by
    rw [bounce_lifted, Value.meaning]
    refine (follows_pointwise_left fun hroom => ?_).bind ?_
    · exact bounce_follows_meaning f args (by omega) (by omega) hroom
    intro left
    refine (follows_pointwise_left fun hroom => ?_).bind ?_
    · exact bounce_follows_meaning g args (by omega) (by omega) hroom
    intro right
    exact follows_ofExcept (Value.ordinaryResult_binary op left right)
  | .liftedUnary op f, n + 1, n', d, d', args, hn, hd, hmax => by
    rw [bounce_liftedUnary, Value.meaning]
    refine (follows_pointwise_left fun hroom => ?_).bind ?_
    · exact bounce_follows_meaning f args (by omega) (by omega) hroom
    intro v
    exact follows_ofExcept (v.ordinaryResult_unary op)
  | .number _, _, _, _, _, args, hn, hd, hmax | .unit, _, _, _, _, args, hn, hd, hmax
  | .foreign _, _, _, _, _, args, hn, hd, hmax | .closure _ _ _, _, _, _, _, args, hn, hd, hmax
  | .builtin _, _, _, _, _, args, hn, hd, hmax =>
    follows_enter_right (by omega) (bounce_follows_deeper (.inr ⟨hn, trivial⟩) hd _ args)

/-! ## direct evaluation follows meanings -/

/-- Equal runs, unless the first lacks fuel; a refusal is no excuse. -/
def Coupling.moreFuel : Coupling φ := { unlessStopped with Excuses := fun ending => ending = none }

theorem Coupling.Follows.of_moreFuel {x y : Eval φ α} (h : moreFuel.Follows x y) {m : Machine φ} (hx : x m ≠ .outOfFuel) :
    y m = x m := by
  have hxy := @h m m rfl
  generalize x m = o at hx hxy
  generalize y m = o' at hxy
  cases hxy with
  | ok hm => rw [show _ = _ from hm]
  | error hm => rw [show _ = _ from hm]
  | spent => rfl
  | excusedError he => cases he
  | excusedSpent => exact absurd rfl hx

theorem direct_follows_direct {n n' : Nat} (hn : n ≤ n') (f : Value φ) (args : List (Value φ)) :
    moreFuel.Follows (Direct.call cx n f args) (Direct.call cx n' f args) := by
  induction n generalizing n' f args with
  | zero => exact fun _ _ _ => .excusedSpent rfl
  | succ n ih =>
    obtain ⟨k, rfl⟩ : ∃ k, n' = k + 1 := ⟨n' - 1, by omega⟩
    have hnested : ∀ f args, moreFuel.Follows (Direct.call cx n f args) (Direct.call cx k f args) := ih (by omega)
    rw [Direct.call, Direct.call, ← callStep_bind_make, ← callStep_bind_make]
    refine (follows_callStep (.refl cx) hnested f args).bind ?_
    intro step
    cases step with
    | done v => exact follows_pure v
    | tail g args => exact hnested g args

/-- Of what a value costs, one unit is for the way it is made, and the rest for what it is made of. -/
theorem exists_fuel_of_height {n h k : Nat} (hk : n + (h + 1) ≤ k) : ∃ j, k = j + 1 ∧ n + h ≤ j :=
  ⟨k - 1, by omega, by omega⟩

/-- **Each way to make a value of others costs one unit of fuel.** -/
theorem meaning_follows_direct (n : Nat) : ∀ (f : Value φ) {k : Nat} (args : List (Value φ)), n + f.height ≤ k →
    moreFuel.Follows (f.meaning (Direct.call cx n) args) (Direct.call cx k f args)
  | .supplied bound f, k, args, hk => by
    obtain ⟨k, rfl, hparts⟩ := exists_fuel_of_height hk
    exact meaning_follows_direct n f (bound ++ args) hparts
  | .composed outer inner, k, args, hk => by
    obtain ⟨k, rfl, hparts⟩ := exists_fuel_of_height hk
    refine (meaning_follows_direct n inner args (by omega)).bind ?_
    exact fun v => meaning_follows_direct n outer [v] (by omega)
  | .lifted op f g, k, args, hk => by
    obtain ⟨k, rfl, hparts⟩ := exists_fuel_of_height hk
    refine (Follows.ite (meaning_follows_direct n f args (by omega)) (follows_pure f)).bind ?_
    intro left
    refine (Follows.ite (meaning_follows_direct n g args (by omega)) (follows_pure g)).bind ?_
    intro right
    exact follows_ofExcept (Value.ordinaryResult_binary op left right)
  | .liftedUnary op f, k, args, hk => by
    obtain ⟨k, rfl, hparts⟩ := exists_fuel_of_height hk
    refine (Follows.ite (meaning_follows_direct n f args hparts) (follows_pure f)).bind ?_
    intro v
    exact follows_ofExcept (v.ordinaryResult_unary op)
  | .number _, k, args, hk | .unit, k, args, hk | .foreign _, k, args, hk | .closure _ _ _, k, args, hk
  | .builtin _, k, args, hk => direct_follows_direct hk _ args

/-! ## calls and meanings -/

/-- No refusal of a call. -/
def Unrefused (r : Except EvalError α) : Prop := ∀ d limit, r ≠ .error (.tooDeep d limit)

/-- The run has ended with this result and these scopes, or was refused a call for its depth. -/
def Outcome.EndsUnlessRefused (o : Outcome φ α) (r : Except EvalError α) (s : Store φ) : Prop :=
  o.result? = some (r, s) ∨ ∃ d limit s', o.result? = some (.error (.tooDeep d limit), s')

/-- What has ended under more calls, and was not refused, ends in the same way under fewer. -/
theorem Coupling.Follows.of_deeper {lessFuel : Prop} {d d' : Nat} {x y : Eval φ α} (h : (deeper lessFuel d d').Follows x y)
    {m m' : Machine φ} (hm : m.store = m'.store ∧ m.depth = d ∧ m'.depth = d') {r : Except EvalError α} {s : Store φ}
    (hx : (x m).result? = some (r, s)) (hr : Unrefused r) : (y m').result? = some (r, s) := by
  have hxy := h hm
  generalize x m = o at hx hxy
  generalize y m' = o' at hxy
  cases hxy with
  | ok hm =>
    cases hx
    exact congrArg _ (congrArg _ hm.1.symm)
  | error hm =>
    cases hx
    exact congrArg _ (congrArg _ hm.1.symm)
  | spent => cases hx
  | excusedError he =>
    obtain ⟨d, limit, rfl⟩ := EvalError.isTooDeep_iff.1 he
    cases hx
    exact absurd rfl (hr d limit)
  | excusedSpent => cases hx

section Calls

variable {n : Nat} {f : Value φ} {args : List (Value φ)} {m : Machine φ} {r : Except EvalError (Value φ)} {s : Store φ}

theorem result?_meaning_of_callValue (h : (callValue cx n f args m).result? = some (r, s)) (hr : Unrefused r) :
    (f.meaning (callValue cx n) args m).result? = some (r, s) := by
  have hfollows : (deeper True m.depth m.depth).Follows (callValue cx n f args) (f.meaning (callValue cx n) args) :=
    follows_enter_left fun hroom => bounce_follows_meaning f args (Nat.le_refl n) (Nat.lt_succ_self _) hroom
  exact hfollows.of_deeper ⟨rfl, rfl, rfl⟩ h hr

theorem result?_callValue_of_meaning (h : (f.meaning (callValue cx n) args m).result? = some (r, s)) (hr : Unrefused r) :
    (callValue cx (n + f.height) f args m).EndsUnlessRefused r s := by
  have hcall : ∀ n f args, sameStore.Follows (callValue cx n f args) (Direct.call cx n f args) :=
    fun n f args => enter_follows (bounce_follows_direct n f args)
  have hmeaning : (f.meaning (Direct.call cx n) args m).result? = some (r, s) :=
    ((follows_meaning (hcall n) f args).refines m).1 r s h hr
  have hended : f.meaning (Direct.call cx n) args m ≠ .outOfFuel := by
    intro hspent
    rw [hspent] at hmeaning
    cases hmeaning
  have hdirect := (meaning_follows_direct n f args (Nat.le_refl _)).of_moreFuel hended
  exact ((hcall _ f args).refines m).2 r s (hdirect ▸ hmeaning)

end Calls

/-- Calls and meanings end alike, as long as no call is refused for its depth. -/
structure CallsByMeaning (cx : Context φ) : Prop where
  /-- A call ends with the value or error of the meaning, and leaves the same scopes. -/
  sound : ∀ {n f args} {m : Machine φ} {r s}, (callValue cx n f args m).result? = some (r, s) → Unrefused r →
    (f.meaning (callValue cx n) args m).result? = some (r, s)
  /-- If the meaning ends, so does the call. -/
  complete : ∀ {n f args} {m : Machine φ} {r s}, (f.meaning (callValue cx n) args m).result? = some (r, s) →
    Unrefused r → (callValue cx (n + f.height) f args m).EndsUnlessRefused r s
  /-- Compositions of three functions agree, however they are grouped. -/
  composed_assoc : ∀ {n f g h args} {m : Machine φ} {r s}, Unrefused r →
    ((callValue cx n (.composed (.composed f g) h) args m).result? = some (r, s) →
      ∃ k, (callValue cx k (.composed f (.composed g h)) args m).EndsUnlessRefused r s) ∧
    ((callValue cx n (.composed f (.composed g h)) args m).result? = some (r, s) →
      ∃ k, (callValue cx k (.composed (.composed f g) h) args m).EndsUnlessRefused r s)
  /-- Arguments supplied one list after the other reach the function with the list that was supplied first in front. -/
  supplied : ∀ {n f args} {bounds : List (List (Value φ))} {m : Machine φ} {r s}, Unrefused r →
    ((callValue cx n (bounds.foldr .supplied f) args m).result? = some (r, s) →
      ∃ k, (callValue cx k f (bounds.reverse.flatten ++ args) m).EndsUnlessRefused r s) ∧
    ((callValue cx n f (bounds.reverse.flatten ++ args) m).result? = some (r, s) →
      ∃ k, (callValue cx k (bounds.foldr .supplied f) args m).EndsUnlessRefused r s)

/-- **Functions made of functions mean what they say**, at any nesting: calls of them end as the recursive definition,
in which only the values at the leaves are called, says. -/
theorem callsByMeaning (cx : Context φ) : CallsByMeaning cx := by
  -- values with one meaning are called alike
  have hagree : ∀ {f g : Value φ} {args args' : List (Value φ)} {n : Nat} {m : Machine φ} {r s}, Unrefused r →
      f.meaning (callValue cx n) args = g.meaning (callValue cx n) args' →
        (callValue cx n f args m).result? = some (r, s) →
          ∃ k, (callValue cx k g args' m).EndsUnlessRefused r s := by
    intro f g args args' n m r s hr hsame h
    have hmeaning := result?_meaning_of_callValue h hr
    rw [hsame] at hmeaning
    exact ⟨_, result?_callValue_of_meaning hmeaning hr⟩
  refine ⟨result?_meaning_of_callValue, result?_callValue_of_meaning, ?_, ?_⟩
  · intro n f g h args m r s hr
    have hassoc := Value.meaning_composed_assoc (callValue cx n) f g h args
    exact ⟨hagree hr hassoc, hagree hr hassoc.symm⟩
  · intro n f args bounds m r s hr
    have hsupplied := Value.meaning_foldr_supplied (callValue cx n) bounds f args
    exact ⟨hagree hr hsupplied, hagree hr hsupplied.symm⟩

end RatCalc
