import RatCalc.Proofs.Session

/-!
# The depth of calls

The machine counts the calls that have begun and not ended.  The count is exact: every call gives it back as it found it,
all steps of a call see the same count, and a call is refused exactly when the count stands at the limit.

* `guarded`, `guardedEnter` — calls with a watch on the counter before each step and each nested call;
* `Coupling.level` — one run with itself, at a given count, with no refusal but at the limit;
* `guarded_follows` — the watch never has to act;
* `Interpreter.countsExactly` — what follows for sessions.
-/

namespace RatCalc

variable {φ α : Type} [Foreign φ] (cx : Context φ)

/-! ## a watch on the counter -/

section Guard

variable (alarm : Value φ → List (Value φ) → Eval φ (Value φ))

/-- A nested call under guard.  The counter must stand at the level of the caller: below the limit the call is made, at
the limit it is refused as the first one beyond.  Else `alarm` takes over. -/
def guardedEnter (level : Nat) (loop : Value φ → List (Value φ) → Eval φ (Value φ)) (callee : Value φ)
    (args : List (Value φ)) : Eval φ (Value φ) := fun m =>
  let limit := cx.config.maxDepth
  if m.depth = level ∧ level < limit then enter cx loop callee args m
  else if m.depth = level ∧ level = limit then .error (.tooDeep (limit + 1) limit) (m.note (.tooDeep (limit + 1) limit))
  else alarm callee args m

/-- The steps of a call under guard.  Before each step the counter must stand at the level of the call, within the limit;
else `alarm` takes over.  Nested calls are one level above. -/
def guarded (fuel level : Nat) (callee : Value φ) (args : List (Value φ)) (m : Machine φ) : Outcome φ (Value φ) :=
  match fuel with
  | 0 => .outOfFuel
  | fuel + 1 =>
    if m.depth = level ∧ level ≤ cx.config.maxDepth then
      (callStep cx (guardedEnter cx alarm level (guarded fuel (level + 1))) callee args >>=
        Step.goOn (guarded fuel level)) m
    else alarm callee args m

/-- A call under guard, made while the counter stands at a level. -/
def guardedCall (fuel level : Nat) : Value φ → List (Value φ) → Eval φ (Value φ) :=
  guardedEnter cx alarm level (guarded cx alarm fuel (level + 1))

end Guard

/-- An error that the count explains: the refusal of the first call beyond the limit, or no refusal at all. -/
def EvalError.Accounted (e : EvalError) : Prop :=
  e.Ordinary φ ∨ e = .tooDeep (cx.config.maxDepth + 1) cx.config.maxDepth

/-! ## runs at a level -/

/-- A run and itself, while the counter stands at a level. -/
def Coupling.level (level : Nat) : Coupling φ where
  Linked m m' := m = m' ∧ m.depth = level
  Admits := EvalError.Accounted cx
  Excuses _ := False
  store_eq h := by rw [h.1]
  note _ h := ⟨by rw [h.1], h.2⟩
  withStore _ h := ⟨by rw [h.1], h.2⟩
  admits h := .inl h

open Coupling

variable {cx} {level : Nat}

/-- Runs at a level are equal, end at it, and raise no error that the count does not explain. -/
theorem Coupling.Follows.of_level {x y : Eval φ α} (h : (Coupling.level cx level).Follows x y) {m : Machine φ}
    (hm : m.depth = level) :
    x m = y m ∧ (∀ m', (y m).machine? = some m' → m'.depth = level) ∧ ∀ e m', y m = .error e m' → e.Accounted cx := by
  have hxy := @h m m ⟨rfl, hm⟩
  generalize x m = o at hxy
  generalize y m = o' at hxy
  cases hxy with
  | ok hlink =>
    obtain ⟨rfl, hdepth⟩ := hlink
    exact ⟨rfl, by simpa [Outcome.machine?] using hdepth, by simp⟩
  | error hlink he =>
    obtain ⟨rfl, hdepth⟩ := hlink
    refine ⟨rfl, by simpa [Outcome.machine?] using hdepth, ?_⟩
    rintro e m' ⟨⟩
    exact he
  | spent => simp [Outcome.machine?]
  | excusedError he => exact he.elim
  | excusedSpent he => exact he.elim

/-- A nested call runs one level above, and leaves the counter where it was. -/
theorem guardedEnter_follows {alarm loop loop' : Value φ → List (Value φ) → Eval φ (Value φ)} {callee : Value φ}
    {args : List (Value φ)} (hlevel : level ≤ cx.config.maxDepth)
    (h : level + 1 ≤ cx.config.maxDepth →
      (Coupling.level cx (level + 1)).Follows (loop callee args) (loop' callee args)) :
    (Coupling.level cx level).Follows (guardedEnter cx alarm level loop callee args) (enter cx loop' callee args) := by
  rintro m _ ⟨rfl, hm⟩
  unfold guardedEnter
  rcases Nat.lt_or_ge level cx.config.maxDepth with hlt | hge
  · have hroom : m.depth + 1 ≤ cx.config.maxDepth := by omega
    rw [if_pos ⟨hm, hlt⟩, enter_of_le hroom, enter_of_le hroom]
    have hx := @h hlt { m with depth := m.depth + 1 } _ ⟨rfl, by simp [hm]⟩
    exact hx.onMachine (fun _ _ h => ⟨by rw [h.1], hm⟩) (fun _ h => h) (fun _ h => h)
  · -- the counter stands at the limit itself
    have hlimit : level = cx.config.maxDepth := Nat.le_antisymm hlevel hge
    rw [if_neg (by omega), if_pos ⟨hm, hlimit⟩, enter_of_lt (by omega), hm, hlimit]
    exact .error ⟨rfl, hm.trans hlimit⟩ (.inr rfl)

/-- **The watch never acts**: at every step of every call the counter stands at the level of the call, within the limit,
and no call is refused but the first beyond. -/
theorem guarded_follows (alarm : Value φ → List (Value φ) → Eval φ (Value φ)) (n : Nat)
    (hlevel : level ≤ cx.config.maxDepth) (callee : Value φ) (args : List (Value φ)) :
    (Coupling.level cx level).Follows (guarded cx alarm n level callee args) (bounce cx n callee args) := by
  induction n generalizing level callee args with
  | zero => exact fun _ _ _ => .spent
  | succ n ih =>
    have hnested : ∀ f args, (Coupling.level cx level).Follows
        (guardedEnter cx alarm level (guarded cx alarm n (level + 1)) f args) (enter cx (bounce cx n) f args) :=
      fun f args => guardedEnter_follows hlevel fun hup => ih hup f args
    -- a call that is handed back goes on at the level of the step before
    have hstep := (follows_callStep (.refl cx) hnested callee args).bind (follows_goOn (ih hlevel))
    intro m m' hm
    rw [guarded, if_pos ⟨hm.2, hlevel⟩, bounce_succ]
    exact hstep hm

theorem guardedCall_follows (alarm : Value φ → List (Value φ) → Eval φ (Value φ)) (n : Nat)
    (hlevel : level ≤ cx.config.maxDepth) (callee : Value φ) (args : List (Value φ)) :
    (Coupling.level cx level).Follows (guardedCall cx alarm n level callee args) (callValue cx n callee args) :=
  guardedEnter_follows hlevel fun hup => guarded_follows alarm n hup callee args

/-- Every call gives the counter back as it found it. -/
theorem depth_of_callValue {n : Nat} {callee : Value φ} {args : List (Value φ)} {m m' : Machine φ}
    (h : (callValue cx n callee args m).machine? = some m') : m'.depth = m.depth := by
  unfold callValue enter at h
  dsimp only at h
  split at h
  · cases h
    rfl
  · split at h
    · cases h
      rfl
    · cases h
      rfl
    · cases h

/-! ## sessions -/

/-- Seen from a level, what follows a run follows itself. -/
theorem Coupling.Follows.self_of_level {x y : Eval φ α} (h : (Coupling.level cx level).Follows x y) :
    (Coupling.level cx level).Follows y y := by
  rintro m _ ⟨rfl, hm⟩
  have hxy := h ⟨rfl, hm⟩
  rwa [(h.of_level hm).1] at hxy

theorem callValue_follows_self (n : Nat) (hlevel : level ≤ cx.config.maxDepth) (callee : Value φ)
    (args : List (Value φ)) :
    (Coupling.level cx level).Follows (callValue cx n callee args) (callValue cx n callee args) :=
  (guardedCall_follows (fun _ _ => Eval.exhausted) n hlevel callee args).self_of_level

/-- A refusal that the count explains carries the limit, and the count of the first call beyond it. -/
theorem EvalError.Accounted.tooDeep {d limit : Nat} (h : (EvalError.tooDeep d limit).Accounted cx) :
    d = cx.config.maxDepth + 1 ∧ limit = cx.config.maxDepth ∨ (EvalError.tooDeep d limit).RaisedByHost φ := by
  rcases h with (hnot | hhost) | heq
  · exact absurd trivial hnot
  · exact .inr hhost
  · cases heq
    exact .inl ⟨rfl, rfl⟩

namespace Interpreter

variable [DecidableEq φ] {i : Interpreter φ}

theorem perform_follows_self (n : Nat) (op : Operation φ) :
    (Coupling.level i.context 0).Follows (i.perform n op) (i.perform n op) := by
  have hcall : ∀ f args, (Coupling.level i.context 0).Follows (callValue i.context n f args)
      (callValue i.context n f args) := callValue_follows_self n (Nat.zero_le _)
  exact follows_perform (.refl _) rfl hcall (fun m m' h => ⟨by rw [h.1], rfl⟩) rfl rfl op

/-- Between operations no call is under way. -/
theorem Session.depth_eq_zero {m : Machine φ} (h : i.Session m) : m.depth = 0 := by
  induction h with
  | created hdepth h =>
    obtain ⟨-, rfl⟩ := Outcome.ok.inj h
    exact hdepth
  | performed _ h ih => exact ((perform_follows_self _ _).of_level ih).2.1 _ h

variable (i)

/-- The counter of calls is exact. -/
structure CountsExactly : Prop where
  /-- After every operation, whether it gave a value or an error, no call is under way. -/
  idle : ∀ {m}, i.Session m → m.depth = 0
  /-- A call gives the counter back as it found it. -/
  restored : ∀ {n callee args m m'}, (i.call n callee args m).machine? = some m' → m'.depth = m.depth
  /-- Before every step of every call the counter stands at the level of the call, within the limit, and the one refusal
  is that of the first call beyond: whatever the alarm would do, evaluations under guard are those without. -/
  watched : ∀ alarm n {m : Machine φ}, m.depth ≤ i.context.config.maxDepth →
    (∀ callee args, guardedCall i.context alarm n m.depth callee args m = i.call n callee args m) ∧
      (∀ scope e, eval i.context (guardedCall i.context alarm n m.depth) scope e m =
        eval i.context (i.call n) scope e m) ∧
      ∀ f point side, Limit.limit (guardedCall i.context alarm n m.depth) f point side m = i.limit n f point side m
  /-- A refusal with which a call ends carries the limit and the count of the first call beyond, unless a host made it. -/
  refused : ∀ {n callee args m m' d limit}, m.depth ≤ i.context.config.maxDepth →
    i.call n callee args m = .error (.tooDeep d limit) m' →
      d = i.context.config.maxDepth + 1 ∧ limit = i.context.config.maxDepth ∨ (EvalError.tooDeep d limit).RaisedByHost φ
  /-- And so does one with which an operation ends. -/
  refusedOperation : ∀ {m n op m' d limit}, i.Session m → i.perform n op m = .error (.tooDeep d limit) m' →
    d = i.context.config.maxDepth + 1 ∧ limit = i.context.config.maxDepth ∨ (EvalError.tooDeep d limit).RaisedByHost φ

/-- **The count of calls is exact over whole sessions.** -/
theorem countsExactly : i.CountsExactly where
  idle h := h.depth_eq_zero
  restored h := depth_of_callValue h
  watched alarm n m hm := by
    have hcall := guardedCall_follows alarm n hm
    refine ⟨?_, ?_, ?_⟩
    · intro callee args
      exact ((hcall callee args).of_level rfl).1
    · intro scope e
      exact ((follows_eval (.refl _) hcall scope e).of_level rfl).1
    · intro f point side
      exact ((follows_limit hcall f point side).of_level rfl).1
  refused := by
    intro n callee args m m' d limit hm h
    exact (((callValue_follows_self n hm callee args).of_level rfl).2.2 _ _ h).tooDeep
  refusedOperation hm h := (((perform_follows_self _ _).of_level hm.depth_eq_zero).2.2 _ _ h).tooDeep

end Interpreter

end RatCalc
