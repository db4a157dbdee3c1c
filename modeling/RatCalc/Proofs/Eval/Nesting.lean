import RatCalc.Proofs.Eval.Direct

/-!
# Calls under other calls

A call may be made at the top or under any number of other calls.  Where it is made decides only on the refusals: a run
that starts under more calls ends as one that starts under fewer, unless it is refused a call.

* `Coupling.deeper` — two runs on the same scopes, the first under more calls and perhaps with less fuel;
* `follows_enter_left`, `follows_enter_right` — a nested call moves its side one level up;
* `callValue_follows_deeper` — a call under more calls ends as the same call under fewer.
-/

namespace RatCalc

variable {φ α : Type} [Foreign φ]

/-- Runs on the same scopes, one under `d` calls and one under `d'`.  A refusal excuses the first, and so does spent fuel
if it may have had less. -/
def Coupling.deeper (lessFuel : Prop) (d d' : Nat) : Coupling φ where
  Linked m m' := m.store = m'.store ∧ m.depth = d ∧ m'.depth = d'
  Admits _ := True
  Excuses
    | some e => e.IsTooDeep
    | none => lessFuel
  store_eq h := h.1
  note _ h := h
  withStore _ h := ⟨rfl, h.2⟩
  admits _ := trivial

open Coupling

variable {cx : Context φ} {lessFuel : Prop} {d d' : Nat}

/-- A call nested in the first run, if it is not refused, is one level up. -/
theorem follows_enter_left {loop : Value φ → List (Value φ) → Eval φ (Value φ)} {callee : Value φ} {args : List (Value φ)}
    {y : Eval φ (Value φ)}
    (h : d + 1 ≤ cx.config.maxDepth → (deeper lessFuel (d + 1) d').Follows (loop callee args) y) :
    (deeper lessFuel d d').Follows (enter cx loop callee args) y := by
  rintro m m' ⟨hstore, rfl, hd'⟩
  rcases Nat.lt_or_ge cx.config.maxDepth (m.depth + 1) with hlt | hle
  · rw [enter_of_lt hlt]
    exact .excusedError trivial
  · rw [enter_of_le hle, ← Outcome.onMachine_id (y m')]
    have hx := @h hle { m with depth := m.depth + 1 } m' ⟨hstore, rfl, hd'⟩
    exact hx.onMachine (fun _ _ h => ⟨h.1, rfl, h.2.2⟩) (fun _ h => h) (fun _ h => h)

/-- So is one nested in the second run, where there is room for it. -/
theorem follows_enter_right {loop : Value φ → List (Value φ) → Eval φ (Value φ)} {callee : Value φ} {args : List (Value φ)}
    {x : Eval φ (Value φ)} (hroom : d' + 1 ≤ cx.config.maxDepth)
    (h : (deeper lessFuel d (d' + 1)).Follows x (loop callee args)) :
    (deeper lessFuel d d').Follows x (enter cx loop callee args) := by
  rintro m m' ⟨hstore, hd, rfl⟩
  rw [enter_of_le hroom, ← Outcome.onMachine_id (x m)]
  have hx := @h m { m' with depth := m'.depth + 1 } ⟨hstore, hd, rfl⟩
  exact hx.onMachine (fun _ _ h => ⟨h.1, h.2.1, rfl⟩) (fun _ h => h) (fun _ h => h)

/-- **The steps of a call end under more calls as they do under fewer.** -/
theorem bounce_follows_deeper {n n' : Nat} (hfuel : n = n' ∨ n ≤ n' ∧ lessFuel) (hd : d' ≤ d) (callee : Value φ)
    (args : List (Value φ)) : (deeper lessFuel d d').Follows (bounce cx n callee args) (bounce cx n' callee args) := by
  induction n generalizing n' d d' callee args with
  | zero =>
    rcases hfuel with rfl | ⟨-, hless⟩
    · exact fun _ _ _ => .spent
    · exact fun _ _ _ => .excusedSpent hless
  | succ n ih =>
    obtain ⟨k, rfl⟩ : ∃ k, n' = k + 1 := ⟨n' - 1, by omega⟩
    have hfuel' : n = k ∨ n ≤ k ∧ lessFuel := hfuel.imp (by omega) fun h => ⟨by omega, h.2⟩
    have hnested : ∀ f args,
        (deeper lessFuel d d').Follows (enter cx (bounce cx n) f args) (enter cx (bounce cx k) f args) := by
      intro f args
      refine follows_enter_left fun hroom => ?_
      exact follows_enter_right (by omega) (ih hfuel' (by omega) f args)
    rw [bounce_succ, bounce_succ]
    exact (follows_callStep (.refl cx) hnested callee args).bind (follows_goOn (ih hfuel' hd))

theorem callValue_follows_deeper {n n' : Nat} (hfuel : n = n' ∨ n ≤ n' ∧ lessFuel) (hd : d' ≤ d) (callee : Value φ)
    (args : List (Value φ)) : (deeper lessFuel d d').Follows (callValue cx n callee args) (callValue cx n' callee args) := by
  refine follows_enter_left fun hroom => ?_
  exact follows_enter_right (by omega) (bounce_follows_deeper hfuel (by omega) callee args)

end RatCalc
