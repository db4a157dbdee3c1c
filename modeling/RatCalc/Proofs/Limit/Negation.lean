import RatCalc.Session
import RatCalc.Proofs.Eval.Derived
import RatCalc.Proofs.Eval.Stability
import RatCalc.Proofs.Limit.Probes
import RatCalc.Proofs.Number.Negation

/-!
# Limits of negated functions

The limit of `-f` is that of `f` with its sign changed.  Both are approached through the same points, and each result of
`-f` is the one of `f` with its sign changed; so they are judged alike at every probe, and what settles one settles the
other.

* `judge_neg` — one probe: results with their signs changed are judged alike;
* `call_neg` — a call of `-f` ends as one of `f`, with the sign changed, unless it is refused: it nests one level deeper;
* `approach_neg`, `fromSide_neg` — all probes, by induction on their number;
* `Interpreter.limit_neg` — the limit.
-/

namespace RatCalc

open Coupling ExtRat

variable {φ α β : Type} [Foreign φ]

/-! ## one probe -/

namespace Limit

/-- The trend of results with their signs changed: the steps between them are as large. -/
def Trend.neg (t : Trend) : Trend := ⟨t.value.neg, t.step?⟩

/-- A judgement with all signs changed. -/
def opposite : Except ExtRat Trend → Except ExtRat Trend
  | .error settled => .error settled.neg
  | .ok trend => .ok trend.neg

/-- The results so far are fractions: another one would have settled the limit. -/
def FiniteTrend (trend : Option Trend) : Prop := ∀ t ∈ trend, t.value.isFinite = true

theorem finiteTrend_none : FiniteTrend none := fun _ h => nomatch h

theorem finiteTrend_of_judge {trend : Option Trend} {t : Trend} {y : ExtRat} (h : judge trend y = .ok t) :
    FiniteTrend (some t) := by
  rintro _ ⟨⟩
  obtain ⟨hvalue, hy⟩ := value_of_judge h
  rwa [hvalue]

/-- Steps that run away upwards run away downwards with the signs changed. -/
theorem runaway_neg {y previous : ExtRat} (hy : y.isFinite = true) (hp : previous.isFinite = true)
    (hstep : (y.sub previous).abs.isZero = false) :
    (if y.neg.totalCmp previous.neg == .gt then infinity else negInfinity) =
      (if y.totalCmp previous == .gt then infinity else negInfinity).neg := by
  have hne : y.totalCmp previous ≠ .eq := by
    intro heq
    rw [totalCmp_of_isFinite hy hp, compare_eq_iff_eq] at heq
    have hzero := (isZero_abs (isFinite_sub hy hp)).2 (by rw [magnitude_sub hy hp, heq, sub_self])
    rw [hzero] at hstep
    cases hstep
  have hswap : previous.totalCmp y = (y.totalCmp previous).swap := Std.OrientedCmp.eq_swap
  rw [totalCmp_neg hy hp, hswap]
  cases h : y.totalCmp previous with
  | eq => exact absurd h hne
  | lt => rfl
  | gt => rfl

/-- **Results with their signs changed are judged alike.** -/
theorem judge_neg {trend : Option Trend} (htrend : FiniteTrend trend) (y : ExtRat) :
    judge (trend.map Trend.neg) y.neg = opposite (judge trend y) := by
  unfold judge
  rw [isFinite_neg]
  cases hy : y.isFinite with
  | false => rfl
  | true =>
    cases trend with
    | none => rfl
    | some t =>
      obtain ⟨previous, lastStep?⟩ := t
      have hp : previous.isFinite = true := htrend _ rfl
      simp only [Option.map_some, Trend.neg, ExtRat.sub_neg, ExtRat.abs_neg]
      cases hstep : (y.sub previous).abs.isZero with
      | true => exact congrArg Except.error (snap_neg y)
      | false =>
        cases lastStep? with
        | none => rfl
        | some lastStep =>
          dsimp only
          cases (y.sub previous).abs.totalCmp lastStep != .lt with
          | true => exact congrArg Except.error (runaway_neg hy hp hstep)
          | false => rfl

end Limit

/-! ## one call -/

/-- What succeeds, if not refused, in a first part, and with the rest as well. -/
theorem Coupling.Related.bind_ok {c : Coupling φ} {x : Eval φ α} {f : α → Eval φ β} {a : α} {m m' : Machine φ}
    {o : Outcome φ β} (hx : c.Related (x m') (.ok a m)) (hf : ∀ ⦃m''⦄, c.Linked m'' m → c.Related (f a m'') o) :
    c.Related ((x >>= f) m') o := by
  show c.Related (Eval.bind x f m') o
  unfold Eval.bind
  generalize x m' = o' at hx
  cases hx with
  | ok h => exact hf h
  | excusedError he => exact .excusedError he
  | excusedSpent he => exact .excusedSpent he

section Negated

variable {cx : Context φ} {n k : ℕ} (hk : n < k) {f : Value φ} (hf : f.isFunction = true) {d : ℕ}
  {x y r point gap : ExtRat} {m m' m₁ : Machine φ}

include hf in
theorem callValue_neg (args : List (Value φ)) :
    (deeper False d d).Follows (callValue cx (n + 1) (.liftedUnary .minus f) args)
      (callValue cx n f args >>= fun v => Eval.ofExcept (v.unary .minus)) := by
  refine follows_enter_left fun hroom => ?_
  rw [bounce_liftedUnary, pointwise, if_pos hf]
  refine (callValue_follows_deeper (.inl rfl) (Nat.le_succ d) f args).bind ?_
  intro v
  exact follows_ofExcept (v.ordinaryResult_unary .minus)

include hk hf

/-- **Where `f` returns a number, `-f` returns it with its sign changed**, unless it is refused the call. -/
theorem call_neg (hm : (deeper False d d).Linked m' m) (h : callValue cx n f [.number x] m = .ok (.number y) m₁) :
    (deeper False d d).Related (callValue cx k (.liftedUnary .minus f) [.number x] m') (.ok (.number y.neg) m₁) := by
  obtain ⟨k, rfl⟩ : ∃ j, k = j + 1 := ⟨k - 1, by omega⟩
  have hmore : callValue cx k f [.number x] m = .ok (.number y) m₁ :=
    (callValue_follows_callValue (.refl cx) le_rfl (by omega) f _).of_unlessStopped h nofun nofun
  have hfollows : (deeper False d d).Follows (callValue cx (k + 1) (.liftedUnary .minus f) [.number x]) _ :=
    callValue_neg hf [.number x]
  have hrelated := hfollows hm
  rwa [Eval.bind_of_ok hmore] at hrelated

namespace Limit

theorem probe_neg (hm : (deeper False d d).Linked m' m) (h : callValue cx n f [.number x] m = .ok (.number y) m₁) :
    (deeper False d d).Related (probe (callValue cx k) (.liftedUnary .minus f) x m') (.ok y.neg m₁) :=
  (call_neg hk hf hm h).bind_ok fun _ hm => .ok hm

/-! ## all probes -/

/-- **A limit from one side changes its sign with the function.** -/
theorem approach_neg {place : ExtRat → ExtRat} {count : ℕ} {trend : Option Trend} (htrend : FiniteTrend trend)
    (hm : (deeper False d d).Linked m' m) (h : approach (callValue cx n) f place count gap trend m = .ok r m₁) :
    (deeper False d d).Related
      (approach (callValue cx k) (.liftedUnary .minus f) place count gap (trend.map Trend.neg) m') (.ok r.neg m₁) := by
  induction count generalizing gap trend m m' with
  | zero =>
    cases trend with
    | none =>
      cases h
      exact .ok hm
    | some t =>
      cases h
      rw [← snap_neg]
      exact .ok hm
  | succ count ih =>
    obtain ⟨y, m₂, hcall⟩ := exists_call_of_approach h
    rw [approach_of_call hcall] at h
    refine (probe_neg hk hf hm hcall).bind_ok ?_
    intro m₃ hm₃
    -- the results are noted with their signs, which are not compared
    refine Related.bind_ok (a := ()) (m := m₂.note (.probe gap y)) (.ok hm₃) ?_
    intro m₄ hm₄
    rw [judge_neg htrend]
    cases hjudge : judge trend y with
    | error settled =>
      rw [hjudge] at h
      cases h
      exact .ok hm₄
    | ok t =>
      rw [hjudge] at h
      exact ih (finiteTrend_of_judge hjudge) hm₄ h

omit hk hf in
theorem agreed_neg (left right : ExtRat) :
    (if left.neg.isFinite && left.neg == right.neg then left.neg else undefined) =
      (if left.isFinite && left == right then left else undefined).neg := by
  have heq : (left.neg == right.neg) = (left == right) := by
    rw [beq_eq_decide, beq_eq_decide, decide_eq_decide]
    exact ⟨fun h => by rw [← ExtRat.neg_neg left, h, ExtRat.neg_neg], fun h => h ▸ rfl⟩
  rw [isFinite_neg, heq]
  split
  · rfl
  · rfl

/-- **So does a limit from both sides.** -/
theorem fromSide_neg {side : Approach} (hm : (deeper False d d).Linked m' m)
    (h : fromSide (callValue cx n) f point side m = .ok r m₁) :
    (deeper False d d).Related (fromSide (callValue cx k) (.liftedUnary .minus f) point side m') (.ok r.neg m₁) := by
  cases side with
  | left => exact approach_neg hk hf finiteTrend_none hm h
  | right => exact approach_neg hk hf finiteTrend_none hm h
  | both =>
    obtain ⟨left, m₂, hleft, hrest⟩ := Eval.bind_eq_ok_iff.1 h
    obtain ⟨right, m₃, hright, hr⟩ := Eval.bind_eq_ok_iff.1 hrest
    refine (approach_neg hk hf finiteTrend_none hm hleft).bind_ok ?_
    intro m₄ hm₄
    refine (approach_neg hk hf finiteTrend_none hm₄ hright).bind_ok ?_
    intro m₅ hm₅
    cases hr
    rw [← agreed_neg]
    exact .ok hm₅

/-- The limit of `-f` is that of `f` with its sign changed, unless a call is refused. -/
theorem limit_neg_of_ok {side : Approach} (hm : (deeper False d d).Linked m' m)
    (h : limit (callValue cx n) f point side m = .ok (.number r) m₁) :
    (deeper False d d).Related (limit (callValue cx k) (.liftedUnary .minus f) point side m')
      (.ok (.number r.neg) m₁) := by
  obtain ⟨y, m₂, hcall, hends⟩ := limit_cases h
  rw [limit_eq]
  refine (call_neg hk hf hm hcall).bind_ok ?_
  intro m₃ hm₃
  obtain ⟨hy, rfl, rfl⟩ | ⟨hy, hside⟩ := hends
  · simp only [isFinite_neg, hy, if_true]
    exact .ok hm₃
  · simp only [isFinite_neg, hy, Bool.false_eq_true, if_false]
    exact (fromSide_neg hk hf hm₃ hside).bind_ok fun _ hm => .ok hm

end Limit

end Negated

/-! ## the limit -/

namespace Interpreter

variable {i : Interpreter φ} {n k : ℕ} {f : Value φ} {point : ExtRat} {side : Approach} {m : Machine φ}

/-- **The limit of a negated function is the limit with its sign changed**, infinities and the undefined number included:
if all calls of `f` return numbers, both limits are numbers, and they leave the same scopes.  Only a call that nests too
deep can keep `-f` from it. -/
theorem limit_neg (hk : n < k) (hf : f.isFunction = true) (hnumbers : Limit.AnswersNumbers (i.call n) f point side m)
    (hdepth : ∀ d l m', i.limit k (.liftedUnary .minus f) point side m ≠ .error (.tooDeep d l) m') :
    ∃ r m₁ m₂, i.limit n f point side m = .ok (.number r) m₁ ∧
      i.limit k (.liftedUnary .minus f) point side m = .ok (.number r.neg) m₂ ∧ m₂.store = m₁.store := by
  obtain ⟨r, m₁, h⟩ := Limit.exists_limit_iff.2 hnumbers
  have hlinked : (deeper False m.depth m.depth).Linked m m := ⟨rfl, rfl, rfl⟩
  have hrelated := Limit.limit_neg_of_ok hk hf hlinked h
  change (deeper False m.depth m.depth).Related (i.limit k (.liftedUnary .minus f) point side m) _ at hrelated
  generalize i.limit k (.liftedUnary .minus f) point side m = o at hrelated hdepth
  cases hrelated with
  | ok hm => exact ⟨r, m₁, _, h, rfl, hm.1⟩
  | excusedError he =>
    obtain ⟨d, l, rfl⟩ := EvalError.isTooDeep_iff.1 he
    exact absurd rfl (hdepth d l _)
  | excusedSpent he => exact absurd he id

/-- The reciprocal, at its pole. -/
theorem limit_neg_reciprocal :
    let i : Interpreter Empty := { top := 0 }
    let f : Value Empty := .lifted .div (.number .one) (.builtin .min)
    2 < 3 ∧ f.isFunction = true ∧ Limit.AnswersNumbers (i.call 2) f .zero .right {} ∧
      (∀ d l m', i.limit 3 (.liftedUnary .minus f) .zero .right {} ≠ .error (.tooDeep d l) m') ∧
      ∃ r m₁ m₂, i.limit 2 f .zero .right {} = .ok (.number r) m₁ ∧
        i.limit 3 (.liftedUnary .minus f) .zero .right {} = .ok (.number r.neg) m₂ ∧ m₂.store = m₁.store := by
  intro i f
  have hlimit : (i.limit 2 f .zero .right {}).number? = some .infinity := by decide +kernel
  have hnegated : (i.limit 3 (.liftedUnary .minus f) .zero .right {}).number? = some .negInfinity := by decide +kernel
  have hnumbers := Limit.exists_limit_iff.1 ⟨_, Outcome.number?_eq_some_iff.1 hlimit⟩
  have hdepth : ∀ d l m', i.limit 3 (.liftedUnary .minus f) .zero .right {} ≠ .error (.tooDeep d l) m' := by
    obtain ⟨m', hm'⟩ := Outcome.number?_eq_some_iff.1 hnegated
    rw [hm']
    exact nofun
  exact ⟨by decide, rfl, hnumbers, hdepth, limit_neg (by decide) rfl hnumbers hdepth⟩

end Interpreter

end RatCalc
