import RatCalc.Proofs.Eval.Direct
import RatCalc.Proofs.Eval.Arithmetic
import RatCalc.Proofs.Eval.Depth
import RatCalc.Proofs.Eval.Stability
import RatCalc.Proofs.Normal.Sorting

/-!
# The steps of a limit

A limit calls its function at the point and, if the result there is no fraction, at each probe.

* `value_of_judge` — a judgement; `judge_first`, `judge_second`, `judge_same`, `judge_shrinking`, `judge_runaway` —
  judgements of fractions;
* `approach_of_call`, `limit_of_finite`, `limit_of_not_isFinite` — how a limit goes on after a call that returns a number;
* `AnswersNumbers`, `exists_limit_iff` — all its calls return numbers, which is when the limit is a number;
* `Computes` — a function that returns `g x` for every number `x`;
* `Interpreter.HasLimit` — what the limit is, given enough fuel.
-/

namespace RatCalc

variable {φ : Type}

/-- The number with which a run ends. -/
def Outcome.number? : Outcome φ (Value φ) → Option ExtRat
  | .ok v _ => v.number?
  | _ => none

theorem Outcome.number?_eq_some_iff {o : Outcome φ (Value φ)} {r : ExtRat} :
    o.number? = some r ↔ ∃ m, o = .ok (.number r) m := by
  constructor
  · intro h
    cases o with
    | ok v m =>
      cases v with
      | number y =>
        cases h
        exact ⟨m, rfl⟩
      | _ => cases h
    | error e m => cases h
    | outOfFuel => cases h
  · rintro ⟨m, rfl⟩
    rfl

variable [Foreign φ]

namespace Limit

/-! ## judgements -/

/-- A trend that goes on has the new result as its value, which is a fraction. -/
theorem value_of_judge {trend : Option Trend} {t : Trend} {y : ExtRat} (h : judge trend y = .ok t) :
    t.value = y ∧ y.isFinite = true := by
  unfold judge at h
  cases hy : y.isFinite with
  | false => simp [hy] at h
  | true => grind

section Fractions

open ExtRat Extended

variable {y previous : ℚ}

theorem judge_first (y : ℚ) : judge none (fraction y).form = .ok ⟨(fraction y).form, none⟩ := by
  rw [judge, isFinite_form]
  rfl

theorem abs_sub_form (y previous : ℚ) :
    ((fraction y).form.sub (fraction previous).form).abs = (fraction |y - previous|).form := by
  rw [sub_form, abs_form, sub_eq_add_neg]
  rfl

theorem isZero_step (h : y ≠ previous) : (fraction |y - previous|).form.isZero = false := by
  simpa [isZero_form] using sub_ne_zero.2 h

/-- A second fraction, if it is another one, makes the first step. -/
theorem judge_second (h : y ≠ previous) :
    judge (some ⟨(fraction previous).form, none⟩) (fraction y).form =
      .ok ⟨(fraction y).form, some (fraction |y - previous|).form⟩ := by
  rw [judge, isFinite_form]
  simp only [abs_sub_form, isZero_step h]
  rfl

/-- The same result again settles the limit. -/
theorem judge_same (y : ℚ) (lastStep? : Option ExtRat) :
    judge (some ⟨(fraction y).form, lastStep?⟩) (fraction y).form = .error (fraction y).form.snap := by
  have hzero : (fraction |y - y|).form.isZero = true := by
    rw [sub_self, abs_zero]
    rfl
  rw [judge, isFinite_form]
  simp only [abs_sub_form, hzero]
  rfl

/-- A smaller step settles nothing. -/
theorem judge_shrinking {step : ℚ} (h : y ≠ previous) (hstep : |y - previous| < step) :
    judge (some ⟨(fraction previous).form, some (fraction step).form⟩) (fraction y).form =
      .ok ⟨(fraction y).form, some (fraction |y - previous|).form⟩ := by
  have hshrunk : ((fraction |y - previous|).form.totalCmp (fraction step).form != .lt) = false := by
    rw [totalCmp_form, Extended.cmp, compare_lt_iff_lt.2 hstep]
    rfl
  rw [judge, isFinite_form]
  simp only [abs_sub_form, isZero_step h, hshrunk]
  rfl

/-- **A step that is no smaller than the one before settles the limit**: it is the infinity on its side. -/
theorem judge_runaway {step : ℚ} (h : y ≠ previous) (hstep : step ≤ |y - previous|) :
    judge (some ⟨(fraction previous).form, some (fraction step).form⟩) (fraction y).form =
      .error (infinityOf (y - previous)).form := by
  have hgrown : ((fraction |y - previous|).form.totalCmp (fraction step).form != .lt) = true := by
    rw [totalCmp_form, Extended.cmp, bne_iff_ne, Ne, compare_lt_iff_lt]
    exact not_lt.2 hstep
  have hside : (if (fraction y).form.totalCmp (fraction previous).form == .gt then ExtRat.infinity else ExtRat.negInfinity) =
      (infinityOf (y - previous)).form := by
    rw [totalCmp_form, Extended.cmp]
    rcases lt_or_gt_of_ne h with hlt | hgt
    · rw [compare_lt_iff_lt.2 hlt, infinityOf_of_neg (sub_neg.2 hlt)]
      rfl
    · rw [compare_gt_iff_gt.2 hgt, infinityOf_of_pos (sub_pos.2 hgt)]
      rfl
  rw [judge, isFinite_form, ← hside]
  simp only [abs_sub_form, isZero_step h, hgrown]
  rfl

end Fractions

/-! ## one call -/

section Steps

variable {call : Value φ → List (Value φ) → Eval φ (Value φ)} {f : Value φ} {x y r point gap : ExtRat}
  {m m' m₁ : Machine φ} {place : ExtRat → ExtRat} {n : ℕ} {trend : Option Trend} {side : Approach}

theorem probe_eq_ok_iff : probe call f x m = .ok y m' ↔ call f [.number x] m = .ok (.number y) m' := by
  unfold probe
  rw [Eval.bind_eq_ok_iff]
  constructor
  · rintro ⟨v, m₁, hcall, hv⟩
    cases v with
    | number y' =>
      obtain ⟨rfl, rfl⟩ : y' = y ∧ m₁ = m' := by simpa [pure, Eval.pure] using hv
      exact hcall
    | _ => cases hv
  · exact fun hcall => ⟨.number y, m', hcall, rfl⟩

/-- A probe, and what follows from its result. -/
theorem approach_of_call (h : call f [.number (place gap)] m = .ok (.number y) m₁) :
    approach call f place (n + 1) gap trend m =
      match judge trend y with
      | .error settled => .ok settled (m₁.note (.probe gap y))
      | .ok t => approach call f place n (gap.mul shrink) (some t) (m₁.note (.probe gap y)) := by
  have hnote : Eval.note (.probe gap y) m₁ = .ok () (m₁.note (.probe gap y)) := rfl
  rw [approach, Eval.bind_of_ok (probe_eq_ok_iff.2 h), Eval.bind_of_ok hnote]
  cases judge trend y <;> rfl

theorem exists_call_of_approach (h : approach call f place (n + 1) gap trend m = .ok r m') :
    ∃ y m₁, call f [.number (place gap)] m = .ok (.number y) m₁ := by
  rw [approach, Eval.bind_eq_ok_iff] at h
  obtain ⟨y, m₁, hprobe, -⟩ := h
  exact ⟨y, m₁, probe_eq_ok_iff.1 hprobe⟩

/-- The limit from a side, or from both, where the result at the point is no fraction. -/
def fromSide (call : Value φ → List (Value φ) → Eval φ (Value φ)) (f : Value φ) (point : ExtRat) : Approach → Eval φ ExtRat
  | .left => fromLeft call f point
  | .right => fromRight call f point
  | .both => do
    let left ← fromLeft call f point
    let right ← fromRight call f point
    return if left.isFinite && left == right then left else .undefined

theorem limit_eq : limit call f point side = call f [.number point] >>= fun direct =>
    if (match direct with | .number y => y.isFinite | _ => true) = true then pure direct
    else fromSide call f point side >>= fun r => pure (.number r) := by
  cases side with
  | left => rfl
  | right => rfl
  | both =>
    simp only [fromSide, bind_assoc, pure_bind]
    rfl

theorem limit_of_finite (h : call f [.number point] m = .ok (.number y) m₁) (hy : y.isFinite = true) :
    limit call f point side m = .ok (.number y) m₁ := by
  rw [limit_eq, Eval.bind_of_ok h]
  simp only [hy, if_true]
  rfl

theorem limit_of_not_isFinite (h : call f [.number point] m = .ok (.number y) m₁) (hy : y.isFinite = false) :
    limit call f point side m = (fromSide call f point side >>= fun r => pure (.number r)) m₁ := by
  rw [limit_eq, Eval.bind_of_ok h]
  simp only [hy, Bool.false_eq_true, if_false]

theorem limit_cases (h : limit call f point side m = .ok (.number r) m') :
    ∃ y m₁, call f [.number point] m = .ok (.number y) m₁ ∧
      (y.isFinite = true ∧ r = y ∧ m' = m₁ ∨ y.isFinite = false ∧ fromSide call f point side m₁ = .ok r m') := by
  have hdirect := h
  rw [limit_eq, Eval.bind_eq_ok_iff] at hdirect
  obtain ⟨v, m₁, hcall, hrest⟩ := hdirect
  cases v with
  | number y =>
    refine ⟨y, m₁, hcall, ?_⟩
    cases hy : y.isFinite with
    | true =>
      rw [limit_of_finite hcall hy] at h
      cases h
      exact .inl ⟨rfl, rfl, rfl⟩
    | false =>
      rw [limit_of_not_isFinite hcall hy, Eval.bind_eq_ok_iff] at h
      obtain ⟨r', m₂, hside, hr⟩ := h
      cases hr
      exact .inr ⟨rfl, hside⟩
  | _ => cases hrest

end Steps

/-! ## all calls -/

section Calls

variable (call : Value φ → List (Value φ) → Eval φ (Value φ)) (f : Value φ)

/-- The calls of the next `n` probes return numbers, as long as no result settles the limit. -/
def ProbesNumbers (place : ExtRat → ExtRat) : ℕ → ExtRat → Option Trend → Machine φ → Prop
  | 0, _, _, _ => True
  | n + 1, gap, trend, m =>
    ∃ y m₁, call f [.number (place gap)] m = .ok (.number y) m₁ ∧
      ∀ t, judge trend y = .ok t → ProbesNumbers place n (gap.mul shrink) (some t) (m₁.note (.probe gap y))

/-- The calls of the probes from a side, or first from the left and then from the right, return numbers. -/
def SideNumbers (point : ExtRat) : Approach → Machine φ → Prop
  | .left, m => ProbesNumbers call f point.sub probes firstGap none m
  | .right, m => ProbesNumbers call f point.add probes firstGap none m
  | .both, m =>
    ProbesNumbers call f point.sub probes firstGap none m ∧
      ∀ left m₁, fromLeft call f point m = .ok left m₁ → ProbesNumbers call f point.add probes firstGap none m₁

/-- The calls that a limit makes all return numbers: the one at the point, and those of the probes if there are any. -/
def AnswersNumbers (point : ExtRat) (side : Approach) (m : Machine φ) : Prop :=
  ∃ y m₁, call f [.number point] m = .ok (.number y) m₁ ∧ (y.isFinite = false → SideNumbers call f point side m₁)

variable {call f}

theorem exists_approach_iff {place : ExtRat → ExtRat} {n : ℕ} {gap : ExtRat} {trend : Option Trend} {m : Machine φ} :
    (∃ r m', approach call f place n gap trend m = .ok r m') ↔ ProbesNumbers call f place n gap trend m := by
  induction n generalizing gap trend m with
  | zero =>
    refine ⟨fun _ => trivial, fun _ => ?_⟩
    cases trend with
    | none => exact ⟨_, _, rfl⟩
    | some t => exact ⟨_, _, rfl⟩
  | succ n ih =>
    constructor
    · rintro ⟨r, m', h⟩
      obtain ⟨y, m₁, hcall⟩ := exists_call_of_approach h
      refine ⟨y, m₁, hcall, ?_⟩
      intro t ht
      rw [approach_of_call hcall, ht] at h
      exact ih.1 ⟨r, m', h⟩
    · rintro ⟨y, m₁, hcall, hrest⟩
      rw [approach_of_call hcall]
      cases hjudge : judge trend y with
      | error settled => exact ⟨_, _, rfl⟩
      | ok t => exact ih.2 (hrest t hjudge)

theorem exists_fromSide_iff {point : ExtRat} {side : Approach} {m : Machine φ} :
    (∃ r m', fromSide call f point side m = .ok r m') ↔ SideNumbers call f point side m := by
  cases side with
  | left => exact exists_approach_iff
  | right => exact exists_approach_iff
  | both =>
    constructor
    · rintro ⟨r, m', h⟩
      obtain ⟨left, m₁, hleft, hrest⟩ := Eval.bind_eq_ok_iff.1 h
      refine ⟨exists_approach_iff.1 ⟨left, m₁, hleft⟩, ?_⟩
      intro left' m₂ hleft'
      obtain ⟨rfl, rfl⟩ : left = left' ∧ m₁ = m₂ := by simpa [hleft] using hleft'
      obtain ⟨right, m₃, hright, -⟩ := Eval.bind_eq_ok_iff.1 hrest
      exact exists_approach_iff.1 ⟨right, m₃, hright⟩
    · rintro ⟨hleft, hright⟩
      obtain ⟨left, m₁, hleft⟩ := exists_approach_iff.2 hleft
      obtain ⟨right, m₂, hright⟩ := exists_approach_iff.2 (hright left m₁ hleft)
      exact ⟨_, m₂, Eval.bind_eq_ok_iff.2 ⟨left, m₁, hleft, Eval.bind_eq_ok_iff.2 ⟨right, m₂, hright, rfl⟩⟩⟩

/-- **The limit is a number if and only if all calls that it makes return numbers.** -/
theorem exists_limit_iff {point : ExtRat} {side : Approach} {m : Machine φ} :
    (∃ r m', limit call f point side m = .ok (.number r) m') ↔ AnswersNumbers call f point side m := by
  constructor
  · rintro ⟨r, m', h⟩
    obtain ⟨y, m₁, hcall, ⟨hy, -⟩ | ⟨-, hside⟩⟩ := limit_cases h
    · exact ⟨y, m₁, hcall, fun hn => absurd hn (by simp [hy])⟩
    · exact ⟨y, m₁, hcall, fun _ => exists_fromSide_iff.1 ⟨r, m', hside⟩⟩
  · rintro ⟨y, m₁, hcall, hrest⟩
    cases hy : y.isFinite with
    | true => exact ⟨_, _, limit_of_finite hcall hy⟩
    | false =>
      obtain ⟨r, m', hside⟩ := exists_fromSide_iff.2 (hrest hy)
      exact ⟨r, m', (limit_of_not_isFinite hcall hy).trans (Eval.bind_of_ok hside)⟩

end Calls

/-! ## functions that return numbers -/

section Computing

variable (cx : Context φ) (f : Value φ) (g : ExtRat → ExtRat)

/-- What happens to a machine while `f` is probed: a call of `f`, or a note. -/
def Passes (m m' : Machine φ) : Prop :=
  (∃ n x v, callValue cx n f [.number x] m = .ok v m') ∨ ∃ event, m' = m.note event

/-- `f` returns `g x` for every number `x`, at once and after any number of calls of it and notes. -/
def Computes (m : Machine φ) : Prop :=
  ∀ m', Relation.ReflTransGen (Passes cx f) m m' → ∀ x : ExtRat, x.Canonical →
    ∃ n m'', callValue cx n f [.number x] m' = .ok (.number (g x)) m''

variable {cx f g} {m m' : Machine φ}

theorem Passes.depth_eq (h : Passes cx f m m') : m'.depth = m.depth := by
  rcases h with ⟨n, x, v, h⟩ | ⟨event, rfl⟩
  · exact depth_of_callValue (congrArg Outcome.machine? h)
  · rfl

/-- It is enough to call `f` from all machines at one depth. -/
theorem computes_of_depth (h : ∀ m' : Machine φ, m'.depth = m.depth → ∀ x : ExtRat, x.Canonical →
    ∃ n m'', callValue cx n f [.number x] m' = .ok (.number (g x)) m'') : Computes cx f g m := by
  intro m' hpasses
  refine h m' ?_
  induction hpasses with
  | refl => rfl
  | tail _ hpass ih => rw [hpass.depth_eq, ih]

theorem Computes.of_passes (h : Computes cx f g m) (hm : Passes cx f m m') : Computes cx f g m' :=
  fun m'' hpass => h m'' (.head hm hpass)

theorem Computes.note (h : Computes cx f g m) (event : Event φ) : Computes cx f g (m.note event) :=
  h.of_passes (.inr ⟨event, rfl⟩)

/-- A call gives the number with all fuel from some amount on, and goes on giving it. -/
theorem Computes.call (h : Computes cx f g m) {x : ExtRat} (hx : x.Canonical) :
    ∃ m' k, (∀ n, k ≤ n → callValue cx n f [.number x] m = .ok (.number (g x)) m') ∧ Computes cx f g m' := by
  obtain ⟨k, m', hcall⟩ := h m .refl x hx
  refine ⟨m', k, ?_, h.of_passes (.inl ⟨k, x, _, hcall⟩)⟩
  intro n hn
  exact (callValue_follows_callValue (.refl cx) le_rfl hn f _).of_unlessStopped hcall nofun nofun

end Computing

end Limit

/-- With all fuel from some amount on, the limit is the number `r`. -/
def Interpreter.HasLimit (i : Interpreter φ) (f : Value φ) (point : ExtRat) (side : Approach) (m : Machine φ) (r : ExtRat) :
    Prop := ∃ m' k, ∀ n, k ≤ n → i.limit n f point side m = .ok (.number r) m'

theorem Interpreter.HasLimit.unique {i : Interpreter φ} {f : Value φ} {point : ExtRat} {side : Approach} {m : Machine φ}
    {r r' : ExtRat} (h : i.HasLimit f point side m r) (h' : i.HasLimit f point side m r') : r = r' := by
  obtain ⟨m₁, k, hlimit⟩ := h
  obtain ⟨m₂, k', hlimit'⟩ := h'
  have hsame := (hlimit (max k k') (le_max_left k k')).symm.trans (hlimit' (max k k') (le_max_right k k'))
  cases hsame
  rfl

end RatCalc
