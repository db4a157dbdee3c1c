import RatCalc.Proofs.Limit.Probes

/-!
# Limits at poles

At its pole `c / (x - a) ^ k` is infinite.  Each probe is ten times closer than the one before, so its result is `10 ^ k`
times as large, and so is the step to it; the third probe is the first at which two steps can be compared, and it settles
the limit.

* `approach_of_growing` — three results whose steps grow settle a limit;
* `pole_form`, `steps_of_pole` — the results of a pole, and the steps between them;
* `approach_pole`, `fromRight_pole`, `fromLeft_pole` — the limit from one side;
* `Interpreter.limits_of_pole` — the limits from the right, from the left, and from both sides.
-/

namespace RatCalc

open ExtRat Extended

variable {φ : Type} [Foreign φ]

namespace Limit

/-! ## growing results -/

/-- **Two steps that grow settle a limit** at the third probe, whatever comes after it. -/
theorem approach_of_growing {call : Value φ → List (Value φ) → Eval φ (Value φ)} {f : Value φ} {place : ExtRat → ExtRat}
    {n : ℕ} {gap : ExtRat} {m m₁ m₂ m₃ : Machine φ} {y₀ y₁ y₂ : ℚ}
    (h₀ : call f [.number (place gap)] m = .ok (.number (fraction y₀).form) m₁)
    (h₁ : call f [.number (place (gap.mul shrink))] (m₁.note (.probe gap (fraction y₀).form)) =
      .ok (.number (fraction y₁).form) m₂)
    (h₂ : call f [.number (place ((gap.mul shrink).mul shrink))] (m₂.note (.probe (gap.mul shrink) (fraction y₁).form)) =
      .ok (.number (fraction y₂).form) m₃)
    (hne₁ : y₁ ≠ y₀) (hne₂ : y₂ ≠ y₁) (hgrow : |y₁ - y₀| ≤ |y₂ - y₁|) :
    approach call f place (n + 3) gap none m =
      .ok (infinityOf (y₂ - y₁)).form (m₃.note (.probe ((gap.mul shrink).mul shrink) (fraction y₂).form)) := by
  rw [approach_of_call h₀, judge_first]
  dsimp only
  rw [approach_of_call h₁, judge_second hne₁]
  dsimp only
  rw [approach_of_call h₂, judge_runaway hne₂ hgrow]

/-! ## the results of a pole -/

/-- `c / (x - a) ^ k`. -/
def pole (c a : ExtRat) (k : ℤ) (x : ExtRat) : ExtRat := c.div ((x.sub a).pow (ofInt k))

theorem pow_natCast_form (x : ℚ) {k : ℕ} (hk0 : k ≠ 0) (hk : k < 2 ^ 64) :
    (fraction x).form.pow (ofInt k) = (fraction (x ^ k)).form := by
  have hk' : ((k : ℤ) : ℚ) ≠ 0 := by exact_mod_cast hk0
  rw [ofInt_form, pow_form x (Rat.den_intCast _), if_neg hk', Rat.num_intCast, powInt, if_neg (by omega), Int.natAbs_natCast,
    powNat_form x hk]

theorem distance_form (p d : ℚ) : (fraction (p + d)).form.sub (fraction p).form = (fraction d).form := by
  rw [sub_form, Extended.sub]
  simp [Extended.neg, Extended.add]

theorem add_distance_form (p d : ℚ) : (fraction p).form.add (fraction d).form = (fraction (p + 1 * d)).form := by
  rw [add_fraction_form, one_mul]

theorem sub_distance_form (p d : ℚ) : (fraction p).form.sub (fraction d).form = (fraction (p + -1 * d)).form := by
  rw [sub_form, neg_mul, one_mul]
  rfl

section Results

variable {q p : ℚ} {k : ℕ} (hk0 : k ≠ 0) (hk : k < 2 ^ 64)
include hk0 hk

theorem pole_at : pole (fraction q).form (fraction p).form k (fraction p).form = (infinityOf q).form := by
  have hzero := distance_form p 0
  rw [add_zero] at hzero
  rw [pole, hzero, pow_natCast_form 0 hk0 hk, zero_pow hk0, div_zero_form]

theorem pole_form {d : ℚ} (hd : d ≠ 0) :
    pole (fraction q).form (fraction p).form k (fraction (p + d)).form = (fraction (q / d ^ k)).form := by
  rw [pole, distance_form, pow_natCast_form d hk0 hk, div_form, Extended.div, if_neg (pow_ne_zero k hd)]

end Results

/-- At a tenth of the distance the result is `10 ^ k` times as large. -/
theorem result_shrunk (q s : ℚ) (k j : ℕ) : q / (s * (1 / 10 ^ j)) ^ k = q / s ^ k * (10 ^ k) ^ j := by
  rw [mul_pow, one_div, inv_pow, ← pow_mul, mul_comm j k, pow_mul, div_mul_eq_div_div, div_inv_eq_mul]

/-- A step, where `u` is the result at distance one and `b` is how much larger the next result is. -/
theorem step_shrunk (u b : ℚ) (j : ℕ) : u * b ^ (j + 1) - u * b ^ j = u * (b ^ j * (b - 1)) := by ring

/-- The steps between the results at a pole are not zero, grow, and go to the side of the result at distance one. -/
theorem steps_of_pole {u b : ℚ} (hu : u ≠ 0) (hb : 1 < b) (j : ℕ) :
    u * b ^ (j + 1) ≠ u * b ^ j ∧ |u * b ^ (j + 1) - u * b ^ j| ≤ |u * b ^ (j + 2) - u * b ^ (j + 1)| ∧
      infinityOf (u * b ^ (j + 1) - u * b ^ j) = infinityOf u := by
  have hb0 : 0 < b := zero_lt_one.trans hb
  have hfactor : ∀ i, 0 < b ^ i * (b - 1) := fun i => mul_pos (pow_pos hb0 i) (sub_pos.2 hb)
  refine ⟨?_, ?_, ?_⟩
  · rw [← sub_ne_zero, step_shrunk]
    exact mul_ne_zero hu (hfactor j).ne'
  · have hle : b ^ j ≤ b ^ (j + 1) := pow_le_pow_right₀ hb.le (Nat.le_succ j)
    have hb1 : 0 ≤ b - 1 := (sub_pos.2 hb).le
    rw [step_shrunk, step_shrunk, abs_mul u, abs_mul u, abs_of_pos (hfactor j), abs_of_pos (hfactor (j + 1))]
    gcongr
  · rw [step_shrunk, infinityOf_mul_pos u (hfactor j)]

/-! ## the limit from one side -/

/-- The distance of a probe. -/
def gapAt : ℕ → ExtRat
  | 0 => firstGap
  | j + 1 => (gapAt j).mul shrink

theorem gapAt_form (j : ℕ) : gapAt j = (fraction (1 / 10 ^ (j + 2))).form := by
  induction j with
  | zero => decide +kernel
  | succ j ih =>
    have hshrink : shrink = (fraction (1 / 10)).form := by decide +kernel
    rw [gapAt, ih, hshrink, mul_form, Extended.mul, one_div_mul_one_div, ← pow_succ]

section Side

variable {cx : Context φ} {f : Value φ} {m : Machine φ} {q p s : ℚ} {k : ℕ} {place : ExtRat → ExtRat}
  (hs : s ≠ 0) (hk0 : k ≠ 0) (hk : k < 2 ^ 64) (hplace : ∀ d : ℚ, place (fraction d).form = (fraction (p + s * d)).form)
  (hf : Computes cx f (pole (fraction q).form (fraction p).form k) m)
include hs hk0 hk hplace hf

/-- A probe of a pole. -/
theorem probe_pole (j : ℕ) :
    ∃ m' b, (∀ n, b ≤ n → callValue cx n f [.number (place (gapAt j))] m =
      .ok (.number (fraction (q / s ^ k * (10 ^ k) ^ (j + 2))).form) m') ∧
        Computes cx f (pole (fraction q).form (fraction p).form k)
          (m'.note (.probe (gapAt j) (fraction (q / s ^ k * (10 ^ k) ^ (j + 2))).form)) := by
  have hd : s * (1 / 10 ^ (j + 2)) ≠ 0 := mul_ne_zero hs (by positivity)
  obtain ⟨m', b, hcall, hf'⟩ := hf.call (canonical_form (fraction (p + s * (1 / 10 ^ (j + 2)))))
  simp only [pole_form hk0 hk hd, result_shrunk] at hcall
  rw [gapAt_form, hplace]
  exact ⟨m', b, hcall, hf'.note _⟩

/-- **From one side a pole has the infinity on the side of its result at distance one.** -/
theorem approach_pole (hq : q ≠ 0) :
    ∃ m' b, (∀ n, b ≤ n → approach (callValue cx n) f place probes firstGap none m = .ok (infinityOf (q / s ^ k)).form m') ∧
      Computes cx f (pole (fraction q).form (fraction p).form k) m' := by
  have hu : q / s ^ k ≠ 0 := div_ne_zero hq (pow_ne_zero k hs)
  have hb : (1 : ℚ) < 10 ^ k := one_lt_pow₀ (by norm_num) hk0
  obtain ⟨hne₁, hgrow, -⟩ := steps_of_pole hu hb 2
  obtain ⟨hne₂, -, hside⟩ := steps_of_pole hu hb 3
  obtain ⟨m₁, b₁, h₁, hf₁⟩ := probe_pole hs hk0 hk hplace hf 0
  obtain ⟨m₂, b₂, h₂, hf₂⟩ := probe_pole hs hk0 hk hplace hf₁ 1
  obtain ⟨m₃, b₃, h₃, hf₃⟩ := probe_pole hs hk0 hk hplace hf₂ 2
  refine ⟨_, max b₁ (max b₂ b₃), ?_, hf₃⟩
  intro n hn
  rw [← hside]
  exact approach_of_growing (h₁ n (by omega)) (h₂ n (by omega)) (h₃ n (by omega)) hne₁ hne₂ hgrow

end Side

section Sides

variable {cx : Context φ} {f : Value φ} {m : Machine φ} {q p : ℚ} {k : ℕ} (hq : q ≠ 0) (hk0 : k ≠ 0) (hk : k < 2 ^ 64)
  (hf : Computes cx f (pole (fraction q).form (fraction p).form k) m)
include hq hk0 hk hf

/-- From the right, the result at distance one is the coefficient. -/
theorem fromRight_pole :
    ∃ m' b, (∀ n, b ≤ n → fromRight (callValue cx n) f (fraction p).form m = .ok (infinityOf q).form m') ∧
      Computes cx f (pole (fraction q).form (fraction p).form k) m' := by
  have hside : q / 1 ^ k = q := by rw [one_pow, div_one]
  have h := approach_pole one_ne_zero hk0 hk (add_distance_form p) hf hq
  rwa [hside] at h

/-- From the left, its sign is changed if the order of the pole is odd. -/
theorem fromLeft_pole :
    ∃ m' b, (∀ n, b ≤ n → fromLeft (callValue cx n) f (fraction p).form m = .ok (infinityOf (q * (-1) ^ k)).form m') ∧
      Computes cx f (pole (fraction q).form (fraction p).form k) m' := by
  have hside : q / (-1) ^ k = q * (-1) ^ k := by rw [div_eq_mul_inv, ← inv_pow, inv_neg_one]
  have h := approach_pole (neg_ne_zero.2 one_ne_zero) hk0 hk (sub_distance_form p) hf hq
  rwa [hside] at h

end Sides

end Limit

/-! ## the limits -/

namespace ExtRat

theorem signum_form (q : ℚ) : (fraction q).form.signum = (fraction q.num.sign).form := by
  rw [signum, if_neg (by simp [isUndefined_fraction_form]), ofInt_form]
  rfl

/-- A number and its sign have products on one side. -/
theorem infinityOf_sign_mul {q : ℚ} (hq : q ≠ 0) (t : ℚ) : infinityOf ((q.num.sign : ℤ) * t) = infinityOf (q * t) := by
  rcases lt_or_gt_of_ne hq with hneg | hpos
  · rw [Int.sign_eq_neg_one_of_neg (Rat.num_neg.2 hneg), ← infinityOf_mul_pos _ (neg_pos.2 hneg)]
    congr 1
    push_cast
    ring
  · rw [Int.sign_eq_one_of_pos (Rat.num_pos.2 hpos), ← infinityOf_mul_pos _ hpos]
    congr 1
    push_cast
    ring

theorem mul_infinity_form (t : ℚ) : (fraction t).form.mul infinity = (infinityOf t).form := by
  have hinfinity : infinity = (infinityOf 1).form := by
    rw [infinityOf_of_pos one_pos]
    rfl
  rw [hinfinity, mul_form, mul_infinityOf, Extended.side, mul_one]

theorem signum_mul_infinity {q : ℚ} (hq : q ≠ 0) : (fraction q).form.signum.mul infinity = (infinityOf q).form := by
  have hsign := infinityOf_sign_mul hq 1
  rw [mul_one, mul_one] at hsign
  rw [signum_form, mul_infinity_form, hsign]

theorem signum_mul_mul_infinity {q : ℚ} (hq : q ≠ 0) (t : ℚ) :
    ((fraction q).form.signum.mul (fraction t).form).mul infinity = (infinityOf (q * t)).form := by
  rw [signum_form, mul_form, Extended.mul, mul_infinity_form, infinityOf_sign_mul hq]

end ExtRat

namespace Interpreter

variable {i : Interpreter φ} {f : Value φ} {m : Machine φ} {a c : ExtRat} {k : ℤ}

open Limit

/-- The limit from a side is the limit, where the result at the point is no fraction. -/
theorem hasLimit_of_fromSide {point y r : ExtRat} {side : Approach} {m₁ m₂ : Machine φ} {b₁ b₂ : ℕ}
    (hcall : ∀ n, b₁ ≤ n → i.call n f [.number point] m = .ok (.number y) m₁) (hy : y.isFinite = false)
    (hside : ∀ n, b₂ ≤ n → fromSide (i.call n) f point side m₁ = .ok r m₂) : i.HasLimit f point side m r := by
  refine ⟨m₂, max b₁ b₂, ?_⟩
  intro n hn
  exact (limit_of_not_isFinite (hcall n (by omega)) hy).trans (Eval.bind_of_ok (hside n (by omega)))

/-- **The limits at a pole** are infinite: from the right with the sign of the coefficient, from the left with that sign
changed if the order of the pole is odd.  From both sides there is none. -/
theorem limits_of_pole (ha : a.Canonical) (ha' : a.isFinite = true) (hc : c.Canonical) (hc' : c.isFinite = true)
    (hc0 : c.isZero = false) (hk : 1 ≤ k) (hk' : k < 2 ^ 64) (hf : Computes i.context f (pole c a k) m) :
    i.HasLimit f a .right m (c.signum.mul .infinity) ∧
      i.HasLimit f a .left m ((c.signum.mul ((ofInt (-1)).pow (ofInt k))).mul .infinity) ∧
      i.HasLimit f a .both m .undefined := by
  obtain ⟨p, rfl⟩ := (isFinite_iff ha).1 ha'
  obtain ⟨q, rfl⟩ := (isFinite_iff hc).1 hc'
  lift k to ℕ using by omega
  have hk0 : k ≠ 0 := by omega
  have hk' : k < 2 ^ 64 := by exact_mod_cast hk'
  have hq : q ≠ 0 := by simpa [isZero_form] using hc0
  have hpower : (ofInt (-1)).pow (ofInt k) = (fraction ((-1) ^ k)).form := by
    rw [ofInt_form, pow_natCast_form _ hk0 hk', Int.cast_neg, Int.cast_one]
  rw [hpower, signum_mul_mul_infinity hq, signum_mul_infinity hq]
  obtain ⟨m₁, b₁, hcall, hf₁⟩ := hf.call ha
  rw [pole_at hk0 hk'] at hcall
  have hinfinite := not_isFinite_infinityOf q
  -- from both sides, the right one is looked at after the left one
  obtain ⟨m₂, b₂, hright, -⟩ := fromRight_pole hq hk0 hk' hf₁
  obtain ⟨m₃, b₃, hleft, hf₃⟩ := fromLeft_pole hq hk0 hk' hf₁
  obtain ⟨m₄, b₄, hright', -⟩ := fromRight_pole hq hk0 hk' hf₃
  have hboth : ∀ n, max b₃ b₄ ≤ n → fromSide (i.call n) f (fraction p).form .both m₁ = .ok .undefined m₄ := by
    intro n hn
    refine (Eval.bind_of_ok (hleft n (by omega))).trans ((Eval.bind_of_ok (hright' n (by omega))).trans ?_)
    rw [not_isFinite_infinityOf, Bool.false_and, if_neg Bool.false_ne_true]
    rfl
  exact ⟨hasLimit_of_fromSide hcall hinfinite hright, hasLimit_of_fromSide hcall hinfinite hleft,
    hasLimit_of_fromSide hcall hinfinite hboth⟩

/-- `-3/2 / (x - 1/2) ^ 3`. -/
theorem limits_of_pole_cubic :
    let i : Interpreter Empty := { top := 0 }
    let a : ExtRat := ⟨1, 2⟩
    let c : ExtRat := ⟨-3, 2⟩
    let f : Value Empty :=
      .lifted .div (.number c) (.lifted .pow (.lifted .sub (.builtin .min) (.number a)) (.number (ofInt 3)))
    a.Canonical ∧ a.isFinite = true ∧ c.Canonical ∧ c.isFinite = true ∧ c.isZero = false ∧ (1 : ℤ) ≤ 3 ∧ (3 : ℤ) < 2 ^ 64 ∧
      Computes i.context f (pole c a 3) {} ∧ i.HasLimit f a .right {} negInfinity ∧ i.HasLimit f a .left {} infinity ∧
      i.HasLimit f a .both {} .undefined := by
  intro i a c f
  have hf : Computes i.context f (pole c a 3) {} := by
    apply computes_of_depth
    rintro ⟨store, depth, notes⟩ hdepth x hx
    obtain rfl : depth = 0 := hdepth
    exact ⟨4, _, rfl⟩
  have hlimits := limits_of_pole (by decide) rfl (by decide) rfl rfl (by decide) (by decide) hf
  have hright : c.signum.mul .infinity = .negInfinity := by decide +kernel
  have hleft : (c.signum.mul ((ofInt (-1)).pow (ofInt 3))).mul .infinity = .infinity := by decide +kernel
  rw [hright, hleft] at hlimits
  exact ⟨by decide, rfl, by decide, rfl, rfl, by decide, by decide, hf, hlimits⟩

end Interpreter

end RatCalc
