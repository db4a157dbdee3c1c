import RatCalc.Proofs.Number.Fractions
import Mathlib.Algebra.Order.Round
import Mathlib.Order.Bounds.Basic

/-!
# Remainders and rounding

* `IsRemainder` — a remainder on the side of its divisor; `isRemainder_iff` — there is one, and no other;
* `isGreatest_floor`, `isLeast_ceil` — the integers on both sides of a fraction;
* `IsNearest` — the nearest integer, a half going away from zero; `isNearest_floor`, `IsNearest.neg` — found above zero,
  and below it by symmetry;
* `rounding_laws` — the operations on numbers compute them.
-/

namespace RatCalc

/-! ## remainders -/

/-- `m` is what a whole multiple of `y` leaves of `x`, and lies between zero and `y`. -/
structure IsRemainder (x y m : ℚ) : Prop where
  whole : ∃ n : ℤ, (x - m) / y = n
  of_pos : 0 < y → 0 ≤ m ∧ m < y
  of_neg : y < 0 → y < m ∧ m ≤ 0

section Remainder

variable {x y m : ℚ}

/-- Measured by the divisor, a remainder is a fractional part, whatever the sign. -/
theorem between_iff (hy : y ≠ 0) :
    ((0 < y → 0 ≤ m ∧ m < y) ∧ (y < 0 → y < m ∧ m ≤ 0)) ↔ 0 ≤ m / y ∧ m / y < 1 := by
  rcases hy.lt_or_gt with hneg | hpos
  · have hle : 0 ≤ m / y ↔ m ≤ 0 := by rw [le_div_iff_of_neg hneg, zero_mul]
    have hlt : m / y < 1 ↔ y < m := by rw [div_lt_iff_of_neg hneg, one_mul]
    simp only [hneg, hneg.not_gt, hle, hlt, false_implies, true_implies, true_and, and_comm]
  · have hle : 0 ≤ m / y ↔ 0 ≤ m := by rw [le_div_iff₀ hpos, zero_mul]
    have hlt : m / y < 1 ↔ m < y := by rw [div_lt_iff₀ hpos, one_mul]
    simp only [hpos, hpos.not_gt, hle, hlt, false_implies, true_implies, and_true]

theorem isRemainder_iff (hy : y ≠ 0) : IsRemainder x y m ↔ m = x - y * ⌊x / y⌋ := by
  constructor
  · rintro ⟨⟨n, hn⟩, hpos, hneg⟩
    obtain ⟨hle, hlt⟩ := (between_iff hy).1 ⟨hpos, hneg⟩
    have hquotient : x / y = n + m / y := by
      rw [← hn]
      ring
    have hfloor : ⌊x / y⌋ = n := by
      rw [hquotient, Int.floor_eq_iff]
      constructor
      · linarith
      · linarith
    rw [hfloor, ← hn, mul_div_cancel₀ _ hy]
    ring
  · intro hm
    have hfract : m / y = Int.fract (x / y) := by
      rw [hm, sub_div, mul_div_cancel_left₀ _ hy, Int.self_sub_floor]
    have hside := (between_iff (m := m) hy).2 (by rw [hfract]; exact ⟨Int.fract_nonneg _, Int.fract_lt_one _⟩)
    refine ⟨⟨⌊x / y⌋, ?_⟩, hside.1, hside.2⟩
    rw [hm, sub_sub_cancel, mul_div_cancel_left₀ _ hy]

end Remainder

/-! ## floor and ceiling -/

theorem isGreatest_floor (x : ℚ) : IsGreatest {n : ℤ | (n : ℚ) ≤ x} ⌊x⌋ :=
  ⟨Int.floor_le x, fun _ hn => Int.le_floor.2 hn⟩

theorem isLeast_ceil (x : ℚ) : IsLeast {n : ℤ | x ≤ n} ⌈x⌉ := ⟨Int.le_ceil x, fun _ hn => Int.ceil_le.2 hn⟩

/-! ## the nearest integer -/

/-- No integer is nearer to `x` than `n`, and one as near as `n` is nearer to zero. -/
structure IsNearest (x : ℚ) (n : ℤ) : Prop where
  le : ∀ k : ℤ, |x - n| ≤ |x - k|
  tie : ∀ k : ℤ, k ≠ n → |x - k| = |x - n| → |k| < |n|

section Nearest

variable {x : ℚ}

theorem IsNearest.neg {n : ℤ} (h : IsNearest x n) : IsNearest (-x) (-n) := by
  have hflip : ∀ k : ℤ, |-x - k| = |x - (-k : ℤ)| := by
    intro k
    rw [← abs_neg, Int.cast_neg]
    ring_nf
  refine ⟨fun k => ?_, fun k hk htie => ?_⟩
  · rw [hflip, hflip, neg_neg]
    exact h.le (-k)
  · rw [hflip, hflip, neg_neg] at htie
    rw [← abs_neg k, abs_neg n]
    exact h.tie (-k) (fun hn => hk (by rw [← hn, neg_neg])) htie

/-- Above zero a half goes up. -/
theorem isNearest_floor (hx : 0 ≤ x) : IsNearest x ⌊x + 1 / 2⌋ := by
  rw [← round_eq]
  refine ⟨round_le x, fun k hk htie => ?_⟩
  have hhigh : x + 1 / 2 < round x + 1 := by
    rw [round_eq]
    exact Int.lt_floor_add_one _
  have hhalf : |x - round x| ≤ 1 / 2 := abs_sub_round x
  rcases lt_or_gt_of_ne hk with hbelow | habove
  · -- an integer below that is as near is not below zero
    have hdist : x - k ≤ 1 / 2 := (le_abs_self _).trans (htie.le.trans hhalf)
    have hk0 : 0 ≤ k := by
      have hk1 : (-1 : ℚ) < k := by linarith
      have hk1 : -1 < k := by exact_mod_cast hk1
      omega
    rw [abs_of_nonneg hk0, abs_of_nonneg (hk0.trans hbelow.le)]
    exact hbelow
  · -- one above is farther away
    have hk' : (round x : ℚ) + 1 ≤ k := by exact_mod_cast habove
    have hdist : (k : ℚ) - x ≤ 1 / 2 := by
      rw [← abs_sub_comm] at htie
      exact (le_abs_self _).trans (htie.le.trans hhalf)
    linarith

/-- The nearest integer, found from the side of zero. -/
def nearest (x : ℚ) : ℤ := if x < 0 then -⌊-x + 1 / 2⌋ else ⌊x + 1 / 2⌋

theorem isNearest_nearest (x : ℚ) : IsNearest x (nearest x) := by
  unfold nearest
  split
  · rename_i hneg
    have h := (isNearest_floor (neg_nonneg.2 hneg.le)).neg
    rwa [neg_neg] at h
  · rename_i hpos
    exact isNearest_floor (not_lt.1 hpos)

theorem nearest_neg (x : ℚ) : nearest (-x) = -nearest x := by
  rcases lt_trichotomy x 0 with h | rfl | h
  · simp [nearest, h, h.not_gt]
  · norm_num [nearest]
  · simp [nearest, h, h.not_gt]

end Nearest

/-! ## the operations on numbers -/

namespace ExtRat

open Extended

theorem ceil_form (x : ℚ) : (fraction x).form.ceil = ofInt ⌈x⌉ := by
  rw [ceil, neg_form, Extended.neg, floor_form, neg_form, Extended.neg, ofInt_form, Int.floor_neg]
  push_cast
  rw [neg_neg]

theorem round_form (x : ℚ) : (fraction x).form.round = ofInt (nearest x) := by
  have hhalf : (⟨1, 2⟩ : ExtRat) = (fraction (1 / 2)).form := by decide +kernel
  rw [round, isFinite_form, isNegative_form, hhalf, neg_form, Extended.neg, add_fraction_form, add_fraction_form,
    floor_form, floor_form, neg_form, Extended.neg, ofInt_form, nearest]
  by_cases h : x < 0
  · simp [h]
  · simp [h]

/-- **Remainders and rounding are exact.**  The remainder by a fraction other than zero is the only number that a whole
multiple of the divisor leaves and that lies between zero, included, and the divisor, excluded; floor and ceiling are the
greatest integer below and the least one above; and rounding gives the nearest integer, at a half the one away from zero,
so that it is odd. -/
theorem rounding_laws {a : ExtRat} {x : ℚ} (ha : a.Canonical) (hx : a.fraction? = some x) :
    (∀ b y, b.Canonical → b.fraction? = some y → y ≠ 0 →
      ∃ m, a.mod b = (fraction m).form ∧ IsRemainder x y m ∧ ∀ m', IsRemainder x y m' → m' = m) ∧
    (∃ n, a.floor = ofInt n ∧ IsGreatest {k : ℤ | (k : ℚ) ≤ x} n) ∧
    (∃ n, a.ceil = ofInt n ∧ IsLeast {k : ℤ | x ≤ (k : ℚ)} n) ∧
    (∃ n, a.round = ofInt n ∧ IsNearest x n) ∧ a.neg.round = a.round.neg := by
  obtain rfl := eq_form_of_fraction? ha hx
  refine ⟨?_, ⟨_, ?_, isGreatest_floor x⟩, ⟨_, ceil_form x, isLeast_ceil x⟩, ⟨_, round_form x, isNearest_nearest x⟩, ?_⟩
  · intro b y hb hy hne
    obtain rfl := eq_form_of_fraction? hb hy
    exact ⟨_, mod_form x hne, (isRemainder_iff hne).2 rfl, fun m' => (isRemainder_iff hne).1⟩
  · rw [floor_form, ofInt_form]
  · rw [neg_form, Extended.neg, round_form, round_form, nearest_neg]
    rfl

/-- Minus five halves by minus two thirds. -/
theorem rounding_laws_negative :
    (mk (-5) 2).Canonical ∧ (mk (-5) 2).fraction? = some (-5 / 2) ∧
    (mk (-2) 3).Canonical ∧ (mk (-2) 3).fraction? = some (-2 / 3) ∧
    (∃ m, (mk (-5) 2).mod (mk (-2) 3) = (fraction m).form ∧ IsRemainder (-5 / 2) (-2 / 3) m) ∧
    (∃ n, (mk (-5) 2).round = ofInt n ∧ IsNearest (-5 / 2) n) ∧ (mk (-5) 2).neg.round = (mk (-5) 2).round.neg := by
  have hx : (mk (-5) 2).fraction? = some (-5 / 2) := by simp [fraction?]
  have hy : (mk (-2) 3).fraction? = some (-2 / 3) := by simp [fraction?]
  obtain ⟨hmod, -, -, hround, hodd⟩ := rounding_laws (by decide) hx
  obtain ⟨m, hm, hrem, -⟩ := hmod _ _ (by decide) hy (by norm_num)
  exact ⟨by decide, hx, by decide, hy, ⟨m, hm, hrem⟩, hround, hodd⟩

example : (mk (-5) 2).mod (mk (-2) 3) = ⟨-1, 2⟩ ∧ (mk (-5) 2).round = ofInt (-3) := by decide +kernel

end ExtRat

end RatCalc
