import RatCalc.Proofs.Number.Fractions
import RatCalc.Proofs.Number.Grammar
import Mathlib.Data.Sign.Basic

/-!
# Truncated decimals

The text of a fraction cut after some places is a sign, a whole part and exactly as many places as were asked for; it
reads back as the fraction with the rest of its places dropped.

* `floor_abs_mul` — the digits of the text, taken together, are the integer part of the magnitude shifted by the places;
* `toDecimal_truncates` — the form of the text and the number that it reads back as.
-/

namespace RatCalc

open Extended

namespace Decimal

theorem floor_abs_mul (q : ℚ) (k : ℕ) : ⌊|q| * 10 ^ k⌋ = (q.num.natAbs * 10 ^ k / q.den : ℕ) := by
  have hshift : |q| * 10 ^ k = ((q.num.natAbs * 10 ^ k : ℕ) : ℚ) / q.den := by
    rw [← natAbs_num_div_den, Nat.cast_mul, Nat.cast_pow, Nat.cast_ofNat, div_mul_eq_mul_div]
  rw [hshift, Rat.floor_natCast_div_natCast, Int.natCast_div]

theorem signed_eq_sign_mul (q : ℚ) (k : ℕ) :
    (Literal.signed (q.num < 0) (q.num.natAbs * 10 ^ k / q.den) : ℚ) = SignType.sign q * ⌊|q| * 10 ^ k⌋ := by
  rw [floor_abs_mul]
  rcases lt_trichotomy q 0 with hq | rfl | hq
  · simp [Literal.signed, Rat.num_neg.2 hq, sign_neg hq]
  · simp [Literal.signed]
  · simp [Literal.signed, (Rat.num_pos.2 hq).not_gt, sign_pos hq]

end Decimal

namespace ExtRat

open Literal

theorem toDecimal_form (q : ℚ) (k : ℕ) : (fraction q).form.toDecimal k = Decimal.truncated q.num q.den k := by
  rw [toDecimal, specialName, form, if_pos q.den_nz]
  rfl

/-- **Decimals are truncated exactly.**  A fraction cut after `k` places is written with a minus exactly if it is
negative, with no zero in front of other digits, and with exactly `k` places after a point, which is left out if there are
none; the text reads back as the fraction cut toward zero after `k` places. -/
theorem toDecimal_truncates {r : ExtRat} {q : ℚ} (hr : r.Canonical) (hq : r.fraction? = some q) (k : ℕ) :
    (∃ whole places : List Char,
      (r.toDecimal k).toList = (if q < 0 then ['-'] else []) ++ whole ++ (if k = 0 then [] else '.' :: places) ∧
      Digits whole ∧ whole ≠ [] ∧ (whole.head? = some '0' → whole = ['0']) ∧ Digits places ∧ places.length = k) ∧
    read (r.toDecimal k) = .ok (fraction (SignType.sign q * ⌊|q| * 10 ^ k⌋ / 10 ^ k)).form := by
  obtain rfl := eq_form_of_fraction? hr hq
  rw [toDecimal_form]
  constructor
  · obtain ⟨whole, places, hcut, hchars⟩ := Decimal.exists_cut q.num k q.den_pos
    refine ⟨whole, places, ?_, hcut.isDigit_whole, hcut.whole_ne_nil, hcut.head_whole, hcut.isDigit_places,
      hcut.length_places⟩
    have hnil : places = [] ↔ k = 0 := by rw [← hcut.length_places, List.length_eq_zero_iff]
    rw [Decimal.truncated, String.toList_ofList, hchars]
    by_cases hneg : q < 0
    · simp [pointed, hnil, hneg]
    · simp [pointed, hnil, hneg]
  · rw [Decimal.read_truncated _ _ q.den_pos, scaled_form, Decimal.signed_eq_sign_mul, zpow_neg, zpow_natCast,
      ← div_eq_mul_inv]

/-- A third of minus one, cut after four places. -/
theorem toDecimal_truncates_third :
    (mk (-1) 3).Canonical ∧ (mk (-1) 3).fraction? = some (-1 / 3) ∧
    (∃ whole places : List Char,
      ((mk (-1) 3).toDecimal 4).toList = ['-'] ++ whole ++ '.' :: places ∧
      Digits whole ∧ whole ≠ [] ∧ (whole.head? = some '0' → whole = ['0']) ∧ Digits places ∧ places.length = 4) ∧
    read ((mk (-1) 3).toDecimal 4) = .ok (fraction (-1 * ⌊|(-1 / 3 : ℚ)| * 10 ^ 4⌋ / 10 ^ 4)).form := by
  have hr : (mk (-1) 3).Canonical := by decide
  have hq : (mk (-1) 3).fraction? = some (-1 / 3) := by simp [fraction?]
  have hneg : (-1 / 3 : ℚ) < 0 := by norm_num
  have h := toDecimal_truncates hr hq 4
  rw [if_pos hneg, sign_neg hneg] at h
  exact ⟨hr, hq, h.1, by simpa using h.2⟩

example : (mk (-1) 300).toDecimal 2 = "-0.00" ∧ read "-0.00" = .ok zero := by decide +kernel

end ExtRat

end RatCalc
