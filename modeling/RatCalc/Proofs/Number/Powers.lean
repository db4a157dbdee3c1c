import RatCalc.Proofs.Number.Fractions

/-!
# Integer powers

A power raises numerator and denominator apart and cancels once; a product of factors cancels after each of them.  Both
come to the same pair, since cancelling a factor first changes no product.

* `reduce_mul_reduce` — cancelling first, for all pairs, those with denominator zero too;
* `reduce_pow` — the product of equal factors, by induction on their number;
* `powInt_laws` — powers as products, as reciprocals, and their sum of exponents.
-/

namespace RatCalc

namespace Extended

theorem infinityOf_mul_side (s t : ℚ) : infinityOf (s * (infinityOf t).side) = infinityOf (s * t) := by
  rcases lt_trichotomy t 0 with ht | rfl | ht
  · have hneg : s * t = s * -1 * -t := by ring
    rw [infinityOf_of_neg ht, hneg, infinityOf_mul_pos _ (neg_pos.2 ht)]
    rfl
  · simp [side]
  · rw [infinityOf_of_pos ht, infinityOf_mul_pos s ht]
    simp [side]

end Extended

namespace ExtRat

open Extended

/-! ## cancelling early -/

/-- Pairs multiply as what they stand for does. -/
theorem denote_mul (m n : ℤ) (c d : ℕ) :
    denote ⟨m * n, c * d⟩ = (denote ⟨m, c⟩).mul (denote ⟨n, d⟩) := by
  by_cases hc : c = 0
  · subst hc
    by_cases hd : d = 0
    · subst hd
      simp only [denote, Nat.zero_mul, if_true, infinityOf_mul, infinityOf_mul_side, Int.cast_mul]
    · have hd' : (0 : ℚ) < (d : ℚ)⁻¹ := by positivity
      simp only [denote, Nat.zero_mul, if_true, hd, if_false, infinityOf_mul, side, Int.cast_mul]
      rw [div_eq_mul_inv, ← mul_assoc, infinityOf_mul_pos _ hd']
  · by_cases hd : d = 0
    · subst hd
      have hc' : (0 : ℚ) < (c : ℚ)⁻¹ := by positivity
      simp only [denote, Nat.mul_zero, if_true, hc, if_false, mul_infinityOf, side, Int.cast_mul]
      rw [div_eq_mul_inv, mul_right_comm, infinityOf_mul_pos _ hc']
    · simp only [denote, Nat.mul_eq_zero, hc, hd, or_self, if_false, Extended.mul]
      push_cast
      rw [div_mul_div_comm]

theorem reduce_mul_reduce (m n : ℤ) (c d : ℕ) : (reduce m c).mul (reduce n d) = reduce (m * n) (c * d) := by
  rw [reduce_eq_form, reduce_eq_form, mul_form, ← denote_mul, ← reduce_eq_form]

variable {r : ExtRat}

theorem reduce_pow (hr : r.Canonical) (e : ℕ) : reduce (r.num ^ e) (r.den ^ e) = (·.mul r)^[e] one := by
  induction e with
  | zero =>
    rw [pow_zero, pow_zero]
    rfl
  | succ e ih =>
    have hmul := reduce_mul_reduce (r.num ^ e) r.num (r.den ^ e) r.den
    rw [reduce_of_canonical hr] at hmul
    rw [Function.iterate_succ_apply', ← ih, hmul, pow_succ, pow_succ]

/-! ## powers -/

theorem powInt_of_neg (r : ExtRat) {e : ℤ} (he : e < 0) : r.powInt e = (r.powInt (-e)).recip := by
  have hpos : ¬ -e < 0 := by omega
  rw [powInt, if_pos he, powInt, if_neg hpos, Int.natAbs_neg]

/-- **Powers are repeated products.**  The power with an exponent of 64 bits is the product of that many factors, on all
numbers, one being the empty product; with a negative exponent it is the reciprocal of the opposite power; and for
fractions other than zero, powers multiply by adding their exponents. -/
theorem powInt_laws (hr : r.Canonical) :
    (∀ e : ℕ, e < 2 ^ 64 → r.powInt e = (·.mul r)^[e] one) ∧
    (∀ e : ℤ, -2 ^ 64 < e → e < 0 → r.powInt e = (r.powInt (-e)).recip) ∧
    (r.isFinite = true → r ≠ zero → ∀ a b : ℤ, |a| < 2 ^ 64 → |b| < 2 ^ 64 → |a + b| < 2 ^ 64 →
      r.powInt (a + b) = (r.powInt a).mul (r.powInt b)) := by
  refine ⟨?_, fun e _ he => powInt_of_neg r he, ?_⟩
  · intro e he
    have hnonneg : ¬ (e : ℤ) < 0 := by omega
    rw [powInt, if_neg hnonneg, Int.natAbs_natCast, powNat_eq r he, reduce_pow hr]
  · intro hfin hzero a b ha hb hab
    obtain ⟨q, rfl⟩ := (isFinite_iff hr).1 hfin
    have hq : q ≠ 0 := by
      rintro rfl
      exact hzero rfl
    have hbits : ∀ {n : ℤ}, |n| < 2 ^ 64 → n.natAbs < Nat.pow 2 64 := by
      intro n hn
      rw [Int.abs_eq_natAbs] at hn
      exact_mod_cast hn
    rw [powInt_form hq (hbits ha), powInt_form hq (hbits hb), powInt_form hq (hbits hab), mul_form, zpow_add₀ hq]
    rfl

/-- Minus infinity to the third, and two thirds to the powers of minus five and seven. -/
theorem powInt_laws_mixed :
    negInfinity.Canonical ∧ negInfinity.powInt 3 = (·.mul negInfinity)^[3] one ∧
    (mk 2 3).Canonical ∧ (mk 2 3).powInt (-5) = ((mk 2 3).powInt 5).recip ∧
    (mk 2 3).powInt (-5 + 7) = ((mk 2 3).powInt (-5)).mul ((mk 2 3).powInt 7) := by
  have hinf : negInfinity.Canonical := by decide
  have hr : (mk 2 3).Canonical := by decide
  obtain ⟨-, hrecip, hadd⟩ := powInt_laws hr
  exact ⟨hinf, (powInt_laws hinf).1 3 (by decide), hr, hrecip (-5) (by decide) (by decide),
    hadd rfl (by decide) (-5) 7 (by decide) (by decide) (by decide)⟩

end ExtRat

end RatCalc
