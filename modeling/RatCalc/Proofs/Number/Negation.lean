import RatCalc.Number.Snap
import RatCalc.Proofs.Normal.Order
import RatCalc.Proofs.Number.Decimal

/-!
# Numbers with their signs changed

Changing the signs of all operands changes the sign of a sum, turns the order of fractions round, and changes the sign of
what a number is snapped to.  All this holds of pairs as they are, in lowest terms or not.
-/

namespace RatCalc.ExtRat

variable (a b : ExtRat)

@[simp] protected theorem neg_neg : a.neg.neg = a := by simp [neg]

@[simp] protected theorem abs_neg : a.neg.abs = a.abs := by simp [neg, abs]

@[simp] theorem isFinite_neg : a.neg.isFinite = a.isFinite := rfl

@[simp] theorem isUndefined_neg : a.neg.isUndefined = a.isUndefined := by
  simp only [isUndefined, neg, beq_eq_decide, neg_eq_zero]

theorem reduce_neg (n : ℤ) (d : ℕ) : reduce (-n) d = (reduce n d).neg := by
  have hdvd : (Nat.gcd n.natAbs d : ℤ) ∣ n := Int.natCast_dvd.2 (Nat.gcd_dvd_left _ _)
  simp [reduce, neg, Int.neg_ediv_of_dvd hdvd]

protected theorem add_neg : a.neg.add b.neg = (a.add b).neg := by
  have hsame : a.neg.num + b.neg.num = -(a.num + b.num) := by
    simp only [neg]
    ring
  have hcross : a.neg.num * b.den + b.neg.num * a.den = -(a.num * b.den + b.num * a.den) := by
    simp only [neg]
    ring
  unfold add
  rw [isUndefined_neg, isUndefined_neg]
  split
  · rfl
  · show (if a.den = b.den then reduce (a.neg.num + b.neg.num) a.den
      else reduce (a.neg.num * b.den + b.neg.num * a.den) (a.den * b.den)) = _
    rw [hsame, hcross, reduce_neg, reduce_neg]
    split
    · rfl
    · rfl

protected theorem sub_neg : a.neg.sub b.neg = (a.sub b).neg := ExtRat.add_neg a b.neg

/-! ## the order of fractions -/

variable {a b}

theorem den_ne_zero_of_isFinite (ha : a.isFinite = true) : a.den ≠ 0 := by simpa [isFinite] using ha

theorem magnitude_reduce (n : ℤ) {d : ℕ} (hd : d ≠ 0) : (reduce n d).magnitude = n / d := by
  rw [reduce_eq_form, denote, if_neg hd, Extended.form, magnitude, if_neg (Rat.den_ne_zero _), Rat.num_div_den]

theorem isFinite_reduce (n : ℤ) {d : ℕ} (hd : d ≠ 0) : (reduce n d).isFinite = true := by
  rw [reduce_eq_form, denote, if_neg hd]
  simp [isFinite, Extended.form]

theorem magnitude_neg (ha : a.isFinite = true) : a.neg.magnitude = -a.magnitude := by
  have hd := den_ne_zero_of_isFinite ha
  simp [magnitude, neg, hd, neg_div]

theorem isFinite_add (ha : a.isFinite = true) (hb : b.isFinite = true) : (a.add b).isFinite = true := by
  have had := den_ne_zero_of_isFinite ha
  have hbd := den_ne_zero_of_isFinite hb
  have hdefined : (a.isUndefined || b.isUndefined) = false := by simp [isUndefined, had, hbd]
  unfold add
  rw [hdefined, if_neg Bool.false_ne_true]
  split
  · exact isFinite_reduce _ had
  · exact isFinite_reduce _ (Nat.mul_ne_zero had hbd)

theorem isFinite_sub (ha : a.isFinite = true) (hb : b.isFinite = true) : (a.sub b).isFinite = true :=
  isFinite_add ha (by rwa [isFinite_neg])

theorem magnitude_sub (ha : a.isFinite = true) (hb : b.isFinite = true) :
    (a.sub b).magnitude = a.magnitude - b.magnitude := by
  have had := den_ne_zero_of_isFinite ha
  have hbd := den_ne_zero_of_isFinite hb
  have had' : (a.den : ℚ) ≠ 0 := by exact_mod_cast had
  have hbd' : (b.den : ℚ) ≠ 0 := by exact_mod_cast hbd
  have hdefined : (a.isUndefined || b.neg.isUndefined) = false := by
    rw [isUndefined_neg]
    simp [isUndefined, had, hbd]
  unfold sub add
  rw [hdefined, if_neg Bool.false_ne_true]
  split
  · rename_i hsame
    have hsame : a.den = b.den := hsame
    rw [magnitude_reduce _ had, magnitude, if_neg had, magnitude, if_neg hbd, ← hsame]
    simp only [neg]
    push_cast
    ring
  · rw [magnitude_reduce _ (Nat.mul_ne_zero had (show b.neg.den ≠ 0 from hbd)), magnitude, if_neg had, magnitude, if_neg hbd]
    simp only [neg]
    push_cast
    field_simp
    ring

theorem isZero_abs (ha : a.isFinite = true) : a.abs.isZero = true ↔ a.magnitude = 0 := by
  have hd := den_ne_zero_of_isFinite ha
  simp [isZero, abs, magnitude, hd]

theorem totalCmp_of_isFinite (ha : a.isFinite = true) (hb : b.isFinite = true) :
    a.totalCmp b = compare a.magnitude b.magnitude := by
  have htier : a.tier = b.tier := by simp [tier, den_ne_zero_of_isFinite ha, den_ne_zero_of_isFinite hb]
  rw [totalCmp_eq, htier, compare_eq_iff_eq.2 rfl, Ordering.eq_then]

theorem totalCmp_neg (ha : a.isFinite = true) (hb : b.isFinite = true) : a.neg.totalCmp b.neg = b.totalCmp a := by
  rw [totalCmp_of_isFinite (a := a.neg) (b := b.neg) ha hb, totalCmp_of_isFinite hb ha, magnitude_neg ha, magnitude_neg hb]
  rcases lt_trichotomy a.magnitude b.magnitude with h | h | h
  · rw [compare_gt_iff_gt.2 h, compare_gt_iff_gt.2 (neg_lt_neg h)]
  · rw [h, compare_eq_iff_eq.2 rfl, compare_eq_iff_eq.2 rfl]
  · rw [compare_lt_iff_lt.2 h, compare_lt_iff_lt.2 (neg_lt_neg h)]

/-! ## snapping -/

theorem snapPoint?_of_num_eq_zero (hn : a.num = 0) (hd : a.den ≠ 0) : a.snapPoint? = none := by
  have hdigits : a.snapDigits = List.replicate snapPlaces '0' := by
    simp [snapDigits, hn, Decimal.places]
    decide
  have hlt : a.num < a.den := by omega
  simp [snapPoint?, hdigits, hlt, findRun?]

/-- **Snapping is odd.** -/
theorem snap_neg (a : ExtRat) : a.neg.snap = a.snap.neg := by
  unfold snap
  rw [isFinite_neg, ExtRat.abs_neg]
  split
  · rfl
  · rename_i hfin
    split
    · rfl
    · rename_i k up hpoint
      have hn : a.num ≠ 0 := by
        intro hn
        have hnone : a.abs.snapPoint? = none := snapPoint?_of_num_eq_zero (by simp [abs, hn])
          (den_ne_zero_of_isFinite (by simpa using hfin) : a.den ≠ 0)
        simp [hnone] at hpoint
      rcases lt_or_gt_of_ne hn with hneg | hpos
      · simp [isNegative, neg, hneg, hneg.le]
      · have hflip : a.neg.isNegative = true := by simpa [isNegative, neg] using hpos
        have hkeep : a.isNegative = false := by simpa [isNegative] using hpos.le
        simp [hflip, hkeep]

end RatCalc.ExtRat
