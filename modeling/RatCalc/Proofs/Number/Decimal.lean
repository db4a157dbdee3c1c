import RatCalc.Number.Decimal
import RatCalc.Number.Literal
import RatCalc.Proofs.Number.Extended
import Mathlib.Algebra.Order.Ring.Nat
import Mathlib.Data.List.TakeWhile
import Mathlib.Data.Nat.Cast.Field
import Mathlib.Data.Nat.Prime.Basic
import Mathlib.Tactic.Linarith

/-!
# Decimals as literals

* `Decimal.Cut` — the digits of a quotient that is cut after some places, before the point and after it;
* `exists_cut` — the text of a cut quotient is made of them; `read_truncated` — it reads back as the cut quotient;
* `value?_of_toExactDecimal?` — the literal of a number denotes that number;
* `Ends` — the fractions whose denominator divides a power of ten: those with a literal, by `exists_toExactDecimal?`;
* `ends_of_value?`, `Ends.add`, `Ends.mul` — the fractions of literals end, and so do their sums and products.
-/

namespace RatCalc

theorem tenPow_eq (k : ℕ) : tenPow k = 10 ^ k := rfl

namespace Literal

/-! ## digit strings -/

theorem digitsValue_append (as bs : List Char) :
    digitsValue (as ++ bs) = 10 ^ bs.length * digitsValue as + digitsValue bs := by
  have h := Nat.ofDigitChars_append (b := 10) (l := as) (m := bs) 0
  rw [Nat.ofDigitChars_eq_ofDigitChars_zero (l := bs)] at h
  exact h

theorem digitsValue_toDigits (n : ℕ) : digitsValue (Nat.toDigits 10 n) = n := Nat.ofDigitChars_ten_toDigits

theorem digitsValue_padded (k n : ℕ) : digitsValue (Decimal.padded k (Nat.toDigits 10 n)) = n := by
  have h0 : digitsValue (List.replicate (k - (Nat.toDigits 10 n).length) '0') = 0 :=
    Nat.ofDigitChars_replicate_zero.trans (Nat.mul_zero _)
  rw [Decimal.padded, digitsValue_append, h0, digitsValue_toDigits, Nat.mul_zero, Nat.zero_add]

theorem length_padded {k n : ℕ} (hk : 0 < k) (hn : n < 10 ^ k) : (Decimal.padded k (Nat.toDigits 10 n)).length = k := by
  have h := (Nat.length_toDigits_le_iff (b := 10) (by decide) hk).2 hn
  rw [Decimal.padded, List.length_append, List.length_replicate]
  omega

theorem isDigit_of_mem_toDigits {n : ℕ} {c : Char} (h : c ∈ Nat.toDigits 10 n) : c.isDigit :=
  Nat.isDigit_of_mem_toDigits (by decide) (by decide) h

theorem head?_toDigits {n : ℕ} (hn : n ≠ 0) : (Nat.toDigits 10 n).head? ≠ some '0' := by
  induction n using Nat.strong_induction_on with
  | _ n ih =>
    by_cases hlt : n < 10
    · rw [Nat.toDigits_of_lt_base hlt]
      simpa using hn
    · rw [Nat.toDigits_of_base_le (by decide) (not_lt.1 hlt), List.head?_append_of_ne_nil _ Nat.toDigits_ne_nil]
      exact ih (n / 10) (by omega) (by omega)

theorem isDigit_of_mem_padded {k n : ℕ} {c : Char} (h : c ∈ Decimal.padded k (Nat.toDigits 10 n)) : c.isDigit := by
  rcases List.mem_append.1 h with h | h
  · rw [List.eq_of_mem_replicate h]
    rfl
  · exact isDigit_of_mem_toDigits h

/-! ## reading a decimal -/

theorem ne_of_isDigit {c d : Char} (hc : c.isDigit) (hd : d.isDigit = false) : c ≠ d := by
  rintro rfl
  rw [hc] at hd
  cases hd

/-- A mantissa that starts with a digit and has no exponent mark, under a sign. -/
theorem readPlain_mantissa (negative : Bool) {c : Char} {cs : List Char} (hc : c.isDigit)
    (hcs : ∀ c' ∈ c :: cs, isExponentMark c' = false) :
    readPlain (if negative then '-' :: c :: cs else c :: cs) = readMantissa negative (c :: cs) 0 := by
  have hsplit : splitExponent (c :: cs) = .ok (c :: cs, 0) := by
    have hdrop : (c :: cs).dropWhile (!isExponentMark ·) = [] := by
      rw [List.dropWhile_eq_nil_iff]
      intro c' hc'
      simp [hcs c' hc']
    rw [splitExponent, hdrop]
  have hsign : takeSign (c :: cs) = (false, c :: cs) := by
    have h1 := ne_of_isDigit hc (show '-'.isDigit = false by decide)
    have h2 := ne_of_isDigit hc (show '+'.isDigit = false by decide)
    unfold takeSign
    split <;> simp_all
  cases negative with
  | true => simp [readPlain, takeSign, hsplit, maxExponent]
  | false => simp [readPlain, hsign, hsplit, maxExponent]

/-- No name starts with a digit, or with a sign before one. -/
theorem read_signed (negative : Bool) {c : Char} (cs : List Char) (hc : c.isDigit) :
    read (String.ofList (if negative then '-' :: c :: cs else c :: cs)) =
      readPlain (if negative then '-' :: c :: cs else c :: cs) := by
  have hne : ∀ name : String, name.toList.head? ≠ some c → (name.toList.drop 1).head? ≠ some c →
      String.ofList (if negative then '-' :: c :: cs else c :: cs) ≠ name := by
    rintro name h1 h2 rfl
    cases negative <;> simp_all
  have hI := ne_of_isDigit hc (show 'I'.isDigit = false by decide)
  have hU := ne_of_isDigit hc (show 'U'.isDigit = false by decide)
  have hp := ne_of_isDigit hc (show '+'.isDigit = false by decide)
  have hm := ne_of_isDigit hc (show '-'.isDigit = false by decide)
  have hn := ne_of_isDigit hc (show 'n'.isDigit = false by decide)
  rw [read, if_neg, if_neg, if_neg, String.toList_ofList]
  · exact hne _ (by simp [hU.symm]) (by simp [hn.symm])
  · exact hne _ (by simp [hm.symm]) (by simp [hI.symm])
  · rintro (h | h)
    · exact hne _ (by simp [hI.symm]) (by simp [hn.symm]) h
    · exact hne _ (by simp [hp.symm]) (by simp [hI.symm]) h

theorem signed_natAbs_mul (n : ℤ) (m : ℕ) : signed (n < 0) (n.natAbs * m) = n * m := by
  unfold signed
  split
  · rename_i hneg
    rw [Nat.cast_mul, Int.natCast_natAbs, abs_of_neg (of_decide_eq_true hneg), neg_mul, neg_neg]
  · rename_i hneg
    rw [Nat.cast_mul, Int.natCast_natAbs, abs_of_nonneg (not_lt.1 (by simpa using hneg))]

theorem ne_point_of_digits {cs : List Char} (h : ∀ c ∈ cs, c.isDigit) : ∀ c ∈ cs, (c != '.') = true := by
  intro c hc
  simpa using ne_of_isDigit (h c hc) (by decide)

theorem splitPoint_digits {cs : List Char} (h : ∀ c ∈ cs, c.isDigit) : splitPoint cs = (cs, []) := by
  have hall := ne_point_of_digits h
  have hdrop : cs.dropWhile (· != '.') = [] := List.dropWhile_eq_nil_iff.2 hall
  rw [splitPoint, List.takeWhile_eq_self_iff.2 hall, hdrop, List.drop_nil]

theorem splitPoint_point {as : List Char} (bs : List Char) (h : ∀ c ∈ as, c.isDigit) :
    splitPoint (as ++ '.' :: bs) = (as, bs) := by
  have hall := ne_point_of_digits h
  rw [splitPoint, List.takeWhile_append_of_pos hall, List.dropWhile_append_of_pos hall]
  simp

/-- The characters of a decimal without a sign; without places there is no point either. -/
def pointed (whole places : List Char) : List Char := whole ++ if places = [] then [] else '.' :: places

section Decimal

variable {whole places : List Char}

/-- Digits, and after a point more digits if there are any. -/
theorem readMantissa_pointed (negative : Bool) (hw : ∀ c ∈ whole, c.isDigit) (hp : ∀ c ∈ places, c.isDigit)
    (hne : whole ≠ []) :
    readMantissa negative (pointed whole places) 0 =
      .ok (scaled (signed negative (digitsValue (whole ++ places))) (-places.length)) := by
  have hsplit : splitPoint (pointed whole places) = (whole, places) := by
    unfold pointed
    split
    · rename_i h
      rw [h, List.append_nil, splitPoint_digits hw]
    · exact splitPoint_point places hw
  have hall : (whole ++ places).all Char.isDigit = true := by
    rw [List.all_append, Bool.and_eq_true]
    exact ⟨List.all_eq_true.2 hw, List.all_eq_true.2 hp⟩
  simp only [readMantissa, hsplit, hall]
  simp [hne]

theorem mem_pointed {c : Char} (h : c ∈ pointed whole places) : c ∈ whole ∨ c = '.' ∨ c ∈ places := by
  unfold pointed at h
  split at h
  · exact .inl (by simpa using h)
  · simpa using h

theorem isExponentMark_of_isDigit {c : Char} (hc : c.isDigit) : isExponentMark c = false := by
  have h1 := ne_of_isDigit hc (show 'e'.isDigit = false by decide)
  have h2 := ne_of_isDigit hc (show 'E'.isDigit = false by decide)
  simp [isExponentMark, h1, h2]

/-- A signed decimal reads as the scaled value of its digits. -/
theorem read_decimal (negative : Bool) (hw : ∀ c ∈ whole, c.isDigit) (hp : ∀ c ∈ places, c.isDigit)
    (hne : whole ≠ []) :
    read (String.ofList (if negative then '-' :: pointed whole places else pointed whole places)) =
      .ok (scaled (signed negative (digitsValue (whole ++ places))) (-places.length)) := by
  have hmark : ∀ c ∈ pointed whole places, isExponentMark c = false := by
    intro c hc
    rcases mem_pointed hc with hc | rfl | hc
    · exact isExponentMark_of_isDigit (hw c hc)
    · decide
    · exact isExponentMark_of_isDigit (hp c hc)
  have hread := readMantissa_pointed negative hw hp hne
  obtain ⟨w, ws, rfl⟩ := List.exists_cons_of_ne_nil hne
  obtain ⟨cs, hcs⟩ : ∃ cs, pointed (w :: ws) places = w :: cs := ⟨_, List.cons_append⟩
  have hdigit : w.isDigit := hw w (by simp)
  rw [hcs] at hmark hread ⊢
  rw [read_signed negative cs hdigit, readPlain_mantissa negative hdigit hmark, hread]

end Decimal

end Literal

/-! ## the text of a quotient -/

theorem Numeral.chars_natCast (n : ℕ) : Numeral.chars (n : ℤ) = Nat.toDigits 10 n := by
  simp [Numeral.chars]

namespace Decimal

open Literal

/-- Whole part and places of a quotient, put together. -/
theorem quotient_places (m k : ℕ) {d : ℕ} (hd : 0 < d) :
    10 ^ k * (m / d) + m % d * 10 ^ k / d = m * 10 ^ k / d := by
  have h : m * 10 ^ k = d * (10 ^ k * (m / d)) + m % d * 10 ^ k := by
    conv_lhs => rw [← Nat.div_add_mod m d]
    ring
  rw [h, Nat.mul_add_div hd]

theorem places_natCast (r d k : ℕ) : places r d k = padded k (Nat.toDigits 10 (r * 10 ^ k / d)) := by
  rw [places, tenPow_eq, ← Nat.cast_mul, ← Int.ofNat_tdiv, Numeral.chars_natCast]

theorem whole_natCast (m d : ℕ) : Numeral.chars ((m : ℤ).tdiv d) = Nat.toDigits 10 (m / d) := by
  rw [← Int.ofNat_tdiv, Numeral.chars_natCast]

/-- The places fit into their width. -/
theorem places_lt (m k : ℕ) {d : ℕ} (hd : 0 < d) : m % d * 10 ^ k / d < 10 ^ k := by
  apply Nat.div_lt_of_lt_mul
  exact Nat.mul_lt_mul_of_pos_right (Nat.mod_lt _ hd) (Nat.pow_pos (by decide))

/-- What `m / d` is cut to after `k` places: the digits before the point, with no zero in front of others, and those after
it. -/
structure Cut (m d k : ℕ) (whole places : List Char) : Prop where
  isDigit_whole : ∀ c ∈ whole, c.isDigit
  whole_ne_nil : whole ≠ []
  head_whole : whole.head? = some '0' → whole = ['0']
  isDigit_places : ∀ c ∈ places, c.isDigit
  length_places : places.length = k
  value : digitsValue (whole ++ places) = m * 10 ^ k / d

theorem cut_digits (m k : ℕ) {d : ℕ} (hd : 0 < d) :
    Cut m d k (Nat.toDigits 10 (m / d)) (if k = 0 then [] else padded k (Nat.toDigits 10 (m % d * 10 ^ k / d))) := by
  have hwhole : (Nat.toDigits 10 (m / d)).head? = some '0' → Nat.toDigits 10 (m / d) = ['0'] := by
    intro h
    have h0 : m / d = 0 := by_contra fun hne => head?_toDigits hne h
    rw [h0, Nat.toDigits_zero]
  refine ⟨fun c hc => isDigit_of_mem_toDigits hc, Nat.toDigits_ne_nil, hwhole, ?_, ?_, ?_⟩
  · split
    · simp
    · exact fun c hc => isDigit_of_mem_padded hc
  · split
    · rename_i hk
      exact hk.symm
    · rename_i hk
      exact length_padded (Nat.pos_of_ne_zero hk) (places_lt m k hd)
  · split
    · rename_i hk
      rw [List.append_nil, digitsValue_toDigits, hk, pow_zero, mul_one]
    · rename_i hk
      rw [digitsValue_append, length_padded (Nat.pos_of_ne_zero hk) (places_lt m k hd), digitsValue_toDigits,
        digitsValue_padded, quotient_places _ _ hd]

theorem exists_cut (n : ℤ) (k : ℕ) {d : ℕ} (hd : 0 < d) :
    ∃ whole places, Cut n.natAbs d k whole places ∧
      truncatedChars n d k = if n < 0 then '-' :: pointed whole places else pointed whole places := by
  have hcut := cut_digits n.natAbs k hd
  refine ⟨_, _, hcut, ?_⟩
  rw [truncatedChars, whole_natCast, ← Int.ofNat_tmod, places_natCast]
  by_cases hk : k = 0
  · simp [pointed, hk]
  · have hne := List.ne_nil_of_length_pos (hcut.length_places ▸ Nat.pos_of_ne_zero hk)
    rw [if_neg hk] at hne
    simp [pointed, hk, hne]

/-- **Cut text reads back.**  Reading `n / d` cut after `k` places gives the quotient rounded toward zero there. -/
theorem read_truncated (n : ℤ) (k : ℕ) {d : ℕ} (hd : 0 < d) :
    read (truncated n d k) = .ok (scaled (signed (n < 0) (n.natAbs * 10 ^ k / d)) (-k)) := by
  obtain ⟨whole, places, hcut, hchars⟩ := exists_cut n k hd
  have h := read_decimal (n < 0) hcut.isDigit_whole hcut.isDigit_places hcut.whole_ne_nil
  rw [hcut.value, hcut.length_places] at h
  rw [truncated, hchars]
  simpa using h

/-! ## expansions that end -/

theorem eq_pow_mul_takeOut (p n : ℕ) : n = p ^ (takeOut p n).1 * (takeOut p n).2 := by
  fun_induction takeOut p n with
  | case1 n h k rest hrec ih =>
    rw [hrec] at ih
    rw [pow_succ', mul_assoc, ← ih, Nat.mul_div_cancel' (Nat.dvd_of_mod_eq_zero h.2.2)]
  | case2 n h => rw [pow_zero, one_mul]

theorem not_dvd_takeOut {p n : ℕ} (hp : 1 < p) (hn : n ≠ 0) : ¬ p ∣ (takeOut p n).2 := by
  fun_induction takeOut p n with
  | case1 n h k rest hrec ih =>
    rw [hrec] at ih
    exact ih (Nat.div_ne_zero_iff.2 ⟨by omega, Nat.le_of_dvd (by omega) (Nat.dvd_of_mod_eq_zero h.2.2)⟩)
  | case2 n h =>
    intro hdvd
    exact h ⟨hp, hn, Nat.mod_eq_zero_of_dvd hdvd⟩

/-- What is left of a divisor of a power of ten once its twos and fives are out. -/
theorem takeOut_of_dvd_tenPow {d k : ℕ} (h : d ∣ 10 ^ k) : (takeOut 5 (takeOut 2 d).2).2 = 1 := by
  have hd : d ≠ 0 := by
    rintro rfl
    exact absurd (Nat.eq_zero_of_zero_dvd h) (by positivity)
  have e2 := eq_pow_mul_takeOut 2 d
  have e5 := eq_pow_mul_takeOut 5 (takeOut 2 d).2
  have hrest : (takeOut 2 d).2 ≠ 0 := by
    intro h0
    rw [h0, mul_zero] at e2
    exact hd e2
  have n2 := not_dvd_takeOut (p := 2) (by decide) hd
  have n5 := not_dvd_takeOut (p := 5) (by decide) hrest
  have hdvd : (takeOut 5 (takeOut 2 d).2).2 ∣ (takeOut 2 d).2 := Dvd.intro_left _ e5.symm
  have c2 : Nat.Coprime (takeOut 5 (takeOut 2 d).2).2 2 :=
    ((Nat.Prime.coprime_iff_not_dvd Nat.prime_two).2 fun h' => n2 (h'.trans hdvd)).symm
  have c5 : Nat.Coprime (takeOut 5 (takeOut 2 d).2).2 5 :=
    ((Nat.Prime.coprime_iff_not_dvd (by decide)).2 n5).symm
  have c10 : Nat.Coprime (takeOut 5 (takeOut 2 d).2).2 (10 ^ k) := (Nat.Coprime.mul_right c2 c5).pow_right k
  exact c10.eq_one_of_dvd ((hdvd.trans (Dvd.intro_left _ e2.symm)).trans h)

theorem exists_placesNeeded? {d k : ℕ} (h : d ∣ 10 ^ k) : ∃ j, placesNeeded? d = some j :=
  ⟨_, if_pos (takeOut_of_dvd_tenPow h)⟩

theorem dvd_of_placesNeeded? {d k : ℕ} (h : placesNeeded? d = some k) : d ∣ 10 ^ k := by
  have e2 := eq_pow_mul_takeOut 2 d
  have e5 := eq_pow_mul_takeOut 5 (takeOut 2 d).2
  simp only [placesNeeded?, Option.ite_none_right_eq_some, Option.some.injEq] at h
  obtain ⟨h1, rfl⟩ := h
  rw [h1, mul_one] at e5
  rw [e5] at e2
  calc d = 2 ^ (takeOut 2 d).1 * 5 ^ (takeOut 5 (takeOut 2 d).2).1 := e2
    _ ∣ 2 ^ max (takeOut 2 d).1 (takeOut 5 (takeOut 2 d).2).1 * 5 ^ max (takeOut 2 d).1 (takeOut 5 (takeOut 2 d).2).1 :=
      mul_dvd_mul (pow_dvd_pow 2 (le_max_left _ _)) (pow_dvd_pow 5 (le_max_right _ _))
    _ = 10 ^ max (takeOut 2 d).1 (takeOut 5 (takeOut 2 d).2).1 := (mul_pow 2 5 _).symm

end Decimal

/-! ## literals of fractions -/

namespace ExtRat

open Extended

theorem ofInt_form (n : ℤ) : ofInt n = (fraction n).form := by simp [ofInt, form]

theorem isFinite_iff {r : ExtRat} (h : r.Canonical) : r.isFinite = true ↔ ∃ q, r = (fraction q).form := by
  constructor
  · intro hfin
    have hd : r.den ≠ 0 := by simpa [isFinite] using hfin
    refine ⟨r.num / r.den, ?_⟩
    conv_lhs => rw [← form_denote h, denote, if_neg hd]
  · rintro ⟨q, rfl⟩
    simp [isFinite, form]

end ExtRat

namespace Literal

open Extended

/-- A digit string with an exponent denotes a fraction. -/
theorem scaled_form (n k : ℤ) : scaled n k = (fraction (n * 10 ^ k)).form := by
  unfold scaled
  split
  · rename_i hk
    obtain ⟨j, rfl⟩ := Int.eq_ofNat_of_zero_le hk
    rw [ExtRat.ofInt_form, tenPow_eq]
    simp
  · rename_i hk
    obtain ⟨j, hj⟩ := Int.eq_ofNat_of_zero_le (show 0 ≤ -k by omega)
    obtain rfl : k = -j := by omega
    rw [ExtRat.reduce_eq_form, tenPow_eq, ExtRat.denote, if_neg (by simp)]
    simp [div_eq_mul_inv]

theorem value?_eq_some_iff {text : String} {r : ExtRat} : value? text = some r ↔ read text = .ok r := by
  unfold value?
  cases read text <;> simp [Except.toOption]

/-- A literal is one of the names, or digits and an exponent. -/
theorem read_cases {text : String} {r : ExtRat} (h : value? text = some r) :
    r = .infinity ∨ r = .negInfinity ∨ r = .undefined ∨ ∃ n k : ℤ, r = scaled n k := by
  have hread := value?_eq_some_iff.1 h
  have hmantissa : ∀ negative cs k, readMantissa negative cs k = .ok r → ∃ n k : ℤ, r = scaled n k := by
    intro negative cs k hok
    simp only [readMantissa] at hok
    split at hok
    · cases hok
    · split at hok
      · cases hok
      · exact ⟨_, _, (Except.ok.inj hok).symm⟩
  have hplain : ∀ cs, readPlain cs = .ok r → ∃ n k : ℤ, r = scaled n k := by
    intro cs hok
    simp only [readPlain] at hok
    split at hok
    · cases hok
    · split at hok
      · cases hok
      · split at hok
        · cases hok
        · exact hmantissa _ _ _ hok
  unfold read at hread
  split at hread
  · exact .inl (Except.ok.inj hread).symm
  · split at hread
    · exact .inr (.inl (Except.ok.inj hread).symm)
    · split at hread
      · exact .inr (.inr (.inl (Except.ok.inj hread).symm))
      · exact .inr (.inr (.inr (hplain _ hread)))

theorem canonical_value? {text : String} {r : ExtRat} (h : value? text = some r) : r.Canonical := by
  rcases read_cases h with rfl | rfl | rfl | ⟨n, k, rfl⟩
  · decide
  · decide
  · decide
  · rw [scaled_form]
    exact canonical_form _

/-- A fraction whose decimal expansion ends. -/
def Ends (q : ℚ) : Prop := ∃ k, q.den ∣ 10 ^ k

theorem Ends.add {p q : ℚ} (hp : Ends p) (hq : Ends q) : Ends (p + q) := by
  obtain ⟨j, hj⟩ := hp
  obtain ⟨k, hk⟩ := hq
  refine ⟨j + k, (Rat.add_den_dvd p q).trans ?_⟩
  rw [pow_add]
  exact mul_dvd_mul hj hk

theorem Ends.mul {p q : ℚ} (hp : Ends p) (hq : Ends q) : Ends (p * q) := by
  obtain ⟨j, hj⟩ := hp
  obtain ⟨k, hk⟩ := hq
  refine ⟨j + k, (Rat.mul_den_dvd p q).trans ?_⟩
  rw [pow_add]
  exact mul_dvd_mul hj hk

theorem ends_intCast (n : ℤ) : Ends n := ⟨0, by simp⟩

theorem ends_zpow_ten (k : ℤ) : Ends (10 ^ k) := by
  rcases Int.eq_nat_or_neg k with ⟨j, rfl | rfl⟩
  · have h := ends_intCast (10 ^ j)
    simpa using h
  · refine ⟨j, ?_⟩
    have h := Rat.den_dvd 1 (10 ^ j)
    rw [Rat.divInt_eq_div, Int.cast_one, Int.cast_pow, one_div, ← zpow_natCast, ← zpow_neg] at h
    exact_mod_cast h

/-- The fraction of a literal ends. -/
theorem ends_of_value? {text : String} {q : ℚ} (h : value? text = some (fraction q).form) : Ends q := by
  have hnot : ∀ x : Extended, (∀ q, x ≠ fraction q) → (fraction q).form ≠ x.form := by
    intro x hx he
    exact hx q (form_injective he).symm
  rcases read_cases h with h | h | h | ⟨n, k, h⟩
  · exact absurd h (hnot .infinity (by simp))
  · exact absurd h (hnot .negInfinity (by simp))
  · exact absurd h (hnot .undefined (by simp))
  · rw [scaled_form] at h
    obtain rfl : q = n * 10 ^ k := by simpa using form_injective h
    exact (ends_intCast n).mul (ends_zpow_ten k)

end Literal

namespace ExtRat

open Extended Literal

/-- **Whole text reads back.** -/
theorem value?_of_terminating? {q : ℚ} {text : String} (h : Decimal.terminating? q.num q.den = some text) :
    value? text = some (fraction q).form := by
  have hd : ¬ (q.den : ℤ) ≤ 0 := by
    have := q.den_pos
    omega
  rw [Decimal.terminating?, if_neg hd, Int.toNat_natCast] at h
  obtain ⟨k, hk, rfl⟩ := Option.map_eq_some_iff.1 h
  have hdvd : q.den ∣ 10 ^ k := Decimal.dvd_of_placesNeeded? hk
  -- no digit is cut off
  have hexact : signed (q.num < 0) (q.num.natAbs * 10 ^ k / q.den) = q.num * (10 ^ k / q.den : ℕ) := by
    rw [Nat.mul_div_assoc _ hdvd, signed_natAbs_mul]
  have hvalue : ((q.num * (10 ^ k / q.den : ℕ) : ℤ) : ℚ) * 10 ^ (-k : ℤ) = q := by
    have h10 : (10 : ℚ) ^ k ≠ 0 := by positivity
    have hq : (q.den : ℚ) ≠ 0 := by exact_mod_cast q.den_nz
    rw [Int.cast_mul, Int.cast_natCast, Nat.cast_div hdvd hq, Nat.cast_pow, Nat.cast_ofNat, zpow_neg, zpow_natCast]
    conv_rhs => rw [← Rat.num_div_den q]
    field_simp
  rw [value?, Decimal.read_truncated _ _ q.den_pos, hexact, scaled_form, hvalue]
  rfl

/-- The literal of a number denotes it. -/
theorem value?_of_toExactDecimal? {r : ExtRat} {text : String} (hr : r.Canonical) (h : r.toExactDecimal? = some text) :
    value? text = some r := by
  obtain ⟨x, rfl⟩ := canonical_iff.1 hr
  cases x with
  | fraction q =>
    apply value?_of_terminating?
    simpa [toExactDecimal?, specialName, form] using h
  | infinity =>
    obtain rfl : "Infinity" = text := by simpa [toExactDecimal?, specialName, form, infinity] using h
    decide
  | negInfinity =>
    obtain rfl : "-Infinity" = text := by simpa [toExactDecimal?, specialName, form, negInfinity] using h
    decide
  | undefined =>
    obtain rfl : "Undefined" = text := by simpa [toExactDecimal?, specialName, form, undefined] using h
    decide

/-- A fraction that ends has a literal. -/
theorem exists_toExactDecimal? {q : ℚ} (h : Ends q) : ∃ text, (fraction q).form.toExactDecimal? = some text := by
  obtain ⟨k, hk⟩ := h
  obtain ⟨j, hj⟩ := Decimal.exists_placesNeeded? hk
  have hd : q.den ≠ 0 := q.den_nz
  refine ⟨Decimal.truncated q.num q.den j, ?_⟩
  simp [toExactDecimal?, specialName, form, Decimal.terminating?, hd, hj]

end ExtRat

end RatCalc
