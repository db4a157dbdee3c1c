import RatCalc.Expr.Basic
import RatCalc.Proofs.Number.Grammar

/-!
# Exact decimals

The expansion of a fraction ends if and only if its denominator has no prime factor besides two and five.  The text of
the whole expansion reads back as the fraction, and no decimal with fewer places does.

* `Literal.HasPlaces` — decimals without an exponent, and the number of their places;
* `HasPlaces.den_dvd`, `HasPlaces.den_dvd_of_getLast?` — the denominator of a decimal, in terms of its places;
* `Decimal.placesNeeded?_eq_none_iff`, `Decimal.placesNeeded?_le` — when the places end, and that none can be spared;
* `ExtRat.toExactDecimal?_exact` — the three facts together, for all numbers.
-/

namespace RatCalc

open Extended

/-! ## decimals and their places -/

namespace Literal

/-- A decimal without an exponent, and how many digits stand after its point. -/
def HasPlaces (text : String) (p : ℕ) : Prop :=
  ∃ s ms σ n, IsSign s σ ∧ IsMantissa ms n p ∧ text = String.ofList (s ++ ms)

theorem read_places {s ms : List Char} {σ : ℤ} {n p : ℕ} (hs : IsSign s σ) (hm : IsMantissa ms n p) :
    read (String.ofList (s ++ ms)) = .ok (fraction ((σ * n : ℤ) / 10 ^ p)).form := by
  have hdenotes := Denotes.decimal hs hm .missing (by decide)
  rw [List.append_nil] at hdenotes
  rw [read_eq_ok_iff.2 hdenotes, zero_sub, zpow_neg, zpow_natCast, ← div_eq_mul_inv]
  push_cast
  rfl

theorem den_dvd_tenPow (n : ℤ) (p : ℕ) : ((n : ℚ) / 10 ^ p).den ∣ 10 ^ p := by
  have h := Rat.den_dvd n (10 ^ p)
  rw [Rat.divInt_eq_div, Int.cast_pow, Int.cast_ofNat] at h
  exact_mod_cast h

variable {text : String} {p : ℕ} {r : ExtRat}

/-- Shifted by its places, a decimal is an integer. -/
theorem HasPlaces.den_dvd (h : HasPlaces text p) (hread : read text = .ok r) : r.den ∣ 10 ^ p := by
  obtain ⟨s, ms, σ, n, hs, hm, rfl⟩ := h
  rw [read_places hs hm] at hread
  obtain rfl := Except.ok.inj hread
  exact den_dvd_tenPow _ p

/-- A zero at the end counts for nothing. -/
theorem HasPlaces.den_dvd_of_getLast? (h : HasPlaces text (p + 1)) (hlast : text.toList.getLast? = some '0')
    (hread : read text = .ok r) : r.den ∣ 10 ^ p := by
  obtain ⟨s, ms, σ, n, hs, hm, rfl⟩ := h
  rw [read_places hs hm] at hread
  obtain rfl := Except.ok.inj hread
  generalize hp : p + 1 = q at hm
  cases hm with
  | whole => omega
  | @pointed as bs _ _ _ =>
    have hbs : bs ≠ [] := by
      rintro rfl
      simp at hp
    obtain ⟨cs, c, rfl⟩ := (List.eq_nil_or_concat' bs).resolve_left hbs
    obtain rfl : c = '0' := by
      rw [String.toList_ofList, ← List.cons_append, ← List.append_assoc, ← List.append_assoc, List.getLast?_concat] at hlast
      exact Option.some.inj hlast
    have hvalue : Nat.ofDigitChars 10 (as ++ (cs ++ ['0'])) 0 = 10 * Nat.ofDigitChars 10 (as ++ cs) 0 := by
      rw [← List.append_assoc]
      exact digitsValue_append (as ++ cs) ['0']
    have hshift : ((σ * Nat.ofDigitChars 10 (as ++ (cs ++ ['0'])) 0 : ℤ) : ℚ) / 10 ^ (p + 1) =
        ((σ * Nat.ofDigitChars 10 (as ++ cs) 0 : ℤ) : ℚ) / 10 ^ p := by
      rw [hvalue, pow_succ]
      push_cast
      field_simp
    show Rat.den _ ∣ _
    rw [← hp, hshift]
    exact den_dvd_tenPow _ p

end Literal

namespace Decimal

open Literal

theorem hasPlaces_truncated (n : ℤ) (k : ℕ) {d : ℕ} (hd : 0 < d) : HasPlaces (truncated n d k) k := by
  obtain ⟨whole, places, hcut, hchars⟩ := exists_cut n k hd
  have hm := isMantissa_pointed hcut.isDigit_whole hcut.isDigit_places hcut.whole_ne_nil
  rw [hcut.length_places] at hm
  rw [truncated, hchars]
  split
  · exact ⟨['-'], _, -1, _, .minus, hm, rfl⟩
  · exact ⟨[], _, 1, _, .missing, hm, rfl⟩

/-! ## how many places there are -/

/-- Twos and fives are the only prime factors of a denominator whose expansion ends. -/
theorem placesNeeded?_eq_none_iff {d : ℕ} (hd : d ≠ 0) :
    placesNeeded? d = none ↔ ∃ p, p.Prime ∧ p ∣ d ∧ p ≠ 2 ∧ p ≠ 5 := by
  constructor
  · intro h
    have e2 := eq_pow_mul_takeOut 2 d
    have e5 := eq_pow_mul_takeOut 5 (takeOut 2 d).2
    have hrest : (takeOut 2 d).2 ≠ 0 := by
      intro h0
      rw [h0, mul_zero] at e2
      exact hd e2
    have hne : (takeOut 5 (takeOut 2 d).2).2 ≠ 1 := by
      intro h1
      simp [placesNeeded?, h1] at h
    -- a prime factor of what is left is neither two nor five
    obtain ⟨p, hp, hdvd⟩ := Nat.exists_prime_and_dvd hne
    have hdvd2 : p ∣ (takeOut 2 d).2 := hdvd.trans (Dvd.intro_left _ e5.symm)
    refine ⟨p, hp, hdvd2.trans (Dvd.intro_left _ e2.symm), ?_, ?_⟩
    · rintro rfl
      exact not_dvd_takeOut (by decide) hd hdvd2
    · rintro rfl
      exact not_dvd_takeOut (by decide) hrest hdvd
  · rintro ⟨p, hp, hdvd, h2, h5⟩
    cases h : placesNeeded? d with
    | none => rfl
    | some k =>
      have h10 : p ∣ 2 * 5 := hp.dvd_of_dvd_pow (hdvd.trans (dvd_of_placesNeeded? h))
      rcases (Nat.Prime.dvd_mul hp).1 h10 with h' | h'
      · exact absurd ((Nat.prime_dvd_prime_iff_eq hp Nat.prime_two).1 h') h2
      · exact absurd ((Nat.prime_dvd_prime_iff_eq hp Nat.prime_five).1 h') h5

/-- No place can be spared. -/
theorem placesNeeded?_le {d k j : ℕ} (h : placesNeeded? d = some k) (hj : d ∣ 10 ^ j) : k ≤ j := by
  have e2 := eq_pow_mul_takeOut 2 d
  have e5 := eq_pow_mul_takeOut 5 (takeOut 2 d).2
  simp only [placesNeeded?, Option.ite_none_right_eq_some, Option.some.injEq] at h
  obtain ⟨-, rfl⟩ := h
  have hten : 10 ^ j = 2 ^ j * 5 ^ j := mul_pow 2 5 j
  rw [hten] at hj
  have h2 : 2 ^ (takeOut 2 d).1 ∣ 2 ^ j := by
    have hcoprime : Nat.Coprime (2 ^ (takeOut 2 d).1) (5 ^ j) := Nat.Coprime.pow _ _ (by decide)
    exact hcoprime.dvd_of_dvd_mul_right ((Dvd.intro _ e2.symm).trans hj)
  have h5 : 5 ^ (takeOut 5 (takeOut 2 d).2).1 ∣ 5 ^ j := by
    have hcoprime : Nat.Coprime (5 ^ (takeOut 5 (takeOut 2 d).2).1) (2 ^ j) := Nat.Coprime.pow _ _ (by decide)
    have hd : 5 ^ (takeOut 5 (takeOut 2 d).2).1 ∣ d := (Dvd.intro _ e5.symm).trans (Dvd.intro_left _ e2.symm)
    exact hcoprime.dvd_of_dvd_mul_left (hd.trans hj)
  exact max_le ((Nat.pow_dvd_pow_iff_le_right (by decide)).1 h2) ((Nat.pow_dvd_pow_iff_le_right (by decide)).1 h5)

end Decimal

/-! ## the text of a number -/

namespace ExtRat

open Literal

theorem toExactDecimal?_of_isFinite {r : ExtRat} (hfin : r.isFinite = true) :
    r.toExactDecimal? = (Decimal.placesNeeded? r.den).map (Decimal.truncated r.num r.den) := by
  have hd : r.den ≠ 0 := by simpa [isFinite] using hfin
  simp [toExactDecimal?, specialName, Decimal.terminating?, hd]

theorem exists_text_of_not_isFinite {r : ExtRat} (hfin : r.isFinite = false) : ∃ text, r.toExactDecimal? = some text := by
  have hd : r.den = 0 := by simpa [isFinite] using hfin
  rw [toExactDecimal?, specialName, if_neg (not_not.2 hd)]
  split
  · exact ⟨_, rfl⟩
  · rename_i h
    split at h
    · cases h
    · split at h <;> cases h

/-- Only fractions with other prime factors than two and five in their denominator have no exact text. -/
theorem toExactDecimal?_eq_none_iff (r : ExtRat) :
    r.toExactDecimal? = none ↔ r.isFinite = true ∧ ∃ p, p.Prime ∧ p ∣ r.den ∧ p ≠ 2 ∧ p ≠ 5 := by
  cases hfin : r.isFinite with
  | true =>
    have hd : r.den ≠ 0 := by simpa [isFinite] using hfin
    rw [toExactDecimal?_of_isFinite hfin, Option.map_eq_none_iff, Decimal.placesNeeded?_eq_none_iff hd]
    simp
  | false =>
    obtain ⟨text, htext⟩ := exists_text_of_not_isFinite hfin
    simp [htext]

/-- The text of a fraction is as short as a decimal can be. -/
theorem places_of_toExactDecimal? {r : ExtRat} {text : String} (hr : r.Canonical) (hfin : r.isFinite = true)
    (h : r.toExactDecimal? = some text) :
    ∃ p, HasPlaces text p ∧ (0 < p → text.toList.getLast? ≠ some '0') ∧
      ∀ text' p', HasPlaces text' p' → read text' = .ok r → p ≤ p' := by
  have hread : read text = .ok r := value?_eq_some_iff.1 (value?_of_toExactDecimal? hr h)
  rw [toExactDecimal?_of_isFinite hfin] at h
  obtain ⟨k, hk, rfl⟩ := Option.map_eq_some_iff.1 h
  have hd : 0 < r.den := Nat.pos_of_ne_zero (by simpa [isFinite] using hfin)
  have hplaces := Decimal.hasPlaces_truncated r.num k hd
  refine ⟨k, hplaces, ?_, ?_⟩
  · intro hpos hlast
    obtain ⟨p, rfl⟩ := Nat.exists_eq_add_one_of_ne_zero hpos.ne'
    -- without the zero there would be a place less
    have hle := Decimal.placesNeeded?_le hk (hplaces.den_dvd_of_getLast? hlast hread)
    omega
  · intro text' p' hplaces' hread'
    exact Decimal.placesNeeded?_le hk (hplaces'.den_dvd hread')

/-- **Exact text round-trips.**  A number has no exact text exactly if it is a fraction whose denominator has a prime
factor besides two and five.  The text of any other number reads back as that number, as does the literal made of it; a
fraction's text does not end in a zero after the point, and no decimal with fewer places reads as the fraction. -/
theorem toExactDecimal?_exact (φ : Type) {r : ExtRat} (hr : r.Canonical) :
    (r.toExactDecimal? = none ↔ r.isFinite = true ∧ ∃ p, p.Prime ∧ p ∣ r.den ∧ p ≠ 2 ∧ p ≠ 5) ∧
      ∀ text, r.toExactDecimal? = some text →
        read text = .ok r ∧ (Expr.ofNumber? r : Option (Expr φ)).bind Expr.literal? = some r ∧
          (r.isFinite = true → ∃ p, HasPlaces text p ∧ (0 < p → text.toList.getLast? ≠ some '0') ∧
            ∀ text' p', HasPlaces text' p' → read text' = .ok r → p ≤ p') := by
  refine ⟨toExactDecimal?_eq_none_iff r, ?_⟩
  intro text h
  have hvalue := value?_of_toExactDecimal? hr h
  refine ⟨value?_eq_some_iff.1 hvalue, ?_, fun hfin => places_of_toExactDecimal? hr hfin h⟩
  rw [Expr.ofNumber?, h]
  exact hvalue

/-- Minus three fortieths has three places: two would do for the five, not for the eight. -/
theorem toExactDecimal?_exact_fortieths :
    (mk (-3) 40).Canonical ∧ (mk (-3) 40).toExactDecimal? = some "-0.075" ∧
      read "-0.075" = .ok (mk (-3) 40) ∧
      ∃ p, HasPlaces "-0.075" p ∧ (0 < p → "-0.075".toList.getLast? ≠ some '0') ∧
        ∀ text' p', HasPlaces text' p' → read text' = .ok (mk (-3) 40) → p ≤ p' := by
  have hr : (mk (-3) 40).Canonical := by decide
  have htext : (mk (-3) 40).toExactDecimal? = some "-0.075" := by decide +kernel
  obtain ⟨hread, -, hplaces⟩ := (toExactDecimal?_exact Empty hr).2 _ htext
  exact ⟨hr, htext, hread, hplaces rfl⟩

end ExtRat

end RatCalc
