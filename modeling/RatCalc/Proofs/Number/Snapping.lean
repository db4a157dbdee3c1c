import RatCalc.Proofs.Number.Negation
import RatCalc.Proofs.Number.Truncation

/-!
# Snapping

Snapping looks for the first run of zeros or nines in the places of a value.  Said in numbers: a run that starts after `s`
places means that the value, shifted by `s` places, is close to an integer, from above if the run is one of zeros and from
below if it is one of nines.  So snapping finds the coarsest decimal, apart from zero, that is close to the value.

* `digitsValue_take`, `startsRun_iff`, `findRun?_eq_some` — digit strings, their first digits and their first run;
* `ExtRat.RunAt` — a run among the places of a quotient; `snapPoint?_eq_some` — the first one is where it is cut;
* `Nears x s n` — shifted by `s` places, `x` is close to the positive integer `n`; `nears_iff_runAt` — that is a run;
* `SnapsTo`, `snap_form_iff` — what a fraction is snapped to; `SnapsTo.of_close` — a decimal with few places;
* `snap_laws` — snapping is odd, keeps the sign, and moves a value to a near decimal or not at all.
-/

namespace RatCalc

/-! ## digit strings -/

namespace Literal

variable {as bs cs : List Char}

theorem digitsValue_cons (c : Char) (cs : List Char) :
    digitsValue (c :: cs) = 10 ^ cs.length * (c.toNat - 48) + digitsValue cs := by
  have hone : digitsValue [c] = c.toNat - 48 := by simp [digitsValue]
  rw [← List.singleton_append, digitsValue_append, hone]

theorem digitsValue_lt (h : Digits cs) : digitsValue cs < 10 ^ cs.length := by
  induction cs with
  | nil => simp [digitsValue]
  | cons c cs ih =>
    have hdigit := (Char.isDigit_iff_toNat.1 (h c (by simp))).2
    have htail : digitsValue cs < 10 ^ cs.length := ih fun d hd => h d (by simp [hd])
    have hhead : c.toNat - 48 ≤ 9 := by
      simp at hdigit
      omega
    rw [digitsValue_cons, List.length_cons, pow_succ]
    calc 10 ^ cs.length * (c.toNat - 48) + digitsValue cs
        < 10 ^ cs.length * 9 + 10 ^ cs.length := by
          have := Nat.mul_le_mul_left (10 ^ cs.length) hhead
          omega
      _ = 10 ^ cs.length * 10 := by ring

/-- Digit strings of one length are told apart by their values. -/
theorem eq_of_digitsValue_eq (has : Digits as) (hbs : Digits bs) (hlength : as.length = bs.length)
    (h : digitsValue as = digitsValue bs) : as = bs := by
  induction as generalizing bs with
  | nil => exact (List.length_eq_zero_iff.1 hlength.symm).symm
  | cons a as ih =>
    obtain ⟨b, bs, rfl⟩ := List.exists_cons_of_length_eq_add_one hlength.symm
    have hlength : as.length = bs.length := by simpa using hlength
    have ha := Char.isDigit_iff_toNat.1 (has a (by simp))
    have hb := Char.isDigit_iff_toNat.1 (hbs b (by simp))
    have has : Digits as := fun d hd => has d (by simp [hd])
    have hbs : Digits bs := fun d hd => hbs d (by simp [hd])
    have hlt := digitsValue_lt has
    have hlt' := digitsValue_lt hbs
    rw [digitsValue_cons, digitsValue_cons, ← hlength] at h
    rw [← hlength] at hlt'
    have hpos : 0 < 10 ^ as.length := Nat.pow_pos (by decide)
    have hhead : a.toNat - 48 = b.toNat - 48 := by
      have hdiv := congrArg (· / 10 ^ as.length) h
      simpa [Nat.mul_add_div hpos, Nat.div_eq_of_lt hlt, Nat.div_eq_of_lt hlt'] using hdiv
    have htail : digitsValue as = digitsValue bs := by
      rw [hhead] at h
      omega
    have hhead : a = b := by
      rw [← Char.toNat_inj]
      simp at ha hb
      omega
    rw [hhead, ih has hbs hlength htail]

theorem Digits.take (h : Digits cs) (k : ℕ) : Digits (cs.take k) := fun c hc => h c (List.mem_of_mem_take hc)

theorem Digits.drop (h : Digits cs) (k : ℕ) : Digits (cs.drop k) := fun c hc => h c (List.mem_of_mem_drop hc)

/-- The digits up to a place, and those after it. -/
theorem digitsValue_take_add (cs : List Char) {j k : ℕ} (hk : k + j ≤ cs.length) :
    digitsValue (cs.take (k + j)) = 10 ^ j * digitsValue (cs.take k) + digitsValue ((cs.drop k).take j) := by
  have hlength : ((cs.drop k).take j).length = j := by
    rw [List.length_take, List.length_drop]
    omega
  rw [List.take_add, digitsValue_append, hlength]

/-- The first digits of a string are its value with the others cut off. -/
theorem digitsValue_take (h : Digits cs) {j k : ℕ} (hk : k + j = cs.length) :
    digitsValue (cs.take k) = digitsValue cs / 10 ^ j := by
  have hsplit := digitsValue_take_add cs hk.le
  have hrest := digitsValue_lt ((h.drop k).take j)
  have hlength : ((cs.drop k).take j).length = j := by
    rw [List.length_take, List.length_drop]
    omega
  rw [hlength] at hrest
  rw [List.take_of_length_le hk.ge] at hsplit
  rw [hsplit, Nat.mul_add_div (Nat.pow_pos (by decide)), Nat.div_eq_of_lt hrest, Nat.add_zero]

/-- The value of the first digits is zero as long as only zeros lead. -/
theorem digitsValue_take_eq_zero_iff (h : Digits cs) {k : ℕ} (hk : k ≤ cs.length) :
    digitsValue (cs.take k) = 0 ↔ k ≤ (cs.takeWhile (· == '0')).length := by
  induction cs generalizing k with
  | nil =>
    obtain rfl : k = 0 := by simpa using hk
    simp [digitsValue]
  | cons c cs ih =>
    cases k with
    | zero => simp [digitsValue]
    | succ k =>
      have htail : Digits cs := fun d hd => h d (by simp [hd])
      have hrest := ih htail (k := k) (by simpa using hk)
      have hdigit := Char.isDigit_iff_toNat.1 (h c (by simp))
      have hzero : c = '0' ↔ c.toNat - 48 = 0 := by
        rw [← Char.toNat_inj]
        simp at hdigit ⊢
        omega
      rw [List.take_succ_cons, digitsValue_cons, Nat.add_eq_zero_iff, hrest, List.takeWhile_cons]
      by_cases hc : c = '0'
      · simp [hc]
      · simpa [hc] using fun hz => absurd (hzero.2 hz) hc

end Literal

/-! ## runs -/

namespace ExtRat

open Literal

section Runs

variable {cs : List Char} {nines : Bool} {i : ℕ}

/-- The digit that is repeated. -/
def runDigit (nines : Bool) : Char := if nines then '9' else '0'

/-- The value of a shortest run. -/
def runValue (nines : Bool) : ℕ := if nines then 9999 else 0

/-- A run starts where the next digits have its value. -/
theorem startsRun_iff (h : Digits cs) :
    startsRun (runDigit nines) cs = true ↔ minRun ≤ cs.length ∧ digitsValue (cs.take minRun) = runValue nines := by
  have hvalue : digitsValue (List.replicate minRun (runDigit nines)) = runValue nines := by cases nines <;> decide
  have hdigits : Digits (List.replicate minRun (runDigit nines)) := by
    intro c hc
    rw [List.eq_of_mem_replicate hc]
    cases nines <;> decide
  have hall : (cs.take minRun).all (· == runDigit nines) = true ↔ ∀ c ∈ cs.take minRun, c = runDigit nines := by simp
  rw [startsRun, Bool.and_eq_true, decide_eq_true_iff, hall]
  refine and_congr_right fun hlength => ?_
  have hlength : (cs.take minRun).length = minRun := List.length_take_of_le hlength
  constructor
  · intro hrun
    rw [List.eq_replicate_of_mem hrun, hlength, hvalue]
  · intro hrun
    rw [← hvalue] at hrun
    rw [eq_of_digitsValue_eq (h.take _) hdigits (by simpa using hlength) hrun]
    exact fun c hc => List.eq_of_mem_replicate hc

theorem findRun?_cons (c : Char) (cs : List Char) :
    findRun? (c :: cs) =
      if startsRun (runDigit false) (c :: cs) then some (0, false)
      else if startsRun (runDigit true) (c :: cs) then some (0, true)
      else (findRun? cs).map fun (i, nines) => (i + 1, nines) := rfl

theorem findRun?_eq_some (h : findRun? cs = some (i, nines)) :
    startsRun (runDigit nines) (cs.drop i) = true ∧ ∀ j < i, ∀ b, ¬ startsRun (runDigit b) (cs.drop j) = true := by
  induction cs generalizing i with
  | nil => cases h
  | cons c cs ih =>
    rw [findRun?_cons] at h
    split at h
    · rename_i hzeros
      cases h
      exact ⟨hzeros, fun j hj => absurd hj (Nat.not_lt_zero j)⟩
    rename_i hzeros
    split at h
    · rename_i hnines
      cases h
      exact ⟨hnines, fun j hj => absurd hj (Nat.not_lt_zero j)⟩
    rename_i hnines
    obtain ⟨⟨i, nines⟩, hrest, heq⟩ := Option.map_eq_some_iff.1 h
    cases heq
    obtain ⟨hrun, hfirst⟩ := ih hrest
    refine ⟨hrun, ?_⟩
    intro j hj b
    cases j with
    | zero => cases b <;> assumption
    | succ j => exact hfirst j (by omega) b

theorem findRun?_eq_none (h : findRun? cs = none) (j : ℕ) (b : Bool) : ¬ startsRun (runDigit b) (cs.drop j) = true := by
  induction cs generalizing j with
  | nil => simp [startsRun, minRun]
  | cons c cs ih =>
    rw [findRun?_cons] at h
    split at h
    · cases h
    rename_i hzeros
    split at h
    · cases h
    rename_i hnines
    cases j with
    | zero => cases b <;> assumption
    | succ j => exact ih (Option.map_eq_none_iff.1 h) j

end Runs

/-! ## the places of a quotient -/

/-- The integer part of `n / d`, shifted by `k` places. -/
def shifted (n d k : ℕ) : ℕ := n * 10 ^ k / d

/-- After `s` places of `n / d` there is a run, and the decimal that it is cut to is not zero. -/
structure RunAt (n d s : ℕ) (nines : Bool) : Prop where
  pos : 0 < shifted n d s + nines.toNat
  run : shifted n d (s + minRun) = 10 ^ minRun * shifted n d s + runValue nines

/-- The zeros that lead the expansion of a value below one. -/
def leadingZeros (r : ExtRat) : ℕ := if r.num < r.den then (r.snapDigits.takeWhile (· == '0')).length else 0

theorem snapPoint?_eq (r : ExtRat) :
    r.snapPoint? =
      (findRun? (r.snapDigits.drop r.leadingZeros)).map fun (i, nines) => (r.leadingZeros + i, nines) := rfl

section Places

variable {n d j k s : ℕ} {nines : Bool} (hd : 0 < d)

theorem snapDigits_mk (n d : ℕ) :
    (mk n d).snapDigits = Decimal.padded snapPlaces (Nat.toDigits 10 (n % d * 10 ^ snapPlaces / d)) := by
  rw [snapDigits, ← Int.natCast_mod, Decimal.places_natCast]

theorem digits_snapDigits (n d : ℕ) : Digits (mk n d).snapDigits := by
  intro c hc
  rw [snapDigits_mk] at hc
  exact isDigit_of_mem_padded hc

include hd

theorem length_snapDigits : (mk n d).snapDigits.length = snapPlaces := by
  rw [snapDigits_mk]
  exact length_padded (by decide) (Decimal.places_lt n snapPlaces hd)

/-- The whole part and the first places, taken together, are the integer part of the shifted quotient. -/
theorem shifted_eq (hk : k ≤ snapPlaces) :
    shifted n d k = 10 ^ k * (n / d) + digitsValue ((mk n d).snapDigits.take k) := by
  obtain ⟨j, hj⟩ := Nat.exists_eq_add_of_le hk
  have hlength : k + j = (mk n d).snapDigits.length := by rw [length_snapDigits hd, hj]
  have hshift : n % d * 10 ^ snapPlaces = n % d * 10 ^ k * 10 ^ j := by rw [hj, pow_add, mul_assoc]
  rw [digitsValue_take (digits_snapDigits n d) hlength, snapDigits_mk, digitsValue_padded, Nat.div_div_eq_div_mul, hshift,
    Nat.mul_div_mul_right _ _ (Nat.pow_pos (by decide)), Decimal.quotient_places n k hd]
  rfl

/-- More places. -/
theorem shifted_add (hk : k + j ≤ snapPlaces) :
    shifted n d (k + j) = 10 ^ j * shifted n d k + digitsValue (((mk n d).snapDigits.drop k).take j) := by
  rw [shifted_eq hd hk, shifted_eq hd (by omega : k ≤ snapPlaces), digitsValue_take_add _ (by rwa [length_snapDigits hd])]
  ring

theorem shifted_eq_zero_iff (hlt : n < d) (hk : k ≤ snapPlaces) : shifted n d k = 0 ↔ k ≤ (mk n d).leadingZeros := by
  have hbelow : (mk n d).num < (mk n d).den := Int.ofNat_lt.2 hlt
  rw [shifted_eq hd hk, Nat.div_eq_of_lt hlt, Nat.mul_zero, Nat.zero_add, leadingZeros, if_pos hbelow,
    digitsValue_take_eq_zero_iff (digits_snapDigits n d) (by rwa [length_snapDigits hd])]

theorem shifted_add_lt (n j k : ℕ) : shifted n d (k + j) < 10 ^ j * (shifted n d k + 1) := by
  rw [shifted, Nat.div_lt_iff_lt_mul hd, pow_add, ← mul_assoc, mul_comm _ (10 ^ j), mul_assoc]
  refine Nat.mul_lt_mul_of_pos_left ?_ (Nat.pow_pos (by decide))
  have hnext := Nat.lt_mul_div_succ (10 ^ k * n) hd
  rwa [shifted, mul_comm n, mul_comm _ d]

theorem lt_of_shifted_eq_zero (h : shifted n d k = 0) : n < d := by
  rw [shifted, Nat.div_eq_zero_iff_lt hd] at h
  exact (Nat.le_mul_of_pos_right n (Nat.pow_pos (by decide))).trans_lt h

/-- Among the zeros in front no run of nines starts, and one of zeros would leave nothing. -/
theorem leadingZeros_le (hs : s + minRun ≤ snapPlaces) (h : RunAt n d s nines) : (mk n d).leadingZeros ≤ s := by
  obtain ⟨hpos, hrun⟩ := h
  by_contra hlead
  have hlt : n < d := by
    by_contra hge
    have hbelow : ¬ (mk n d).num < (mk n d).den := fun h => hge (Int.ofNat_lt.1 h)
    rw [leadingZeros, if_neg hbelow] at hlead
    omega
  have hnext : shifted n d (s + 1) = 0 := (shifted_eq_zero_iff hd hlt (by unfold minRun at hs; omega)).2 (by omega)
  have hzero : shifted n d s = 0 := (shifted_eq_zero_iff hd hlt (by omega)).2 (by omega)
  have hsmall := shifted_add_lt hd n 3 (s + 1)
  rw [hzero] at hpos hrun
  rw [hnext] at hsmall
  cases nines with
  | false => simp at hpos
  | true =>
    have hnines : shifted n d (s + 1 + 3) = 9999 := hrun
    omega

/-- After the zeros in front, a run of zeros leaves something. -/
theorem shifted_pos_of_zeros (hs : s + minRun ≤ snapPlaces) (hlead : (mk n d).leadingZeros ≤ s)
    (hrun : shifted n d (s + minRun) = 10 ^ minRun * shifted n d s) : 0 < shifted n d s := by
  refine Nat.pos_of_ne_zero fun hzero => ?_
  have hlt := lt_of_shifted_eq_zero hd hzero
  rw [hzero, Nat.mul_zero] at hrun
  have hbeyond := (shifted_eq_zero_iff hd hlt hs).1 hrun
  unfold minRun at hbeyond
  omega

/-- **Runs of digits are runs in numbers**, once the zeros in front are left aside. -/
theorem runAt_iff (hs : s + minRun ≤ snapPlaces) :
    RunAt n d s nines ↔
      (mk n d).leadingZeros ≤ s ∧ startsRun (runDigit nines) ((mk n d).snapDigits.drop s) = true := by
  have hlength : minRun ≤ ((mk n d).snapDigits.drop s).length := by
    rw [List.length_drop, length_snapDigits hd]
    omega
  have hrun : startsRun (runDigit nines) ((mk n d).snapDigits.drop s) = true ↔
      shifted n d (s + minRun) = 10 ^ minRun * shifted n d s + runValue nines := by
    rw [startsRun_iff ((digits_snapDigits n d).drop s), shifted_add hd hs, and_iff_right hlength, Nat.add_left_cancel_iff]
  rw [hrun]
  constructor
  · exact fun h => ⟨leadingZeros_le hd hs h, h.run⟩
  · rintro ⟨hlead, hrun⟩
    refine ⟨?_, hrun⟩
    cases nines with
    | true => exact Nat.succ_pos _
    | false => exact shifted_pos_of_zeros hd hs hlead hrun

/-- **A value is cut at its first run.** -/
theorem snapPoint?_eq_some (h : (mk n d).snapPoint? = some (s, nines)) :
    s + minRun ≤ snapPlaces ∧ RunAt n d s nines ∧ ∀ t < s, ∀ b, ¬ RunAt n d t b := by
  rw [snapPoint?_eq] at h
  obtain ⟨⟨i, nines⟩, hfind, heq⟩ := Option.map_eq_some_iff.1 h
  cases heq
  obtain ⟨hrun, hfirst⟩ := findRun?_eq_some hfind
  rw [List.drop_drop] at hrun
  have hs : (mk n d).leadingZeros + i + minRun ≤ snapPlaces := by
    have hlength := ((startsRun_iff ((digits_snapDigits n d).drop _)).1 hrun).1
    rw [List.length_drop, length_snapDigits hd] at hlength
    unfold minRun at hlength ⊢
    omega
  refine ⟨hs, (runAt_iff hd hs).2 ⟨Nat.le_add_right _ _, hrun⟩, ?_⟩
  intro t ht b hrunAt
  obtain ⟨hlead, hrun⟩ := (runAt_iff hd (by omega)).1 hrunAt
  refine hfirst (t - (mk n d).leadingZeros) (by omega) b ?_
  rwa [List.drop_drop, Nat.add_sub_cancel' hlead]

theorem snapPoint?_eq_none (h : (mk n d).snapPoint? = none) (hs : s + minRun ≤ snapPlaces) (nines : Bool) :
    ¬ RunAt n d s nines := by
  rw [snapPoint?_eq, Option.map_eq_none_iff] at h
  intro hrunAt
  obtain ⟨hlead, hrun⟩ := (runAt_iff hd hs).1 hrunAt
  refine findRun?_eq_none h (s - (mk n d).leadingZeros) nines ?_
  rwa [List.drop_drop, Nat.add_sub_cancel' hlead]

end Places

end ExtRat

/-! ## near decimals -/

open Extended ExtRat

/-- Shifted by `s` places, `x` is close to the positive integer `n`. -/
structure Nears (x : ℚ) (s : ℕ) (n : ℤ) : Prop where
  pos : 0 < n
  le : n - 1 / 10 ^ minRun ≤ x * 10 ^ s
  lt : x * 10 ^ s < n + 1 / 10 ^ minRun

section Close

variable {t : ℚ} {n : ℤ}

/-- Close below an integer, the next digits are nines. -/
theorem floor_of_below (hle : n - 1 / 10 ^ minRun ≤ t) (hlt : t < n) :
    ⌊t⌋ = n - 1 ∧ ⌊t * 10 ^ minRun⌋ = 10 ^ minRun * (n - 1) + 9999 := by
  norm_num [minRun] at hle
  constructor
  · rw [Int.floor_eq_iff]
    push_cast
    constructor
    · linarith
    · linarith
  · rw [Int.floor_eq_iff, minRun]
    push_cast
    constructor
    · linarith
    · linarith

/-- Close above an integer, the next digits are zeros. -/
theorem floor_of_above (hle : n ≤ t) (hlt : t < n + 1 / 10 ^ minRun) :
    ⌊t⌋ = n ∧ ⌊t * 10 ^ minRun⌋ = 10 ^ minRun * n := by
  norm_num [minRun] at hlt
  constructor
  · rw [Int.floor_eq_iff]
    exact ⟨hle, by linarith⟩
  · rw [Int.floor_eq_iff, minRun]
    push_cast
    constructor
    · linarith
    · linarith

/-- Closeness shows in the next digits: zeros above the integer, and nines below it. -/
theorem close_iff :
    (n - 1 / 10 ^ minRun ≤ t ∧ t < n + 1 / 10 ^ minRun) ↔
      ∃ nines : Bool, n = ⌊t⌋ + nines.toNat ∧ ⌊t * 10 ^ minRun⌋ = 10 ^ minRun * ⌊t⌋ + runValue nines := by
  constructor
  · rintro ⟨hle, hlt⟩
    rcases lt_or_ge t n with hbelow | habove
    · obtain ⟨hfloor, hnext⟩ := floor_of_below hle hbelow
      exact ⟨true, by simp [hfloor], by simp [hfloor, hnext, runValue]⟩
    · obtain ⟨hfloor, hnext⟩ := floor_of_above habove hlt
      exact ⟨false, by simp [hfloor], by simp [hfloor, hnext, runValue]⟩
  · rintro ⟨nines, rfl, hrun⟩
    have hlow := Int.floor_le t
    have hhigh := Int.lt_floor_add_one t
    rw [Int.floor_eq_iff, minRun] at hrun
    cases nines with
    | false =>
      simp [runValue, minRun] at hrun ⊢
      constructor
      · linarith
      · linarith
    | true =>
      simp [runValue, minRun] at hrun ⊢
      constructor
      · linarith
      · linarith

end Close

/-- **Being close to an integer is a run.** -/
theorem nears_iff_runAt {q : ℚ} {s : ℕ} {n : ℤ} :
    Nears |q| s n ↔ ∃ nines : Bool, n = shifted q.num.natAbs q.den s + nines.toNat ∧ RunAt q.num.natAbs q.den s nines := by
  have hfloor : ∀ k, ⌊|q| * 10 ^ k⌋ = shifted q.num.natAbs q.den k := Decimal.floor_abs_mul q
  have hclose : (n - 1 / 10 ^ minRun ≤ |q| * 10 ^ s ∧ |q| * 10 ^ s < n + 1 / 10 ^ minRun) ↔ _ := close_iff
  rw [mul_assoc, ← pow_add, hfloor, hfloor] at hclose
  constructor
  · rintro ⟨hpos, hle, hlt⟩
    obtain ⟨nines, rfl, hrun⟩ := hclose.1 ⟨hle, hlt⟩
    exact ⟨nines, rfl, by exact_mod_cast hpos, by exact_mod_cast hrun⟩
  · rintro ⟨nines, hn, hpos, hrun⟩
    obtain ⟨hle, hlt⟩ := hclose.2 ⟨nines, hn, by exact_mod_cast hrun⟩
    refine ⟨?_, hle, hlt⟩
    rw [hn]
    exact_mod_cast hpos

section Near

variable {x : ℚ} {s : ℕ} {n k : ℤ}

theorem Nears.ne_zero (h : Nears x s n) : x ≠ 0 := by
  rintro rfl
  have hle := h.le
  have hpos : (1 : ℚ) ≤ n := by exact_mod_cast h.pos
  norm_num [minRun] at hle
  linarith

/-- At most one integer is close. -/
theorem Nears.unique (hn : Nears x s n) (hk : Nears x s k) : n = k := by
  have hdist : ∀ {a b : ℤ}, Nears x s a → Nears x s b → a < b + 1 := by
    intro a b ha hb
    have hlt : (a : ℚ) - 1 / 10 ^ minRun < b + 1 / 10 ^ minRun := ha.le.trans_lt hb.lt
    norm_num [minRun] at hlt
    have hlt : (a : ℚ) < b + 1 := by linarith
    exact_mod_cast hlt
  exact le_antisymm (Int.lt_add_one_iff.1 (hdist hn hk)) (Int.lt_add_one_iff.1 (hdist hk hn))

/-- The decimal is as close to the value as the integer is to the shifted one. -/
theorem Nears.abs_sub_le (h : Nears x s n) : |n / 10 ^ s - x| ≤ 1 / 10 ^ (s + minRun) := by
  have hpow : (0 : ℚ) < 10 ^ s := by positivity
  have hshift : n / 10 ^ s - x = (n - x * 10 ^ s) / 10 ^ s := by field_simp
  have hclose : |n - x * 10 ^ s| ≤ 1 / 10 ^ minRun := by
    rw [abs_le]
    constructor
    · linarith [h.lt]
    · linarith [h.le]
  rw [hshift, abs_div, abs_of_pos hpow, pow_add, mul_comm (10 ^ s : ℚ), ← div_div]
  exact div_le_div_of_nonneg_right hclose hpow.le

/-- Shifted values are apart as far as the distance is shifted. -/
theorem abs_shift_sub_lt {v e : ℚ} (h : |x - v| < e) (t : ℕ) : |x * 10 ^ t - v * 10 ^ t| < e * 10 ^ t := by
  have hpow : (0 : ℚ) < 10 ^ t := by positivity
  rw [← sub_mul, abs_mul, abs_of_pos hpow]
  exact mul_lt_mul_of_pos_right h hpow

theorem Nears.of_close {v : ℚ} (hn : 0 < n) (hv : v * 10 ^ s = n)
    (hclose : |x - v| < 1 / 10 ^ (s + minRun)) : Nears x s n := by
  have hshift := abs_shift_sub_lt hclose s
  have hscale : (1 : ℚ) / 10 ^ (s + minRun) * 10 ^ s = 1 / 10 ^ minRun := by
    rw [pow_add]
    field_simp
  rw [hv, hscale, abs_lt] at hshift
  refine ⟨hn, ?_, ?_⟩
  · linarith
  · linarith

/-- Next to a decimal with few places, and no fewer than `s`, there is none with fewer. -/
theorem not_nears_of_close {v : ℚ} {t : ℕ} (hs : s ≤ 3) (hv : v * 10 ^ s = n) (ht : t < s)
    (hfewer : v * 10 ^ t ≠ k) (hclose : |x - v| < 1 / 10 ^ (s + minRun)) : ¬ Nears x t k := by
  intro hk
  obtain ⟨j, rfl⟩ := Nat.exists_eq_add_of_lt ht
  have hb : (10 : ℚ) ^ (j + 1) ≤ 10 ^ 3 := pow_le_pow_right₀ (by norm_num) (by omega)
  have hshift : |x * 10 ^ t - v * 10 ^ t| < 1 / 10 ^ 5 := by
    refine (abs_shift_sub_lt hclose t).trans_le ?_
    rw [div_mul_eq_mul_div, one_mul, div_le_div_iff₀ (by positivity) (by positivity), one_mul, ← pow_add]
    exact pow_le_pow_right₀ (by norm_num) (by unfold minRun; omega)
  have hgap : |v * 10 ^ t - k| < 1 / 10 ^ 3 := by
    have hle := hk.le
    have hlt := hk.lt
    norm_num [minRun, abs_lt] at hle hlt hshift ⊢
    constructor
    · linarith
    · linarith
  have hinteger : ((n - k * 10 ^ (j + 1) : ℤ) : ℚ) = (v * 10 ^ t - k) * 10 ^ (j + 1) := by
    push_cast
    rw [← hv]
    ring
  have hsmall : |((n - k * 10 ^ (j + 1) : ℤ) : ℚ)| < 1 := by
    rw [hinteger, abs_mul, abs_of_pos (by positivity : (0 : ℚ) < 10 ^ (j + 1))]
    calc |v * 10 ^ t - k| * 10 ^ (j + 1) < 1 / 10 ^ 3 * 10 ^ (j + 1) := mul_lt_mul_of_pos_right hgap (by positivity)
      _ ≤ 1 / 10 ^ 3 * 10 ^ 3 := by gcongr
      _ = 1 := by norm_num
  have hzero : n - k * 10 ^ (j + 1) = 0 := Int.abs_lt_one_iff.1 (by exact_mod_cast hsmall)
  rw [hzero, Int.cast_zero, eq_comm, mul_eq_zero, sub_eq_zero] at hinteger
  exact hfewer (hinteger.resolve_right (by positivity))

end Near

/-! ## what values are snapped to -/

/-- What a fraction is snapped to: the coarsest decimal that its magnitude is close to, under its sign, or itself. -/
inductive SnapsTo (q : ℚ) : ℚ → Prop
  | near {s : ℕ} {n : ℤ} (hs : s + minRun ≤ snapPlaces) (hnear : Nears |q| s n)
      (hfirst : ∀ t < s, ∀ k, ¬ Nears |q| t k) : SnapsTo q (SignType.sign q * (n / 10 ^ s))
  | far (hfar : ∀ s, s + minRun ≤ snapPlaces → ∀ n, ¬ Nears |q| s n) : SnapsTo q q

namespace SnapsTo

variable {q p p' : ℚ}

theorem unique (h : SnapsTo q p) (h' : SnapsTo q p') : p = p' := by
  cases h with
  | @near s n hs hnear hfirst =>
    cases h' with
    | @near s' n' hs' hnear' hfirst' =>
      obtain rfl : s = s' := by
        refine le_antisymm (not_lt.1 fun hlt => hfirst s' hlt n' hnear') (not_lt.1 fun hlt => hfirst' s hlt n hnear)
      rw [hnear.unique hnear']
    | far hfar => exact absurd hnear (hfar s hs n)
  | far hfar =>
    cases h' with
    | @near s' n' hs' hnear' hfirst' => exact absurd hnear' (hfar s' hs' n')
    | far => rfl

theorem sign_eq (h : SnapsTo q p) : SignType.sign p = SignType.sign q := by
  cases h with
  | @near s n hs hnear hfirst =>
    have hpos : (0 : ℚ) < n / 10 ^ s := by
      have hn : (0 : ℚ) < n := by exact_mod_cast hnear.pos
      positivity
    rcases lt_trichotomy q 0 with hq | rfl | hq
    · simp [sign_neg hq, sign_pos hpos, Left.sign_neg]
    · simp
    · simp [sign_pos hq, sign_pos hpos]
  | far => rfl

/-- A value that moves goes to a decimal that is closer to it than four places beyond the last of the decimal. -/
theorem eq_or_near (h : SnapsTo q p) :
    p = q ∨ ∃ s ≤ snapPlaces - minRun, (∃ n : ℤ, p * 10 ^ s = n) ∧ |p - q| ≤ 1 / 10 ^ (s + minRun) := by
  cases h with
  | @near s n hs hnear hfirst =>
    have hq : q ≠ 0 := fun h0 => hnear.ne_zero (by rw [h0, abs_zero])
    have hsign : |(SignType.sign q : ℚ)| = 1 := by
      rcases lt_or_gt_of_ne hq with hneg | hpos
      · simp [sign_neg hneg]
      · simp [sign_pos hpos]
    have hfactor : SignType.sign q * (n / 10 ^ s : ℚ) - q = SignType.sign q * (n / 10 ^ s - |q|) := by
      rw [mul_sub, sign_mul_abs]
    refine .inr ⟨s, by omega, ⟨SignType.sign q * n, ?_⟩, ?_⟩
    · push_cast
      field_simp
    · rw [hfactor, abs_mul, hsign, one_mul]
      exact hnear.abs_sub_le
  | far => exact .inl rfl

/-- **A decimal with few places is found again** from a value that is closer to it than four places beyond its last. -/
theorem of_close {s : ℕ} {n : ℤ} (hs : s ≤ 3) (hn : n ≠ 0) (hp : p * 10 ^ s = n)
    (hleast : ∀ t < s, ∀ k : ℤ, p * 10 ^ t ≠ k) (hclose : |q - p| < 1 / 10 ^ (s + minRun)) : SnapsTo q p := by
  have hpow : (0 : ℚ) < 10 ^ s := by positivity
  have habs : |p| * 10 ^ s = (|n| : ℤ) := by rw [← abs_of_pos hpow, ← abs_mul, hp, Int.cast_abs]
  have hsign : SignType.sign q = SignType.sign p := by
    have hone : (1 : ℚ) ≤ |p| * 10 ^ s := by
      rw [habs]
      exact_mod_cast Int.one_le_abs hn
    have hlarge : |q - p| < |p| := by
      refine hclose.trans_le ((div_le_div_of_nonneg_left one_pos.le hpow ?_).trans ((div_le_iff₀ hpow).2 hone))
      exact pow_le_pow_right₀ (by norm_num) (Nat.le_add_right _ _)
    rw [abs_lt] at hlarge
    rcases lt_trichotomy p 0 with hneg | rfl | hpos
    · rw [abs_of_neg hneg] at hlarge
      rw [sign_neg hneg, sign_neg (by linarith)]
    · simp at hlarge
      linarith
    · rw [abs_of_pos hpos] at hlarge
      rw [sign_pos hpos, sign_pos (by linarith)]
  have hleast : ∀ t < s, ∀ k : ℤ, |p| * 10 ^ t ≠ k := by
    intro t ht k hk
    rcases abs_choice p with h | h
    · exact hleast t ht k (by rw [← hk, h])
    · exact hleast t ht (-k) (by rw [Int.cast_neg, ← hk, h, neg_mul, neg_neg])
  have hclose : |(|q| - |p|)| < 1 / 10 ^ (s + minRun) := (abs_abs_sub_abs_le q p).trans_lt hclose
  have hsnap := SnapsTo.near (by unfold minRun snapPlaces; omega) (.of_close (abs_pos.2 hn) habs hclose) fun t ht k =>
    not_nears_of_close hs habs ht (hleast t ht k) hclose
  rwa [← habs, mul_div_assoc, div_self hpow.ne', mul_one, hsign, sign_mul_abs] at hsnap

end SnapsTo

theorem cutAt_form (n d k : ℕ) (up : Bool) :
    (ExtRat.mk n d).cutAt k up = (fraction ((shifted n d k + up.toNat : ℕ) / 10 ^ k)).form := by
  have hnum : ((n : ℤ) * tenPow k / d + if up then 1 else 0) = (shifted n d k + up.toNat : ℕ) := by
    rw [shifted, tenPow_eq]
    cases up <;> simp
  have hden : tenPow k ≠ 0 := by rw [tenPow_eq]; positivity
  rw [cutAt, hnum, reduce_eq_form, denote, if_neg hden, tenPow_eq]
  push_cast
  rfl

theorem snapsTo_snap (q : ℚ) : ∃ p, (fraction q).form.snap = (fraction p).form ∧ SnapsTo q p := by
  have habs : (fraction q).form.abs = ExtRat.mk q.num.natAbs q.den := rfl
  rw [snap, isFinite_form, Bool.not_true, if_neg Bool.false_ne_true, habs]
  cases hpoint : (ExtRat.mk q.num.natAbs q.den).snapPoint? with
  | none =>
    refine ⟨q, rfl, .far ?_⟩
    intro s hs n hnear
    obtain ⟨nines, -, hrun⟩ := nears_iff_runAt.1 hnear
    exact snapPoint?_eq_none q.den_pos hpoint hs nines hrun
  | some point =>
    obtain ⟨s, nines⟩ := point
    obtain ⟨hs, hrun, hfirst⟩ := snapPoint?_eq_some q.den_pos hpoint
    have hnear : Nears |q| s (shifted q.num.natAbs q.den s + nines.toNat : ℕ) :=
      nears_iff_runAt.2 ⟨nines, by push_cast; rfl, hrun⟩
    refine ⟨_, ?_, .near hs hnear ?_⟩
    · rcases lt_trichotomy q 0 with hneg | rfl | hpos
      · simp only [isNegative_form, hneg, decide_true, if_true, cutAt_form, neg_form, Extended.neg, sign_neg hneg]
        simp
      · exact absurd abs_zero hnear.ne_zero
      · simp only [isNegative_form, hpos.not_gt, decide_false, Bool.false_eq_true, if_false, cutAt_form, sign_pos hpos]
        simp
    · intro t ht k hk
      obtain ⟨b, -, hrun⟩ := nears_iff_runAt.1 hk
      exact hfirst t ht b hrun

/-- **Snapping finds the coarsest decimal that is close.** -/
theorem snap_form_iff {q p : ℚ} : (fraction q).form.snap = (fraction p).form ↔ SnapsTo q p := by
  obtain ⟨p', hsnap, hp'⟩ := snapsTo_snap q
  rw [hsnap, form_injective.eq_iff, fraction.injEq]
  constructor
  · rintro rfl
    exact hp'
  · exact hp'.unique

namespace ExtRat

/-- **Snapping is bounded, odd and keeps the sign.**  A fraction and its negative are snapped to opposite fractions; what a
fraction is snapped to has its sign, and is zero only for zero; and it is the fraction itself, or a decimal with `s` places,
`s` being at most 16, that is no farther away than one unit of the place `s + 4`. -/
theorem snap_laws {r : ExtRat} {q : ℚ} (hr : r.Canonical) (hq : r.fraction? = some q) :
    r.neg.snap = r.snap.neg ∧
      ∃ p, r.snap = (fraction p).form ∧ SignType.sign p = SignType.sign q ∧ (p = 0 ↔ q = 0) ∧
        (r.snap = r ∨
          ∃ s ≤ snapPlaces - minRun, (∃ n : ℤ, p * 10 ^ s = n) ∧ |p - q| ≤ 1 / 10 ^ (s + minRun)) := by
  obtain rfl := eq_form_of_fraction? hr hq
  obtain ⟨p, hsnap, hp⟩ := snapsTo_snap q
  refine ⟨snap_neg _, p, hsnap, hp.sign_eq, ?_, ?_⟩
  · rw [← sign_eq_zero_iff, hp.sign_eq, sign_eq_zero_iff]
  · rw [hsnap, form_injective.eq_iff, fraction.injEq]
    exact hp.eq_or_near

/-- `-0.0001999999` is snapped to `-0.0002`. -/
theorem snap_laws_nines :
    let r : ExtRat := ⟨-1999999, 10000000000⟩
    r.Canonical ∧ r.fraction? = some (-1999999 / 10000000000) ∧ r.snap = ⟨-1, 5000⟩ ∧ r.neg.snap = r.snap.neg ∧
      ∃ p, r.snap = (fraction p).form ∧ SignType.sign p = SignType.sign (-1999999 / 10000000000 : ℚ) ∧
        (p = 0 ↔ (-1999999 / 10000000000 : ℚ) = 0) ∧
        (r.snap = r ∨
          ∃ s ≤ 16, (∃ n : ℤ, p * 10 ^ s = n) ∧ |p - -1999999 / 10000000000| ≤ 1 / 10 ^ (s + 4)) := by
  intro r
  have hr : r.Canonical := by decide
  have hq : r.fraction? = some (-1999999 / 10000000000) := by
    simp [r, fraction?]
  exact ⟨hr, hq, by decide +kernel, snap_laws hr hq⟩

example : (mk 100002 100000).snap = mk 1 1 ∧ (mk 1 3).snap = mk 1 3 := by decide +kernel

end ExtRat

end RatCalc
