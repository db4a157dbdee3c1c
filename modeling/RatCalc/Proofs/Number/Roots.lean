import RatCalc.Proofs.Number.Fractions
import Mathlib.Analysis.SpecialFunctions.Pow.NthRootLemmas

/-!
# Roots

Newton's iteration on natural numbers ends at the floor root: no step falls below it, and a step that gets no smaller
starts at it.  The root of a fraction is that of its numerator over that of its denominator when both are perfect powers,
and otherwise the floor root of the fraction shifted by its places.

* `floorRoot_eq_nthRoot` — the iteration computes the floor root of the library;
* `NewtonRun` — the steps of the iteration up to its end; `floorRootInt_floors` — it has an end, which is the floor root;
* `Decimal.value?_root?` — the number that the text of a cut root reads back as;
* `CutRoot` — what a root that is cut has to satisfy; `nthRoot_num_den`, `pow_nthRoot_shifted` — perfect powers, and the
  bounds on all other roots;
* `nthRoot_cut` — roots of all fractions, negative ones too.
-/

namespace RatCalc

/-! ## Newton's iteration -/

section Newton

variable {k n x : ℕ}

/-- A step does not fall below the root. -/
theorem lt_pow_newtonStep (hk : k ≠ 0) (hx : x ≠ 0) : n < (newtonStep k n x + 1) ^ k := by
  obtain ⟨j, rfl⟩ := Nat.exists_eq_add_one_of_ne_zero hk
  have h := Nat.nthRoot.lt_pow_go_succ_aux (a := n) (n := j) hx
  rwa [Nat.add_comm (n / x ^ j)] at h

/-- A step that gets no smaller starts at the root or below. -/
theorem pow_le_of_le_newtonStep (hk : k ≠ 0) (h : x ≤ newtonStep k n x) : x ^ k ≤ n := by
  obtain ⟨j, rfl⟩ := Nat.exists_eq_add_one_of_ne_zero hk
  have hmul : x * (j + 1) ≤ j * x + n / x ^ j := Nat.mul_le_of_le_div _ _ _ h
  have hdiv : x ≤ n / x ^ j := by linarith
  calc x ^ (j + 1) = x * x ^ j := pow_succ' x j
    _ ≤ n := Nat.mul_le_of_le_div _ _ _ hdiv

theorem lt_pow_newtonDescend (hk : k ≠ 0) (hx : n < (x + 1) ^ k) : n < (newtonDescend k n x + 1) ^ k := by
  fun_induction newtonDescend k n x with
  | case1 x y hlt ih =>
    have hx0 : x ≠ 0 := by omega
    exact ih (lt_pow_newtonStep hk hx0)
  | case2 x y hge => exact hx

theorem pow_newtonDescend_le (hk : k ≠ 0) (n x : ℕ) : newtonDescend k n x ^ k ≤ n := by
  fun_induction newtonDescend k n x with
  | case1 x y hlt ih => exact ih
  | case2 x y hge => exact pow_le_of_le_newtonStep hk (not_lt.1 hge)

/-- The iteration starts above the root. -/
theorem lt_pow_rootStart (hk : k ≠ 0) (n : ℕ) : n < (rootStart k n + 1) ^ k := by
  have hbits : n.log2 + 1 ≤ (n.log2 + 1 + (k - 1)) / k * k := by
    have h := Nat.div_add_mod (n.log2 + 1 + (k - 1)) k
    have hmod := Nat.mod_lt (n.log2 + 1 + (k - 1)) (Nat.pos_of_ne_zero hk)
    rw [mul_comm] at h
    omega
  calc n < 2 ^ (n.log2 + 1) := Nat.lt_log2_self
    _ ≤ 2 ^ ((n.log2 + 1 + (k - 1)) / k * k) := Nat.pow_le_pow_right (by decide) hbits
    _ = rootStart k n ^ k := pow_mul _ _ _
    _ ≤ (rootStart k n + 1) ^ k := Nat.pow_le_pow_left (Nat.le_succ _) k

/-- **The iteration ends at the floor root.** -/
theorem floorRoot_eq_nthRoot (hk : k ≠ 0) (n : ℕ) : floorRoot k n = Nat.nthRoot k n := by
  unfold floorRoot
  split
  · rename_i hsmall
    rcases hsmall with hk1 | hn
    · obtain rfl : k = 1 := by omega
      rfl
    · rcases Nat.le_one_iff_eq_zero_or_eq_one.1 (Nat.lt_succ_iff.1 hn) with rfl | rfl
      · exact (Nat.nthRoot_zero_right hk).symm
      · exact Nat.nthRoot_one_right.symm
  · exact (Nat.nthRoot_eq_of_le_of_lt (pow_newtonDescend_le hk n _)
      (lt_pow_newtonDescend hk (lt_pow_rootStart hk n))).symm

theorem floorRootInt_natCast (hk : k ≠ 0) (n : ℕ) : floorRootInt k n = Nat.nthRoot k n := by
  rw [floorRootInt, ← floorRoot_eq_nthRoot hk, Int.toNat_natCast]
  split
  · rename_i hn
    rw [floorRoot, if_pos (.inr (by exact_mod_cast hn))]
  · rfl

/-- `r` is the iterate after `m` steps from `x`: each of these made it smaller, and one more would not. -/
structure NewtonRun (k n x m r : ℕ) : Prop where
  iterate : (newtonStep k n)^[m] x = r
  smaller : ∀ i < m, (newtonStep k n)^[i + 1] x < (newtonStep k n)^[i] x
  stops : r ≤ newtonStep k n r

theorem NewtonRun.cons {m r : ℕ} (hlt : newtonStep k n x < x) (h : NewtonRun k n (newtonStep k n x) m r) :
    NewtonRun k n x (m + 1) r := by
  refine ⟨h.iterate, ?_, h.stops⟩
  intro i hi
  cases i with
  | zero => exact hlt
  | succ i => exact h.smaller i (Nat.lt_of_succ_lt_succ hi)

theorem exists_newtonRun (k n x : ℕ) : ∃ m, NewtonRun k n x m (newtonDescend k n x) := by
  fun_induction newtonDescend k n x with
  | case1 x y hlt ih =>
    obtain ⟨m, hm⟩ := ih
    exact ⟨m + 1, hm.cons hlt⟩
  | case2 x y hge => exact ⟨0, rfl, by simp, not_lt.1 hge⟩

/-- No iterate falls below the root, so that no step divides by zero. -/
theorem newtonStep_iterate_pos (hk : k ≠ 0) (hn : n ≠ 0) (hx : n < (x + 1) ^ k) (i : ℕ) :
    n < ((newtonStep k n)^[i] x + 1) ^ k ∧ 0 < (newtonStep k n)^[i] x := by
  have hpos : ∀ {y : ℕ}, n < (y + 1) ^ k → 0 < y := by
    intro y hy
    by_contra h0
    rw [Nat.eq_zero_of_not_pos h0, zero_add, one_pow] at hy
    omega
  induction i with
  | zero => exact ⟨hx, hpos hx⟩
  | succ i ih =>
    have hlt := lt_pow_newtonStep hk (n := n) ih.2.ne'
    rw [Function.iterate_succ_apply']
    exact ⟨hlt, hpos hlt⟩

/-- **The integer root.**  For an integer that is not negative and a degree of one or more, the result is the floor root.
Where the iteration is needed it comes to an end after a number of steps, with the result as its last iterate, and no
iterate is zero. -/
theorem floorRootInt_floors {v : ℤ} (hk : 1 ≤ k) (hv : 0 ≤ v) :
    (2 ≤ k → 2 ≤ v →
      (∃ m, NewtonRun k v.toNat (rootStart k v.toNat) m (floorRootInt k v).toNat) ∧
        ∀ i, 0 < (newtonStep k v.toNat)^[i] (rootStart k v.toNat)) ∧
      0 ≤ floorRootInt k v ∧ floorRootInt k v ^ k ≤ v ∧ v < (floorRootInt k v + 1) ^ k := by
  have hk0 : k ≠ 0 := by omega
  lift v to ℕ using hv
  rw [Int.toNat_natCast, floorRootInt_natCast hk0]
  refine ⟨?_, Int.natCast_nonneg _, ?_, ?_⟩
  · intro hk2 hv2
    have hv0 : v ≠ 0 := by omega
    have hsmall : ¬ (k ≤ 1 ∨ v < 2) := by omega
    rw [Int.toNat_natCast, ← floorRoot_eq_nthRoot hk0, floorRoot, if_neg hsmall]
    exact ⟨exists_newtonRun k v _, fun i => (newtonStep_iterate_pos hk0 hv0 (lt_pow_rootStart hk0 v) i).2⟩
  · exact_mod_cast Nat.pow_nthRoot_le (.inl hk0)
  · exact_mod_cast Nat.lt_pow_nthRoot_add_one hk0 v

/-- The cube root of a number that is just below a cube. -/
theorem floorRootInt_floors_cube :
    1 ≤ 3 ∧ (0 : ℤ) ≤ 999999 ∧ (∃ m, NewtonRun 3 999999 (rootStart 3 999999) m 99) ∧
      (99 : ℤ) ^ 3 ≤ 999999 ∧ (999999 : ℤ) < (99 + 1) ^ 3 := by
  have hroot : floorRootInt 3 999999 = 99 := by decide +kernel
  have h := floorRootInt_floors (k := 3) (v := 999999) (by decide) (by decide)
  rw [hroot] at h
  exact ⟨by decide, by decide, (h.1 (by decide) (by decide)).1, h.2.2⟩

end Newton

/-! ## the text of a root -/

open Extended

/-- Reading a cut root gives the floor root of the fraction shifted by the places, shifted back. -/
theorem Decimal.value?_root? {k degree : ℕ} (hd : degree ≠ 0) (hrange : k < countLimit ∧ k * degree < countLimit)
    (n d : ℕ) :
    (root? n d degree k).bind Literal.value? =
      some (fraction (Nat.nthRoot degree (n * 10 ^ (k * degree) / d) / 10 ^ k)).form := by
  have hscaled : ((n : ℤ) * tenPow (k * degree)).tdiv d = (n * 10 ^ (k * degree) / d : ℕ) := by
    rw [tenPow_eq, ← Nat.cast_mul, ← Int.ofNat_tdiv]
  have hten : 0 < 10 ^ k := Nat.pow_pos (by decide)
  have hread := read_truncated (Nat.nthRoot degree (n * 10 ^ (k * degree) / d)) k hten
  have hnonneg : decide ((Nat.nthRoot degree (n * 10 ^ (k * degree) / d) : ℤ) < 0) = false := by simp
  rw [Int.natAbs_natCast, Nat.mul_div_cancel _ hten, hnonneg] at hread
  rw [root?, if_pos hrange, hscaled]
  simp only [floorRootInt_natCast hd, tenPow_eq, Option.bind_some, Literal.value?, hread, Except.toOption,
    Literal.scaled_form, Literal.signed]
  simp [div_eq_mul_inv]

/-! ## roots that are cut -/

/-- `x` is the root of degree `k` of `q` cut toward zero, and exact if there is an exact one. -/
structure CutRoot (k : ℕ) (q x : ℚ) : Prop where
  nonneg : 0 ≤ x
  pow_le : x ^ k ≤ q
  lt_pow : q < (x + 1 / 10 ^ rootPlaces) ^ k
  exact : (∃ s : ℚ, s ^ k = q) → x ^ k = q

section CutRoot

variable {k : ℕ} {q x : ℚ}

/-- A root that is exact. -/
theorem CutRoot.of_pow_eq (hk : k ≠ 0) (hx : 0 ≤ x) (h : x ^ k = q) : CutRoot k q x := by
  have hstep : (0 : ℚ) < 1 / 10 ^ rootPlaces := by positivity
  refine ⟨hx, h.le, ?_, fun _ => h⟩
  rw [← h]
  exact pow_lt_pow_left₀ (by linarith) hx hk

/-- The root of a perfect power is the quotient of the roots. -/
theorem nthRoot_num_den (hk : k ≠ 0) (h : ∃ s : ℚ, s ^ k = q) :
    Nat.nthRoot k q.num.natAbs ^ k = q.num.natAbs ∧ Nat.nthRoot k q.den ^ k = q.den := by
  obtain ⟨s, rfl⟩ := h
  rw [Rat.num_pow, Rat.den_pow, Int.natAbs_pow, Nat.nthRoot_pow hk, Nat.nthRoot_pow hk]
  exact ⟨rfl, rfl⟩

/-- The floor root of a fraction shifted by `p` places is below its root by less than one unit of the last place. -/
theorem pow_nthRoot_shifted (hk : k ≠ 0) (n p : ℕ) {d : ℕ} (hd : 0 < d) :
    ((Nat.nthRoot k (n * 10 ^ (p * k) / d) : ℚ) / 10 ^ p) ^ k ≤ n / d ∧
      (n / d : ℚ) < ((Nat.nthRoot k (n * 10 ^ (p * k) / d) : ℚ) / 10 ^ p + 1 / 10 ^ p) ^ k := by
  have hbelow : Nat.nthRoot k (n * 10 ^ (p * k) / d) ^ k * d ≤ n * 10 ^ (p * k) :=
    Nat.mul_le_of_le_div _ _ _ (Nat.pow_nthRoot_le (.inl hk))
  have habove : n * 10 ^ (p * k) < (Nat.nthRoot k (n * 10 ^ (p * k) / d) + 1) ^ k * d :=
    (Nat.div_lt_iff_lt_mul hd).1 (Nat.lt_pow_nthRoot_add_one hk _)
  generalize Nat.nthRoot k (n * 10 ^ (p * k) / d) = m at hbelow habove
  have hd' : (0 : ℚ) < d := by exact_mod_cast hd
  have hten : (0 : ℚ) < 10 ^ (p * k) := by positivity
  constructor
  · rw [div_pow, ← pow_mul, div_le_div_iff₀ hten hd']
    exact_mod_cast hbelow
  · rw [← add_div, div_pow, ← pow_mul, div_lt_div_iff₀ hd' hten]
    exact_mod_cast habove

end CutRoot

namespace ExtRat

variable {q : ℚ} {k : ℕ}

theorem rootOfPositive_cut (hk : k ≠ 0) (hmax : k ≤ maxRootDegree) (hq : 0 ≤ q) :
    ∃ x, (fraction q).form.rootOfPositive k = (fraction x).form ∧ CutRoot k q x := by
  have hvalue : (q.num.natAbs : ℚ) / q.den = q := by rw [natAbs_num_div_den, abs_of_nonneg hq]
  unfold rootOfPositive
  simp only [floorRoot_eq_nthRoot hk, form]
  split
  · rename_i hperfect
    obtain ⟨hnum, hden⟩ := hperfect
    refine ⟨Nat.nthRoot k q.num.natAbs / Nat.nthRoot k q.den, ?_, .of_pow_eq hk (by positivity) ?_⟩
    · have hne : Nat.nthRoot k q.den ≠ 0 := by
        intro h0
        rw [h0] at hden
        exact q.den_nz (hden.symm.trans (Nat.zero_pow (Nat.pos_of_ne_zero hk)))
      rw [reduce_eq_form, denote, if_neg hne]
      push_cast
      rfl
    · have hnum' : (Nat.nthRoot k q.num.natAbs : ℚ) ^ k = q.num.natAbs := by exact_mod_cast hnum
      have hden' : (Nat.nthRoot k q.den : ℚ) ^ k = q.den := by exact_mod_cast hden
      rw [div_pow, hnum', hden', hvalue]
  · rename_i hcut
    have hrange : rootPlaces < Decimal.countLimit ∧ rootPlaces * k < Decimal.countLimit := by
      have hlimit : Decimal.countLimit = 2 ^ 32 := rfl
      rw [hlimit, rootPlaces]
      rw [maxRootDegree] at hmax
      omega
    obtain ⟨hbelow, habove⟩ := pow_nthRoot_shifted hk q.num.natAbs rootPlaces q.den_pos
    rw [hvalue] at hbelow habove
    rw [Decimal.value?_root? hk hrange, Option.getD_some]
    refine ⟨_, rfl, by positivity, hbelow, habove, ?_⟩
    intro hroot
    exact absurd (nthRoot_num_den hk hroot) hcut

/-- Roots go through the magnitude, and the sign comes back in the end. -/
theorem nthRoot_form (hq : q ≠ 0) (hk : k ≠ 0) (hk1 : k ≠ 1) (hmax : k ≤ maxRootDegree) :
    (fraction q).form.nthRoot k =
      if q < 0 then if k % 2 = 0 then undefined else ((fraction |q|).form.rootOfPositive k).neg
      else (fraction |q|).form.rootOfPositive k := by
  have hinf : (fraction q).form.isInfinite = false := by simp [isInfinite, form]
  have habs : (fraction q).form.abs = (fraction |q|).form := abs_form _
  simp only [nthRoot, isUndefined_fraction_form, isZero_form, isNegative_form, hinf, habs, hk, hk1, hq, not_lt.2 hmax,
    decide_eq_true_eq, Bool.false_eq_true, or_self, if_false]
  by_cases hneg : q < 0
  · simp only [hneg, true_and, if_true]
  · simp only [hneg, false_and, if_false]

theorem nthRoot_one (q : ℚ) : (fraction q).form.nthRoot 1 = (fraction q).form := by
  rw [nthRoot, isUndefined_fraction_form]
  simp

theorem nthRoot_zero (hk : k ≠ 0) : (fraction 0).form.nthRoot k = (fraction 0).form := by
  rw [nthRoot, isUndefined_fraction_form, isZero_form]
  simp [hk]

theorem nthRoot_of_nonneg (hk : k ≠ 0) (hmax : k ≤ maxRootDegree) (hq : 0 ≤ q) :
    ∃ x, (fraction q).form.nthRoot k = (fraction x).form ∧ CutRoot k q x := by
  by_cases hk1 : k = 1
  · subst hk1
    exact ⟨q, nthRoot_one q, .of_pow_eq hk hq (pow_one q)⟩
  · by_cases h0 : q = 0
    · subst h0
      exact ⟨0, nthRoot_zero hk, .of_pow_eq hk le_rfl (zero_pow hk)⟩
    · rw [nthRoot_form h0 hk hk1 hmax, if_neg (not_lt.2 hq), abs_of_nonneg hq]
      exact rootOfPositive_cut hk hmax hq

/-- Odd roots are odd. -/
theorem nthRoot_of_neg_odd (hodd : k % 2 = 1) (hmax : k ≤ maxRootDegree) (hq : q < 0) :
    (fraction q).form.nthRoot k = ((fraction (-q)).form.nthRoot k).neg := by
  by_cases hk1 : k = 1
  · subst hk1
    rw [nthRoot_one, nthRoot_one, neg_form, Extended.neg, neg_neg]
  · have hk : k ≠ 0 := by omega
    have heven : ¬ k % 2 = 0 := by omega
    rw [nthRoot_form hq.ne hk hk1 hmax, nthRoot_form (neg_ne_zero.2 hq.ne) hk hk1 hmax, if_pos hq, if_neg heven,
      if_neg (not_lt.2 (neg_nonneg.2 hq.le)), abs_neg]

theorem nthRoot_of_neg_even (heven : k % 2 = 0) (hk : k ≠ 0) (hmax : k ≤ maxRootDegree) (hq : q < 0) :
    (fraction q).form.nthRoot k = undefined := by
  have hk1 : k ≠ 1 := by omega
  rw [nthRoot_form hq.ne hk hk1 hmax, if_pos hq, if_pos heven]

/-- **Roots are cut toward zero, and exact on perfect powers.**  The root of a fraction that is not negative is a fraction
whose power does not exceed it, while one unit more of the last place would; it is exact if the fraction is the power of a
fraction.  Odd roots of negative fractions are the negated roots of their opposites, and even ones are undefined. -/
theorem nthRoot_cut {r : ExtRat} (hr : r.Canonical) (hq : r.fraction? = some q) (hk : 1 ≤ k) (hmax : k ≤ maxRootDegree) :
    (0 ≤ q → ∃ x, r.nthRoot k = (fraction x).form ∧ CutRoot k q x) ∧
      (q < 0 → (Odd k → r.nthRoot k = (r.neg.nthRoot k).neg) ∧ (Even k → r.nthRoot k = undefined)) := by
  obtain rfl := eq_form_of_fraction? hr hq
  have hk0 : k ≠ 0 := by omega
  refine ⟨nthRoot_of_nonneg hk0 hmax, fun hneg => ⟨?_, ?_⟩⟩
  · intro hodd
    rw [neg_form]
    exact nthRoot_of_neg_odd (Nat.odd_iff.1 hodd) hmax hneg
  · intro heven
    exact nthRoot_of_neg_even (Nat.even_iff.1 heven) hk0 hmax hneg

/-- The square root of two, which is no fraction, and the cube root of minus eight twenty-sevenths. -/
theorem nthRoot_cut_mixed :
    ((ofInt 2).Canonical ∧ (ofInt 2).fraction? = some 2 ∧ ∃ x, (ofInt 2).nthRoot 2 = (fraction x).form ∧ CutRoot 2 2 x) ∧
      (mk (-8) 27).Canonical ∧ (mk (-8) 27).fraction? = some (-8 / 27) ∧
        (mk (-8) 27).nthRoot 3 = ((mk (-8) 27).neg.nthRoot 3).neg := by
  have h2 : (ofInt 2).fraction? = some 2 := by simp [fraction?, ofInt]
  have h8 : (mk (-8) 27).fraction? = some (-8 / 27) := by simp [fraction?]
  have hroot := nthRoot_cut (k := 2) (r := ofInt 2) (by decide) h2 (by decide) (by decide)
  have hcube := nthRoot_cut (k := 3) (r := mk (-8) 27) (by decide) h8 (by decide) (by decide)
  exact ⟨⟨by decide, h2, hroot.1 (by norm_num)⟩, by decide, h8, (hcube.2 (by norm_num)).1 (by decide)⟩

example : (mk (-8) 27).nthRoot 3 = ⟨-2, 3⟩ ∧ (ofInt (-4)).nthRoot 2 = undefined := by decide +kernel

end ExtRat

end RatCalc
