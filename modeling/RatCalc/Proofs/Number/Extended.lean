import RatCalc.Number.Basic
import Mathlib.Algebra.Order.Field.Rat
import Mathlib.Data.Rat.Lemmas
import Mathlib.Tactic.FieldSimp
import Mathlib.Tactic.Linarith
import Mathlib.Tactic.Ring

/-!
# The extended rationals

`ℚ` with two infinities and an undefined number, as a type of its own whose operations are given by their tables.

* `Extended.add`, `mul`, `div`, … — the arithmetic, in which the undefined number absorbs;
* `Extended.form` — the canonical pair of an extended rational; `ExtRat.denote` — what a pair stands for;
* `add_form`, `mul_form`, … — on canonical pairs the operations of `ExtRat` are those of the extended rationals.
-/

namespace RatCalc

/-- A rational, an infinity, or the undefined number. -/
inductive Extended where
  | fraction (q : ℚ) | infinity | negInfinity | undefined
deriving DecidableEq

namespace Extended

/-! ## the arithmetic -/

/-- The infinity on the side of `s`; zero is on neither side. -/
def infinityOf (s : ℚ) : Extended := if 0 < s then infinity else if s < 0 then negInfinity else undefined

/-- A rational on the same side of zero. -/
def side : Extended → ℚ
  | fraction q => q
  | infinity => 1
  | negInfinity => -1
  | undefined => 0

def neg : Extended → Extended
  | fraction q => fraction (-q)
  | infinity => negInfinity
  | negInfinity => infinity
  | undefined => undefined

def abs : Extended → Extended
  | fraction q => fraction |q|
  | infinity | negInfinity => infinity
  | undefined => undefined

def recip : Extended → Extended
  | fraction q => if q = 0 then infinity else fraction q⁻¹
  | infinity | negInfinity => fraction 0
  | undefined => undefined

/-- Fractions are lost on infinities; opposite infinities have no sum. -/
def add : Extended → Extended → Extended
  | undefined, _ | _, undefined => undefined
  | fraction p, fraction q => fraction (p + q)
  | fraction _, y => y
  | x, fraction _ => x
  | infinity, infinity => infinity
  | negInfinity, negInfinity => negInfinity
  | _, _ => undefined

def sub (x y : Extended) : Extended := x.add y.neg

/-- Signs multiply; an infinity times zero is undefined. -/
def mul : Extended → Extended → Extended
  | undefined, _ | _, undefined => undefined
  | fraction p, fraction q => fraction (p * q)
  | x, y => infinityOf (x.side * y.side)

/-- A quotient by zero is the infinity on the side of the dividend. -/
def div : Extended → Extended → Extended
  | undefined, _ | _, undefined => undefined
  | fraction p, fraction q => if q = 0 then infinityOf p else fraction (p / q)
  | fraction _, _ => fraction 0
  | x, fraction q => if q = 0 then x else infinityOf (x.side * q)
  | _, _ => undefined

def percent : Extended → Extended
  | fraction q => fraction (q / 100)
  | x => x

/-! ## canonical pairs -/

/-- The canonical pair. -/
def form : Extended → ExtRat
  | fraction q => ⟨q.num, q.den⟩
  | infinity => .infinity
  | negInfinity => .negInfinity
  | undefined => .undefined

end Extended

/-- What a pair stands for. -/
def ExtRat.denote (r : ExtRat) : Extended := if r.den = 0 then .infinityOf r.num else .fraction (r.num / r.den)

namespace Extended

theorem infinityOf_of_pos {s : ℚ} (h : 0 < s) : infinityOf s = infinity := by simp [infinityOf, h]

theorem infinityOf_of_neg {s : ℚ} (h : s < 0) : infinityOf s = negInfinity := by
  simp [infinityOf, h, not_lt.2 h.le]

@[simp] theorem infinityOf_zero : infinityOf 0 = undefined := by simp [infinityOf]

/-- Only the side counts. -/
theorem infinityOf_mul_pos (s : ℚ) {t : ℚ} (h : 0 < t) : infinityOf (s * t) = infinityOf s := by
  rcases lt_trichotomy s 0 with hs | rfl | hs
  · rw [infinityOf_of_neg hs, infinityOf_of_neg (mul_neg_of_neg_of_pos hs h)]
  · rw [zero_mul]
  · rw [infinityOf_of_pos hs, infinityOf_of_pos (mul_pos hs h)]

/-- Numerator and side agree. -/
theorem infinityOf_num (q : ℚ) : infinityOf q.num = infinityOf q := by
  rw [← infinityOf_mul_pos q (t := q.den) (by exact_mod_cast q.den_pos), Rat.mul_den_eq_num]

theorem neg_infinityOf (s : ℚ) : (infinityOf s).neg = infinityOf (-s) := by
  rcases lt_trichotomy s 0 with hs | rfl | hs
  · rw [infinityOf_of_neg hs, infinityOf_of_pos (by linarith)]; rfl
  · rw [neg_zero, infinityOf_zero]; rfl
  · rw [infinityOf_of_pos hs, infinityOf_of_neg (by linarith)]; rfl

theorem denote_form (x : Extended) : x.form.denote = x := by
  cases x with
  | fraction q => simp [form, ExtRat.denote, q.den_nz, Rat.num_div_den]
  | infinity => simp [form, ExtRat.denote, ExtRat.infinity, infinityOf]
  | negInfinity => norm_num [form, ExtRat.denote, ExtRat.negInfinity, infinityOf]
  | undefined => simp [form, ExtRat.denote, ExtRat.undefined]

theorem form_injective : Function.Injective form := Function.LeftInverse.injective denote_form

theorem canonical_form (x : Extended) : x.form.Canonical := by
  cases x with
  | fraction q => exact .inl q.reduced
  | infinity => exact .inl (by simp [form, ExtRat.infinity])
  | negInfinity => exact .inl (by simp [form, ExtRat.negInfinity])
  | undefined => exact .inr ⟨rfl, rfl⟩

end Extended

namespace ExtRat

open Extended

/-- Cancelling the common factor gives the canonical pair of what the pair stands for. -/
theorem reduce_eq_form (n : ℤ) (d : ℕ) : reduce n d = (denote ⟨n, d⟩).form := by
  by_cases h : d = 0
  · subst h
    rcases lt_trichotomy n 0 with hn | rfl | hn
    · have hs : ((n : ℤ) : ℚ) < 0 := by exact_mod_cast hn
      simp only [denote, if_true, infinityOf_of_neg hs, form, reduce, Nat.gcd_zero_right]
      rw [Int.natCast_natAbs, abs_of_neg hn, Int.ediv_neg, Int.ediv_self hn.ne]
      simp [negInfinity]
    · simp [denote, form, reduce, ExtRat.undefined]
    · have hs : (0 : ℚ) < ((n : ℤ) : ℚ) := by exact_mod_cast hn
      simp only [denote, if_true, infinityOf_of_pos hs, form, reduce, Nat.gcd_zero_right]
      rw [Int.natCast_natAbs, abs_of_pos hn, Int.ediv_self hn.ne']
      simp [infinity]
  · have hq : ((n : ℚ) / d) = Rat.normalize n d h := by rw [Rat.normalize_eq_mkRat, Rat.mkRat_eq_div]
    simp only [denote, h, if_false, form, reduce, hq, Rat.normalize_eq]

theorem canonical_reduce (n : ℤ) (d : ℕ) : (reduce n d).Canonical := by
  rw [reduce_eq_form]
  exact canonical_form _

/-- A canonical pair is already reduced. -/
theorem reduce_of_canonical {r : ExtRat} (h : r.Canonical) : reduce r.num r.den = r := by
  rcases h with h | ⟨hn, hd⟩
  · simp [reduce, h]
  · simp [reduce, hn, hd]
    rcases r with ⟨n, d⟩
    simp_all

theorem form_denote {r : ExtRat} (h : r.Canonical) : r.denote.form = r := by
  rw [← reduce_eq_form, reduce_of_canonical h]

/-- The canonical pairs are those of the extended rationals. -/
theorem canonical_iff {r : ExtRat} : r.Canonical ↔ ∃ x : Extended, x.form = r :=
  ⟨fun h => ⟨r.denote, form_denote h⟩, fun ⟨x, h⟩ => h ▸ canonical_form x⟩

end ExtRat

namespace Extended

open ExtRat

/-! ## the operations on canonical pairs -/

theorem neg_form (x : Extended) : x.form.neg = x.neg.form := by
  cases x <;> simp [form, Extended.neg, ExtRat.neg, ExtRat.infinity, ExtRat.negInfinity, ExtRat.undefined]

theorem abs_form (x : Extended) : x.form.abs = x.abs.form := by
  cases x with
  | fraction q => simp [form, Extended.abs, ExtRat.abs, Rat.num_abs_eq_abs_num, Rat.den_abs_eq_den]
  | _ => simp [form, Extended.abs, ExtRat.abs, ExtRat.infinity, ExtRat.negInfinity, ExtRat.undefined]

theorem ofFraction_zero_form (n : ℤ) : ofFraction n 0 = (infinityOf n).form := by
  simp [ofFraction, reduce_eq_form, denote]

theorem ofFraction_form (n : ℤ) {d : ℤ} (hd : d ≠ 0) : ofFraction n d = (fraction (n / d)).form := by
  have hd' : (d : ℚ) ≠ 0 := by exact_mod_cast hd
  unfold ofFraction
  split
  · rename_i h
    have e : ((d.natAbs : ℕ) : ℚ) = -d := by
      rw [Nat.cast_natAbs, abs_of_neg h]; push_cast; rfl
    simp only [reduce_eq_form, denote, Int.natAbs_eq_zero, hd, if_false, e]
    push_cast
    rw [neg_div_neg_eq]
  · rename_i h
    have e : ((d.natAbs : ℕ) : ℚ) = d := by
      rw [Nat.cast_natAbs, abs_of_nonneg (not_lt.1 h)]
    simp only [reduce_eq_form, denote, Int.natAbs_eq_zero, hd, if_false, e]

theorem recip_form (x : Extended) : x.form.recip = x.recip.form := by
  cases x with
  | fraction q =>
    simp only [form, ExtRat.recip, Extended.recip]
    by_cases hq : q = 0
    · subst hq
      rw [if_pos rfl, Rat.num_zero, ofFraction_zero_form, infinityOf_of_pos (by simp)]
      rfl
    · have hn : q.num ≠ 0 := Rat.num_ne_zero.2 hq
      rw [if_neg hq, ofFraction_form _ hn]
      nth_rewrite 3 [← Rat.num_div_den q]
      rw [inv_div]
      push_cast
      rfl
  | infinity => decide
  | negInfinity => decide
  | undefined => decide

theorem mul_form (x y : Extended) : x.form.mul y.form = (x.mul y).form := by
  rw [ExtRat.mul, reduce_eq_form]
  congr 1
  cases x with
  | fraction p =>
    cases y with
    | fraction q =>
      have e : (p.num : ℚ) * q.num / (p.den * q.den) = p * q := by
        rw [← div_mul_div_comm, Rat.num_div_den, Rat.num_div_den]
      simp [form, Extended.mul, denote, e]
    | negInfinity =>
      simp [form, Extended.mul, denote, side, ExtRat.negInfinity, ← neg_infinityOf, infinityOf_num]
    | _ => simp [form, Extended.mul, denote, side, ExtRat.infinity, ExtRat.undefined, infinityOf_num]
  | infinity =>
    cases y <;>
      simp [form, Extended.mul, denote, side, ExtRat.infinity, ExtRat.negInfinity, ExtRat.undefined, infinityOf_num]
  | negInfinity =>
    cases y <;>
      simp [form, Extended.mul, denote, side, ExtRat.infinity, ExtRat.negInfinity, ExtRat.undefined, infinityOf_num,
        ← neg_infinityOf]
  | undefined => cases y <;> simp [form, Extended.mul, denote, ExtRat.undefined]

theorem isUndefined_fraction_form (q : ℚ) : (fraction q).form.isUndefined = false := by
  simp [form, isUndefined, q.den_nz]

theorem add_fraction_form (p q : ℚ) : (fraction p).form.add (fraction q).form = (fraction (p + q)).form := by
  have hp : (p.den : ℚ) ≠ 0 := by exact_mod_cast p.den_nz
  have hq : (q.den : ℚ) ≠ 0 := by exact_mod_cast q.den_nz
  rw [ExtRat.add, isUndefined_fraction_form, isUndefined_fraction_form, if_neg (by simp)]
  simp only [reduce_eq_form, form]
  split
  · rename_i h
    have e : ((p.num : ℚ) + q.num) / p.den = p + q := by
      rw [add_div, Rat.num_div_den, h, Rat.num_div_den]
    simp [denote, p.den_nz, e]
  · have e : ((p.num : ℚ) * q.den + q.num * p.den) / (p.den * q.den) = p + q := by
      rw [mul_comm (q.num : ℚ), ← div_add_div _ _ hp hq, Rat.num_div_den, Rat.num_div_den]
    simp [denote, p.den_nz, q.den_nz, e]

theorem add_form (x y : Extended) : x.form.add y.form = (x.add y).form := by
  cases x with
  | fraction p =>
    have hp : (0 : ℚ) < p.den := by exact_mod_cast p.den_pos
    cases y with
    | fraction q => exact add_fraction_form p q
    | undefined => simp [form, Extended.add, ExtRat.add, isUndefined, ExtRat.undefined]
    | infinity =>
      simp [form, Extended.add, ExtRat.add, isUndefined, ExtRat.infinity, p.den_nz, reduce_eq_form, denote,
        infinityOf_of_pos hp]
    | negInfinity =>
      simp [form, Extended.add, ExtRat.add, isUndefined, ExtRat.negInfinity, p.den_nz, reduce_eq_form, denote,
        ← neg_infinityOf, infinityOf_of_pos hp, Extended.neg]
  | infinity =>
    cases y with
    | fraction q =>
      have hq : (0 : ℚ) < q.den := by exact_mod_cast q.den_pos
      simp [form, Extended.add, ExtRat.add, isUndefined, ExtRat.infinity, q.den_nz, q.den_nz.symm, reduce_eq_form, denote,
        infinityOf_of_pos hq]
    | _ => decide
  | negInfinity =>
    cases y with
    | fraction q =>
      have hq : (0 : ℚ) < q.den := by exact_mod_cast q.den_pos
      simp [form, Extended.add, ExtRat.add, isUndefined, ExtRat.negInfinity, q.den_nz, q.den_nz.symm, reduce_eq_form, denote,
        ← neg_infinityOf, infinityOf_of_pos hq, Extended.neg]
    | _ => decide
  | undefined => cases y <;> simp [form, Extended.add, ExtRat.add, isUndefined, ExtRat.undefined]

theorem sub_form (x y : Extended) : x.form.sub y.form = (x.sub y).form := by
  rw [ExtRat.sub, neg_form, add_form]; rfl

theorem infinityOf_mul_inv (s : ℚ) {t : ℚ} (h : t ≠ 0) : infinityOf (s * t⁻¹) = infinityOf (s * t) := by
  have e : s * t = s * t⁻¹ * (t * t) := by field_simp
  rw [e, infinityOf_mul_pos _ (mul_self_pos.2 h)]

/-- Dividing is multiplying by the reciprocal, by zero and by infinities too. -/
theorem mul_recip (x y : Extended) : x.mul y.recip = x.div y := by
  cases y with
  | fraction q =>
    by_cases hq : q = 0
    · subst hq
      cases x <;> simp [Extended.recip, Extended.mul, Extended.div, side, infinityOf_of_pos, infinityOf_of_neg]
    · have h1 := infinityOf_mul_inv 1 hq
      have h2 := infinityOf_mul_inv (-1) hq
      cases x <;> simp_all [Extended.recip, Extended.mul, Extended.div, side, div_eq_mul_inv]
  | _ => cases x <;> simp [Extended.recip, Extended.mul, Extended.div, side]

theorem div_form (x y : Extended) : x.form.div y.form = (x.div y).form := by
  rw [ExtRat.div, recip_form, mul_form, mul_recip]

theorem percent_form (x : Extended) : x.form.percent = x.percent.form := by
  have e : (⟨1, 100⟩ : ExtRat) = (fraction (1 / 100)).form := by decide +kernel
  rw [ExtRat.percent, e, mul_form]
  cases x with
  | fraction q => simp [Extended.mul, Extended.percent, div_eq_mul_inv]
  | infinity => simp [Extended.mul, Extended.percent, side, infinityOf_of_pos]
  | negInfinity => norm_num [Extended.mul, Extended.percent, side, infinityOf_of_neg]
  | undefined => rfl

/-! ## the laws of the arithmetic -/

protected theorem add_comm (x y : Extended) : x.add y = y.add x := by
  cases x <;> cases y <;> simp [Extended.add, add_comm]

protected theorem add_assoc (x y z : Extended) : (x.add y).add z = x.add (y.add z) := by
  cases x <;> cases y <;> cases z <;> simp [Extended.add, add_assoc]

protected theorem zero_add (x : Extended) : (fraction 0).add x = x := by cases x <;> simp [Extended.add]

protected theorem mul_comm (x y : Extended) : x.mul y = y.mul x := by
  cases x <;> cases y <;> simp [Extended.mul, mul_comm, side]

protected theorem one_mul (x : Extended) : (fraction 1).mul x = x := by
  cases x <;> simp [Extended.mul, side, infinityOf_of_pos, infinityOf_of_neg]

/-! ## associativity of the product

Between fractions it is that of `ℚ`.  Once a factor is no fraction, both sides are the infinity on the side of the
product of the three sides. -/

theorem infinityOf_mul (s : ℚ) (y : Extended) : (infinityOf s).mul y = infinityOf (s * y.side) := by
  rcases lt_trichotomy s 0 with hs | rfl | hs
  · have e (t : ℚ) : infinityOf (s * t) = infinityOf (-t) := by
      rw [← infinityOf_mul_pos (-t) (neg_pos.2 hs), neg_mul_neg, mul_comm]
    rw [infinityOf_of_neg hs, e]
    cases y <;> simp [Extended.mul, side]
  · simp [Extended.mul]
  · have e (t : ℚ) : infinityOf (s * t) = infinityOf t := by rw [mul_comm, infinityOf_mul_pos t hs]
    rw [infinityOf_of_pos hs, e]
    cases y <;> simp [Extended.mul, side]

theorem mul_infinityOf (x : Extended) (s : ℚ) : x.mul (infinityOf s) = infinityOf (x.side * s) := by
  rw [Extended.mul_comm, infinityOf_mul, mul_comm]

/-- A product with a factor that is no fraction. -/
theorem mul_eq_infinityOf (x : Extended) {y : Extended} (hy : ∀ q, y ≠ fraction q) :
    x.mul y = infinityOf (x.side * y.side) := by
  cases y with
  | fraction q => exact absurd rfl (hy q)
  | _ => cases x <;> simp [Extended.mul, side]

theorem mul_eq_infinityOf_left {x : Extended} (hx : ∀ q, x ≠ fraction q) (y : Extended) :
    x.mul y = infinityOf (x.side * y.side) := by
  rw [Extended.mul_comm, mul_eq_infinityOf y hx, mul_comm]

protected theorem mul_assoc (x y z : Extended) : (x.mul y).mul z = x.mul (y.mul z) := by
  by_cases hy : ∀ q, y ≠ fraction q
  · rw [mul_eq_infinityOf x hy, mul_eq_infinityOf_left hy z, infinityOf_mul, mul_infinityOf, mul_assoc]
  · push Not at hy
    obtain ⟨q, rfl⟩ := hy
    by_cases hx : ∀ p, x ≠ fraction p
    · rw [mul_eq_infinityOf_left hx, infinityOf_mul, mul_assoc]
      by_cases hz : ∀ r, z ≠ fraction r
      · rw [mul_eq_infinityOf _ hz, mul_infinityOf]
      · push Not at hz
        obtain ⟨r, rfl⟩ := hz
        exact (mul_eq_infinityOf_left hx (fraction (q * r))).symm
    · push Not at hx
      obtain ⟨p, rfl⟩ := hx
      by_cases hz : ∀ r, z ≠ fraction r
      · rw [mul_eq_infinityOf (fraction q) hz, mul_infinityOf, ← mul_assoc]
        exact mul_eq_infinityOf (fraction (p * q)) hz
      · push Not at hz
        obtain ⟨r, rfl⟩ := hz
        simp only [Extended.mul, mul_assoc]

end Extended

namespace ExtRat

open Extended

/-- **The kernel computes in the extended rationals.**  Every operation on canonical pairs gives the canonical pair of the
exact result, and so sums and products obey their laws on all numbers, those that are no fractions too. -/
theorem arithmetic_exact {a b c : ExtRat} (ha : a.Canonical) (hb : b.Canonical) (hc : c.Canonical) :
    (a.neg = a.denote.neg.form ∧ a.abs = a.denote.abs.form ∧ a.recip = a.denote.recip.form ∧
      a.percent = a.denote.percent.form ∧ a.add b = (a.denote.add b.denote).form ∧
      a.sub b = (a.denote.sub b.denote).form ∧ a.mul b = (a.denote.mul b.denote).form ∧
      a.div b = (a.denote.div b.denote).form) ∧
    (a.add b = b.add a ∧ (a.add b).add c = a.add (b.add c) ∧ zero.add a = a ∧ a.add zero = a) ∧
    (a.mul b = b.mul a ∧ (a.mul b).mul c = a.mul (b.mul c) ∧ one.mul a = a ∧ a.mul one = a) := by
  obtain ⟨x, rfl⟩ := canonical_iff.1 ha
  obtain ⟨y, rfl⟩ := canonical_iff.1 hb
  obtain ⟨z, rfl⟩ := canonical_iff.1 hc
  have h0 : zero = (fraction 0).form := rfl
  have h1 : one = (fraction 1).form := rfl
  simp only [denote_form]
  refine ⟨⟨neg_form x, abs_form x, recip_form x, percent_form x, add_form x y, sub_form x y, mul_form x y, div_form x y⟩,
    ⟨?_, ?_, ?_, ?_⟩, ⟨?_, ?_, ?_, ?_⟩⟩
  · rw [add_form, add_form, Extended.add_comm]
  · simp only [add_form, Extended.add_assoc]
  · rw [h0, add_form, Extended.zero_add]
  · rw [h0, add_form, Extended.add_comm, Extended.zero_add]
  · rw [mul_form, mul_form, Extended.mul_comm]
  · simp only [mul_form, Extended.mul_assoc]
  · rw [h1, mul_form, Extended.one_mul]
  · rw [h1, mul_form, Extended.mul_comm, Extended.one_mul]

/-- A negative fraction, an infinity and zero: `-3/4` divided by an infinity, and a product that is undefined. -/
theorem arithmetic_exact_mixed :
    (mk (-3) 4).Canonical ∧ negInfinity.Canonical ∧ zero.Canonical ∧
      (mk (-3) 4).div negInfinity = ((mk (-3) 4).denote.div negInfinity.denote).form ∧
      ((mk (-3) 4).mul negInfinity).mul zero = (mk (-3) 4).mul (negInfinity.mul zero) := by
  have h := arithmetic_exact (a := mk (-3) 4) (b := negInfinity) (c := zero) (by decide) (by decide) (by decide)
  exact ⟨by decide, by decide, by decide, h.1.2.2.2.2.2.2.2, h.2.2.2.1⟩

end ExtRat

end RatCalc
