import RatCalc.Expr.Operator
import RatCalc.Proofs.Number.Decimal
import Mathlib.Data.Rat.Floor

/-!
# Operators on fractions

What the operators do as long as nothing leaves the fractions.

* `UnaryOp.onFraction`, `ChainOp.onFractions`, `BinaryOp.onFractions?` — the operators on `ℚ`, the last one partial;
* `raise_eq_pow`, `powInt_form`, `mod_form` — powers by squaring and remainders are those of `ℚ`;
* `onNumbers_form` — where the operator on `ℚ` is defined, the one on numbers agrees with it;
* `exists_onFractions?` — it is defined where the result is finite and the power or remainder is tame.
-/

namespace RatCalc

/-! ## operators on fractions -/

namespace ChainOp

def onFractions : ChainOp → ℚ → ℚ → ℚ
  | add, x, y => x + y
  | mul, x, y => x * y

/-- The value of a chain without operands. -/
def neutral : ChainOp → ℚ
  | add => 0
  | mul => 1

variable (op : ChainOp) (x y z : ℚ)

theorem onFractions_comm : op.onFractions x y = op.onFractions y x := by
  cases op
  · exact add_comm x y
  · exact mul_comm x y

theorem onFractions_assoc : op.onFractions (op.onFractions x y) z = op.onFractions x (op.onFractions y z) := by
  cases op
  · exact add_assoc x y z
  · exact mul_assoc x y z

@[simp] theorem neutral_onFractions : op.onFractions op.neutral x = x := by
  cases op
  · exact zero_add x
  · exact one_mul x

@[simp] theorem onFractions_neutral : op.onFractions x op.neutral = x := by
  rw [onFractions_comm, neutral_onFractions]

end ChainOp

def UnaryOp.onFraction : UnaryOp → ℚ → ℚ
  | plus, x => x
  | minus, x => -x
  | percent, x => x / 100

/-- Binary operators where they are tame: no division by zero, no remainder by one, and powers of nonzero fractions with
an integer exponent of 64 bits. -/
def BinaryOp.onFractions? : BinaryOp → ℚ → ℚ → Option ℚ
  | add, x, y => some (x + y)
  | sub, x, y => some (x - y)
  | mul, x, y => some (x * y)
  | div, x, y => if y = 0 then none else some (x / y)
  | mod, x, y => if y = 0 ∨ y = 1 then none else some (x - y * ⌊x / y⌋)
  | pow, x, y => if x ≠ 0 ∧ y.den = 1 ∧ y.num.natAbs < Nat.pow 2 64 then some (x ^ y.num) else none
  | _, _, _ => none

instance (op : ChainOp) : Std.Associative op.onFractions := ⟨op.onFractions_assoc⟩

/-! ## fractions as pairs -/

open Extended

/-- The fraction that a pair is, if it is one. -/
def ExtRat.fraction? (r : ExtRat) : Option ℚ := if r.den = 0 then none else some (r.num / r.den)

namespace ExtRat

theorem fraction?_form (q : ℚ) : (fraction q).form.fraction? = some q := by
  rw [fraction?, form, if_neg q.den_nz, Rat.num_div_den]

theorem eq_form_of_fraction? {r : ExtRat} {q : ℚ} (hr : r.Canonical) (h : r.fraction? = some q) :
    r = (fraction q).form := by
  obtain ⟨x, rfl⟩ := canonical_iff.1 hr
  cases x with
  | fraction p =>
    rw [fraction?_form] at h
    rw [Option.some.inj h]
  | _ => cases h

end ExtRat

theorem natAbs_num_div_den (q : ℚ) : (q.num.natAbs : ℚ) / q.den = |q| := by
  conv_rhs => rw [← Rat.num_div_den q]
  rw [abs_div, Nat.abs_cast, Nat.cast_natAbs, Int.cast_abs]

/-! ## powers and remainders -/

/-- The lowest binary digit decides on the factor. -/
theorem factor_eq_pow (acc square : ℤ) (e : ℕ) :
    (if e % 2 = 1 then acc * square else acc) = acc * square ^ (e % 2) := by
  rcases Nat.mod_two_eq_zero_or_one e with h | h
  · simp [h]
  · simp [h]

/-- The accumulator times the power that is left stays the same from digit to digit. -/
theorem raiseFrom_eq (acc square : ℤ) (e : ℕ) : raiseFrom acc square e = acc * square ^ e := by
  fun_induction raiseFrom acc square e with
  | case1 acc square => rw [pow_zero, mul_one]
  | case2 acc square e he next hlast =>
    have hnext : next = acc * square ^ (e % 2) := factor_eq_pow acc square e
    have hdigit : e % 2 = e := by omega
    rw [hnext, hdigit]
  | case3 acc square e he next hlast ih =>
    have hnext : next = acc * square ^ (e % 2) := factor_eq_pow acc square e
    calc raiseFrom next (square * square) (e / 2)
        = acc * square ^ (e % 2) * (square * square) ^ (e / 2) := by rw [ih, hnext]
      _ = acc * square ^ (2 * (e / 2) + e % 2) := by rw [← sq, ← pow_mul, mul_assoc, ← pow_add, add_comm]
      _ = acc * square ^ e := by rw [Nat.div_add_mod]

theorem raise_eq_pow (b : ℤ) (e : ℕ) : raise b e = b ^ e := by rw [raise, raiseFrom_eq, one_mul]

namespace ExtRat

theorem powNat_eq (r : ExtRat) {e : ℕ} (he : e < Nat.pow 2 64) : r.powNat e = reduce (r.num ^ e) (r.den ^ e) := by
  have hden : (raise r.den e).toNat = r.den ^ e := by
    rw [raise_eq_pow, ← Nat.cast_pow, Int.toNat_natCast]
  rw [powNat, if_pos he, hden, raise_eq_pow]

theorem powNat_form (q : ℚ) {e : ℕ} (he : e < Nat.pow 2 64) : (fraction q).form.powNat e = (fraction (q ^ e)).form := by
  rw [powNat_eq _ he, form, reduce_eq_form, denote, if_neg (pow_ne_zero e q.den_nz)]
  push_cast
  rw [← div_pow, Rat.num_div_den]

theorem powInt_form {q : ℚ} (hq : q ≠ 0) {n : ℤ} (hn : n.natAbs < Nat.pow 2 64) :
    (fraction q).form.powInt n = (fraction (q ^ n)).form := by
  unfold powInt
  split
  · rename_i hneg
    obtain ⟨k, rfl⟩ := Int.eq_negSucc_of_lt_zero hneg
    rw [powNat_form q hn, recip_form, Extended.recip, if_neg (pow_ne_zero _ hq), zpow_negSucc]
    rfl
  · rename_i hnonneg
    obtain ⟨k, rfl⟩ := Int.eq_ofNat_of_zero_le (not_lt.1 hnonneg)
    rw [powNat_form q hn, zpow_natCast]
    rfl

theorem isFinite_form (q : ℚ) : (fraction q).form.isFinite = true := (isFinite_iff (canonical_form _)).2 ⟨q, rfl⟩

theorem not_isFinite_infinityOf (s : ℚ) : (infinityOf s).form.isFinite = false := by
  unfold infinityOf
  split
  · rfl
  · split <;> rfl

theorem div_zero_form (x : ℚ) : (fraction x).form.div (fraction 0).form = (infinityOf x).form := by
  rw [div_form, Extended.div, if_pos rfl]

theorem isZero_form (q : ℚ) : (fraction q).form.isZero = decide (q = 0) := by
  have hden : (q.den != 0) = true := by simp
  have hnum : (q.num == 0) = decide (q = 0) := by
    rw [beq_eq_decide]
    exact decide_eq_decide.2 Rat.num_eq_zero
  rw [isZero, form, hden, hnum, Bool.and_true]

theorem isOne_form (q : ℚ) : (fraction q).form.isOne = decide (q = 1) := by
  have hone : q = 1 ↔ q.num = 1 ∧ q.den = 1 := by
    constructor
    · rintro rfl
      exact ⟨rfl, rfl⟩
    · rintro ⟨hn, hd⟩
      exact Rat.ext hn hd
  rw [isOne, form, beq_eq_decide, beq_eq_decide, ← Bool.decide_and]
  exact decide_eq_decide.2 hone.symm

theorem isNegative_form (q : ℚ) : (fraction q).form.isNegative = decide (q < 0) := decide_eq_decide.2 Rat.num_neg

theorem floor_form (q : ℚ) : (fraction q).form.floor = (fraction (⌊q⌋ : ℤ)).form := by
  rw [floor, if_pos (isFinite_form q), ofInt_form, Rat.floor_def']
  rfl

theorem mod_form (x : ℚ) {y : ℚ} (hy : y ≠ 0) :
    (fraction x).form.mod (fraction y).form = (fraction (x - y * ⌊x / y⌋)).form := by
  have hdiv : (fraction x).form.div (fraction y).form = (fraction (x / y)).form := by
    rw [div_form, Extended.div, if_neg hy]
  rw [mod, if_neg (by simp [isFinite_form, isZero_form, hy]), hdiv, floor_form, mul_form, sub_form, sub_eq_add_neg]
  rfl

/-- Powers with an exponent out of range are undefined. -/
theorem powInt_of_le {q : ℚ} {n : ℤ} (hn : Nat.pow 2 64 ≤ n.natAbs) : (fraction q).form.powInt n = undefined := by
  have hpow : (fraction q).form.powNat n.natAbs = undefined := if_neg (not_lt.2 hn)
  rw [powInt, hpow]
  split
  · rfl
  · rfl

theorem pow_form (x : ℚ) {y : ℚ} (hy : y.den = 1) :
    (fraction x).form.pow (fraction y).form = if y = 0 then one else (fraction x).form.powInt y.num := by
  have hint : (fraction y).form.isInteger = true := by simp [isInteger, form, hy]
  have hundef : ((fraction x).form.isUndefined || !(fraction y).form.isFinite) = false := by
    rw [isUndefined_fraction_form, isFinite_form]
    rfl
  rw [pow, isZero_form, hundef, if_pos hint]
  by_cases h0 : y = 0
  · simp [h0]
  · simp [h0, form]

end ExtRat

/-! ## the operators -/

theorem UnaryOp.onNumber_form (op : UnaryOp) (x : ℚ) : op.onNumber (fraction x).form = (fraction (op.onFraction x)).form := by
  cases op
  · rfl
  · exact neg_form _
  · exact percent_form _

theorem ChainOp.onNumbers_form (op : ChainOp) (x y : ℚ) :
    op.toBinary.onNumbers (fraction x).form (fraction y).form = (fraction (op.onFractions x y)).form := by
  cases op
  · exact add_form _ _
  · exact mul_form _ _

namespace BinaryOp

/-- The operators between numbers. -/
def isArithmetic : BinaryOp → Bool
  | add | sub | mul | div | mod | pow => true
  | _ => false

theorem isArithmetic_of_onFractions? {op : BinaryOp} {x y q : ℚ} (h : op.onFractions? x y = some q) :
    op.isArithmetic = true := by
  cases op <;> first | rfl | cases h

theorem onNumbers_form {op : BinaryOp} {x y q : ℚ} (h : op.onFractions? x y = some q) :
    op.onNumbers (fraction x).form (fraction y).form = (fraction q).form := by
  cases op with
  | add =>
    obtain rfl := Option.some.inj h
    exact add_form _ _
  | sub =>
    obtain rfl := Option.some.inj h
    rw [sub_eq_add_neg]
    exact sub_form _ _
  | mul =>
    obtain rfl := Option.some.inj h
    exact mul_form _ _
  | div =>
    rw [onFractions?, Option.ite_none_left_eq_some] at h
    obtain ⟨hy, h⟩ := h
    obtain rfl := Option.some.inj h
    rw [onNumbers, div_form, Extended.div, if_neg hy]
  | mod =>
    rw [onFractions?, Option.ite_none_left_eq_some, not_or] at h
    obtain ⟨⟨hy, -⟩, h⟩ := h
    obtain rfl := Option.some.inj h
    exact ExtRat.mod_form x hy
  | pow =>
    rw [onFractions?, Option.ite_none_right_eq_some] at h
    obtain ⟨⟨hx, hy, hn⟩, h⟩ := h
    obtain rfl := Option.some.inj h
    rw [onNumbers, ExtRat.pow_form x hy]
    split
    · rename_i h0
      rw [h0, Rat.num_zero, zpow_zero]
      rfl
    · exact ExtRat.powInt_form hx hn
  | _ => cases h

/-- Where the result is finite, and a power or remainder is tame, the operator is defined on fractions. -/
theorem exists_onFractions? {op : BinaryOp} {x y : ℚ} (hop : op.isArithmetic = true)
    (hfin : (op.onNumbers (fraction x).form (fraction y).form).isFinite = true)
    (hpow : op = pow → x ≠ 0 ∧ y.den = 1) (hmod : op = mod → y ≠ 1) : ∃ q, op.onFractions? x y = some q := by
  cases op with
  | add | sub | mul => exact ⟨_, rfl⟩
  | div =>
    have hy : y ≠ 0 := by
      rintro rfl
      rw [onNumbers, ExtRat.div_zero_form, ExtRat.not_isFinite_infinityOf] at hfin
      cases hfin
    exact ⟨_, if_neg hy⟩
  | mod =>
    have hy : y ≠ 0 := by
      rintro rfl
      rw [onNumbers, ExtRat.mod, ExtRat.isZero_form] at hfin
      simp [ExtRat.undefined, ExtRat.isFinite] at hfin
    exact ⟨_, if_neg (not_or.2 ⟨hy, hmod rfl⟩)⟩
  | pow =>
    obtain ⟨hx, hy⟩ := hpow rfl
    have hn : y.num.natAbs < Nat.pow 2 64 := by
      by_contra hle
      rw [onNumbers, ExtRat.pow_form x hy, if_neg, ExtRat.powInt_of_le (not_lt.1 hle)] at hfin
      · cases hfin
      · rintro rfl
        exact hle (by decide)
    exact ⟨_, if_pos ⟨hx, hy, hn⟩⟩
  | _ => cases hop

end BinaryOp

end RatCalc
