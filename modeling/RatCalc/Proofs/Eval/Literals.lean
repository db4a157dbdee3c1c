import RatCalc.Proofs.Eval.Normalizing
import RatCalc.Proofs.Normal.Contents
import RatCalc.Proofs.Number.Exact

/-!
# Operators between two literals

Normalising folds most operators between two literals, so that what a run gives for them is decided by the rules of folding
as well as by the arithmetic of numbers.  Where all is tame, soundness says that the two agree.  The rest is a division by
zero, a remainder by zero or one, and a power of zero: there the rules fire on one literal alone.  They disagree in two
places, where the rule gives zero.

* `BinaryOp.FoldsToZero` — the places where the two disagree;
* `ExtRat.pow_zero_form`, `ExtRat.mod_one_form` — the arithmetic at these places;
* `eval_normalize_literals` — the number of the normal form;
* `Interpreter.run_literals` — what running and evaluating give.
-/

namespace RatCalc

open Extended RatCalc.Expr

/-! ## where folding and arithmetic disagree -/

/-- A fraction that is no integer modulo one, and a negative power of zero. -/
def BinaryOp.FoldsToZero (op : BinaryOp) (x y : ExtRat) : Prop :=
  (op = mod ∧ y.isOne = true ∧ x.isInteger = false) ∨ (op = pow ∧ x.isZero = true ∧ y.isNegative = true)

instance (op : BinaryOp) (x y : ExtRat) : Decidable (op.FoldsToZero x y) := inferInstanceAs (Decidable (_ ∨ _))

/-- What an operator between two literals gives once it is normalised. -/
def BinaryOp.onLiterals (op : BinaryOp) (x y : ExtRat) : ExtRat :=
  if op.FoldsToZero x y then .zero else op.onNumbers x y

namespace ExtRat

theorem zero_form : zero = (fraction 0).form := ofInt_form 0

theorem isInteger_form (q : ℚ) : (fraction q).form.isInteger = decide (q.den = 1) := beq_eq_decide _ _

/-- A remainder by one is the fractional part. -/
theorem mod_one_form (x : ℚ) : (fraction x).form.mod (fraction 1).form = (fraction (Int.fract x)).form := by
  rw [mod_form x one_ne_zero, div_one, one_mul, Int.self_sub_floor]

/-- Powers of zero: the exponent decides by its sign. -/
theorem pow_zero_form {y : ℚ} (hy : y.den = 1) (hn : y.num.natAbs < Nat.pow 2 64) :
    (fraction 0).form.pow (fraction y).form = if y = 0 then one else if y < 0 then infinity else zero := by
  rw [pow_form 0 hy]
  split
  · rfl
  · rename_i h0
    have hnum : y.num.natAbs ≠ 0 := by simpa using h0
    have hpow : (fraction 0).form.powNat y.num.natAbs = zero := by
      rw [powNat_form 0 hn, zero_pow hnum, zero_form]
    rw [powInt, hpow]
    simp only [Rat.num_neg]
    rfl

end ExtRat

namespace BinaryOp

variable {op : BinaryOp}

/-- Where an operator is tame, folding does not disagree. -/
theorem onLiterals_form {x y q : ℚ} (h : op.onFractions? x y = some q) :
    op.onLiterals (fraction x).form (fraction y).form = (fraction q).form := by
  have hnot : ¬ op.FoldsToZero (fraction x).form (fraction y).form := by
    rintro (⟨rfl, hone, -⟩ | ⟨rfl, hzero, -⟩)
    · rw [ExtRat.isOne_form, decide_eq_true_eq] at hone
      simp [onFractions?, hone] at h
    · rw [ExtRat.isZero_form, decide_eq_true_eq] at hzero
      simp [onFractions?, hzero] at h
  rw [onLiterals, if_neg hnot, onNumbers_form h]

theorem onLiterals_div (x y : ExtRat) : div.onLiterals x y = x.div y := by
  simp [onLiterals, FoldsToZero, onNumbers]

theorem onLiterals_mod_zero (x : ℚ) :
    mod.onLiterals (fraction x).form (fraction 0).form = (fraction x).form.mod (fraction 0).form := by
  have hone : (fraction 0).form.isOne = false := rfl
  simp [onLiterals, FoldsToZero, onNumbers, hone]

theorem onLiterals_mod_one (x : ℚ) : mod.onLiterals (fraction x).form (fraction 1).form = .zero := by
  have hone : (fraction 1).form.isOne = true := rfl
  by_cases hx : x.den = 1
  · have hfract : Int.fract x = 0 := by
      rw [← (Rat.den_eq_one_iff x).1 hx, Int.fract_intCast]
    simp [onLiterals, FoldsToZero, ExtRat.isInteger_form, hx, onNumbers, ExtRat.mod_one_form, hfract, ExtRat.zero_form]
  · simp [onLiterals, FoldsToZero, ExtRat.isInteger_form, hx, hone]

theorem onLiterals_pow_zero {y : ℚ} (hy : y.den = 1) (hn : y.num.natAbs < Nat.pow 2 64) :
    pow.onLiterals (fraction 0).form (fraction y).form = if y = 0 then .one else .zero := by
  have hzero : (fraction 0).form.isZero = true := rfl
  rcases lt_trichotomy y 0 with hneg | rfl | hpos
  · simp [onLiterals, FoldsToZero, hzero, ExtRat.isNegative_form, hneg, hneg.ne]
  · rfl
  · simp [onLiterals, FoldsToZero, ExtRat.isNegative_form, hpos.not_gt, hpos.ne', onNumbers, ExtRat.pow_zero_form hy hn]

/-- Where folding gives zero against the arithmetic, the arithmetic does not give zero. -/
theorem onNumbers_ne_zero {x y : ℚ} (h : op.FoldsToZero (fraction x).form (fraction y).form)
    (hpow : op = pow → y.den = 1 ∧ y.num.natAbs < Nat.pow 2 64) :
    op.onNumbers (fraction x).form (fraction y).form ≠ .zero := by
  rcases h with ⟨rfl, hone, hint⟩ | ⟨rfl, hzero, hneg⟩
  · rw [ExtRat.isOne_form, decide_eq_true_eq] at hone
    rw [ExtRat.isInteger_form, decide_eq_false_iff_not] at hint
    subst hone
    rw [onNumbers, ExtRat.mod_one_form, ExtRat.zero_form, Ne, form_injective.eq_iff, fraction.injEq, Int.fract_eq_zero_iff]
    rintro ⟨n, rfl⟩
    exact hint rfl
  · rw [ExtRat.isZero_form, decide_eq_true_eq] at hzero
    rw [ExtRat.isNegative_form, decide_eq_true_eq] at hneg
    obtain ⟨hy, hn⟩ := hpow rfl
    subst hzero
    rw [onNumbers, ExtRat.pow_zero_form hy hn, if_neg hneg.ne, if_pos hneg]
    decide

end BinaryOp

/-! ## the normal form -/

variable {φ : Type}

theorem Expr.isLiteral_num {text : String} {q : ℚ} (h : Literal.value? text = some (fraction q).form) (n : ℤ) :
    (.num text : Expr φ).isLiteral n = decide (q = n) := by
  rw [isLiteral, literal?, h, ExtRat.ofInt_form, beq_eq_decide]
  refine decide_eq_decide.2 ?_
  rw [Option.some_inj, form_injective.eq_iff, fraction.injEq]

section Normal

variable [DecidableEq φ] {op : BinaryOp} {a b : String} {p q : ℚ}

namespace Pipeline

/-- The passes before folding leave a quotient, a remainder and a power of literals alone. -/
theorem round_literals (hop : op = .div ∨ op = .mod ∨ op = .pow) (a b : String) :
    round {} (.binary op (.num a) (.num b) : Expr φ) = foldRule (.binary op (.num a) (.num b)) := by
  rcases hop with rfl | rfl | rfl <;> rfl

variable (φ) (hb : Literal.value? b = some (fraction q).form)

include hb

theorem round_mod (a : String) :
    round {} (.binary .mod (.num a) (.num b) : Expr φ) =
      if q = 1 then .num "0" else .binary .mod (.num a) (.num b) := by
  rw [round_literals (.inr (.inl rfl)), foldRule, isLiteral_num hb]
  simp

variable (ha : Literal.value? a = some (fraction p).form)

include ha

/-- A quotient of literals by zero folds into the literal of an infinity or of the undefined number. -/
theorem round_div_zero (hq : q = 0) :
    ∃ text, round {} (.binary .div (.num a) (.num b) : Expr φ) = .num text ∧
      Literal.value? text = some ((fraction p).form.div (fraction q).form) := by
  subst hq
  have hquotient := ExtRat.div_zero_form p
  obtain ⟨text, htext⟩ := ExtRat.exists_text_of_not_isFinite (ExtRat.not_isFinite_infinityOf p)
  refine ⟨text, ?_, ?_⟩
  · have hzero : (fraction 0).form.isZero = true := rfl
    rw [round_literals (.inl rfl), foldRule, foldDivision, literal?, literal?, ha, hb]
    simp only [hquotient, hzero, Bool.or_true, if_true, ofNumber?, htext, Option.map_some, Option.getD_some]
  · rw [hquotient]
    exact ExtRat.value?_of_toExactDecimal? (canonical_form _) htext

/-- A power of the literal zero folds into one or zero. -/
theorem round_pow_zero (hp : p = 0) :
    round {} (.binary .pow (.num a) (.num b) : Expr φ) = if q = 0 then .num "1" else .num "0" := by
  subst hp
  rw [round_literals (.inr (.inr rfl)), foldRule, foldPower, isLiteral_num hb, isLiteral_num ha, isLiteral_num ha]
  by_cases h : q = 0 <;> simp [h]

end Pipeline

end Normal

/-! ## evaluation -/

section Evaluation

variable [Foreign φ] {cx : Context φ} {call : Value φ → List (Value φ) → Eval φ (Value φ)} {scope : ScopeId}

theorem eval_num {text : String} {r : ExtRat} (h : Literal.value? text = some r) (m : Machine φ) :
    eval cx call scope (.num text) m = .ok (.number r) m := by
  rw [eval]
  exact evalLiteral_of_read (Literal.value?_eq_some_iff.1 h) m

theorem eval_literals {op : BinaryOp} (hop : op.isArithmetic = true) {a b : String} {x y : ExtRat}
    (ha : Literal.value? a = some x) (hb : Literal.value? b = some y) (m : Machine φ) :
    eval cx call scope (.binary op (.num a) (.num b)) m = .ok (.number (op.onNumbers x y)) m :=
  eval_binary hop (eval_num ha m) (eval_num hb m)

variable [DecidableEq φ]

/-- A tree that folds into a literal in one round gives the number of that literal. -/
theorem eval_normalize_num {e : Expr φ} {text : String} {r : ExtRat} (hround : Pipeline.round {} e = .num text)
    (htext : Literal.value? text = some r) (n : ℕ) (m : Machine φ) :
    eval cx call scope ((Pipeline.withMaxRounds {} n).normalize e) m = .ok (.number r) m := by
  rw [Pipeline.normalize_of_round hround rfl]
  exact eval_num htext m

/-- A tree without names that has a value gives it after normalising. -/
theorem eval_normalize_value {e : Expr φ} {q : ℚ} (hq : value (fun _ => none) e = some q) (n : ℕ) (m : Machine φ) :
    eval cx call scope ((Pipeline.withMaxRounds {} n).normalize e) m = .ok (.number (fraction q).form) m := by
  obtain ⟨j, hj⟩ := (Pipeline.withMaxRounds {} n).exists_iterate_eq (max n 1) e
  have hnormal : (Pipeline.withMaxRounds {} n).normalize e = (Pipeline.withMaxRounds {} n).round^[j] e := hj
  rw [hnormal]
  refine eval_of_names ?_ ((Pipeline.withMaxRounds {} n).keeps_iterate_round j hq)
  intro x q h
  cases h

variable {op : BinaryOp} {a b : String} {p q : ℚ} (ha : Literal.value? a = some (fraction p).form)
  (hb : Literal.value? b = some (fraction q).form)

include ha hb

/-- An operator that is tame on two literals. -/
theorem eval_normalize_tame {r : ℚ} (h : op.onFractions? p q = some r) (n : ℕ) (m : Machine φ) :
    eval cx call scope ((Pipeline.withMaxRounds {} n).normalize (.binary op (.num a) (.num b))) m =
      .ok (.number (op.onLiterals (fraction p).form (fraction q).form)) m := by
  have hliteral : ∀ {text : String} {q : ℚ}, Literal.value? text = some (fraction q).form →
      value (fun _ => none) (.num text : Expr φ) = some q := by
    intro text q htext
    rw [value, htext, Option.bind_some, ExtRat.fraction?_form]
  rw [BinaryOp.onLiterals_form h]
  exact eval_normalize_value (value_binary_iff.2 ⟨p, q, hliteral ha, hliteral hb, h⟩) n m

/-- **The normal form of an operator between two literals** gives what the operator gives on their numbers, or zero where
folding disagrees. -/
theorem eval_normalize_literals (hop : op.isArithmetic = true)
    (hpow : op = .pow → q.den = 1 ∧ q.num.natAbs < Nat.pow 2 64) (n : ℕ) (m : Machine φ) :
    eval cx call scope ((Pipeline.withMaxRounds {} n).normalize (.binary op (.num a) (.num b))) m =
      .ok (.number (op.onLiterals (fraction p).form (fraction q).form)) m := by
  cases op with
  | add | sub | mul => exact eval_normalize_tame ha hb rfl n m
  | div =>
    by_cases hq : q = 0
    · obtain ⟨text, hround, htext⟩ := Pipeline.round_div_zero φ hb ha hq
      rw [BinaryOp.onLiterals_div]
      exact eval_normalize_num hround htext n m
    · have htame : BinaryOp.div.onFractions? p q = some (p / q) := if_neg hq
      exact eval_normalize_tame ha hb htame n m
  | mod =>
    have hround := Pipeline.round_mod φ hb a
    by_cases hone : q = 1
    · subst hone
      rw [if_pos rfl] at hround
      rw [BinaryOp.onLiterals_mod_one]
      exact eval_normalize_num hround (by decide) n m
    rw [if_neg hone] at hround
    by_cases hzero : q = 0
    · -- nothing folds here, and the remainder by zero is left to the arithmetic
      subst hzero
      rw [Pipeline.normalize_of_round hround hround, eval_literals rfl ha hb, BinaryOp.onLiterals_mod_zero]
      rfl
    · have htame : BinaryOp.mod.onFractions? p q = some (p - q * ⌊p / q⌋) := if_neg (not_or.2 ⟨hzero, hone⟩)
      exact eval_normalize_tame ha hb htame n m
  | pow =>
    obtain ⟨hden, hn⟩ := hpow rfl
    by_cases hp : p = 0
    · have hround := Pipeline.round_pow_zero φ hb ha hp
      subst hp
      rw [BinaryOp.onLiterals_pow_zero hden hn]
      split
      · rename_i hq
        rw [if_pos hq] at hround
        exact eval_normalize_num hround (by decide) n m
      · rename_i hq
        rw [if_neg hq] at hround
        exact eval_normalize_num hround (by decide) n m
    · have htame : BinaryOp.pow.onFractions? p q = some (p ^ q.num) := if_pos ⟨hp, hden, hn⟩
      exact eval_normalize_tame ha hb htame n m
  | _ => cases hop

end Evaluation

namespace Interpreter

variable [Foreign φ] [DecidableEq φ]

/-- A run that normalises gives what the normal form evaluates to, if that leaves the machine alone. -/
theorem exists_run_of_normalize (i : Interpreter φ) (fuel : ℕ) {e : Expr φ} {r : ExtRat}
    (hnormal : i.context.config.normalizes = true) (hfault : e.firstFault? = none)
    (heval : ∀ m, eval i.context (callValue i.context fuel) i.top (i.pipeline.normalize e) m = .ok (.number r) m)
    (m : Machine φ) : ∃ m', i.run fuel e m = .ok (.number r) m' ∧ m'.store = m.store := by
  rw [i.run_eq fuel hnormal hfault, evaluate_eq, heval]
  exact ⟨_, rfl, rfl⟩

/-- **Operators between two literals.**  Let an operator of arithmetic stand between literals of fractions, and the exponent of
a power be an integer of 64 bits.  Evaluating the tree gives the number that the operator gives on those of the literals, and
running it gives the same number, except that a remainder by one and a negative power of zero give zero. -/
theorem run_literals (i : Interpreter φ) (fuel : ℕ) (m : Machine φ) {op : BinaryOp} {a b : String} {x y : ExtRat}
    (hnormal : i.context.config.normalizes = true) (hop : op.isArithmetic = true) (ha : Literal.value? a = some x)
    (hb : Literal.value? b = some y) (hx : x.isFinite = true) (hy : y.isFinite = true)
    (hpow : op = .pow → y.isInteger = true ∧ y.num.natAbs < Nat.pow 2 64) :
    (∃ m', i.run fuel (.binary op (.num a) (.num b)) m =
        .ok (.number (if op.FoldsToZero x y then .zero else op.onNumbers x y)) m' ∧ m'.store = m.store) ∧
      (∃ m', i.evaluate fuel (.binary op (.num a) (.num b)) m = .ok (.number (op.onNumbers x y)) m' ∧
        m'.store = m.store) ∧
      (op.FoldsToZero x y → op.onNumbers x y ≠ .zero) := by
  obtain ⟨p, rfl⟩ := (ExtRat.isFinite_iff (Literal.canonical_value? ha)).1 hx
  obtain ⟨q, rfl⟩ := (ExtRat.isFinite_iff (Literal.canonical_value? hb)).1 hy
  have hexponent : op = .pow → q.den = 1 ∧ q.num.natAbs < Nat.pow 2 64 := by
    intro h
    obtain ⟨hint, hn⟩ := hpow h
    rw [ExtRat.isInteger_form, decide_eq_true_eq] at hint
    exact ⟨hint, hn⟩
  have hfault : (.binary op (.num a) (.num b) : Expr φ).firstFault? = none := by
    refine firstFault?_eq_none_iff.2 ?_
    intro text htext
    have htext : text = a ∨ text = b := by simpa [literals] using htext
    rcases htext with rfl | rfl
    · exact ⟨_, Literal.value?_eq_some_iff.1 ha⟩
    · exact ⟨_, Literal.value?_eq_some_iff.1 hb⟩
  refine ⟨?_, ?_, fun hfolds => BinaryOp.onNumbers_ne_zero hfolds hexponent⟩
  · exact i.exists_run_of_normalize fuel hnormal hfault (eval_normalize_literals ha hb hop hexponent _) m
  · rw [evaluate_eq, eval_literals hop ha hb]
    exact ⟨_, rfl, rfl⟩

/-- `-0.5 ^ -3` -/
theorem run_literals_cube :
    let i : Interpreter Empty := { top := 0 }
    let e : Expr Empty := .binary .pow (.num "-0.5") (.num "-3")
    (∃ m', i.run 0 e {} = .ok (.number ⟨-8, 1⟩) m') ∧ ∃ m', i.evaluate 0 e {} = .ok (.number ⟨-8, 1⟩) m' := by
  intro i e
  have ha : Literal.value? "-0.5" = some ⟨-1, 2⟩ := by decide +kernel
  have hb : Literal.value? "-3" = some ⟨-3, 1⟩ := by decide
  have hnumber : BinaryOp.pow.onNumbers ⟨-1, 2⟩ ⟨-3, 1⟩ = ⟨-8, 1⟩ := by decide +kernel
  obtain ⟨⟨m₁, hrun, -⟩, ⟨m₂, heval, -⟩, -⟩ :=
    i.run_literals 0 {} rfl (rfl : BinaryOp.pow.isArithmetic = true) ha hb rfl rfl fun _ => ⟨rfl, by decide⟩
  rw [if_neg (by decide), hnumber] at hrun
  rw [hnumber] at heval
  exact ⟨⟨m₁, hrun⟩, m₂, heval⟩

/-- Running `0.5 mod 1` gives zero instead of one half, and running `0 ^ -1` zero instead of infinity. -/
theorem run_literals_zero :
    let i : Interpreter Empty := { top := 0 }
    let e₁ : Expr Empty := .binary .mod (.num "0.5") (.num "1")
    let e₂ : Expr Empty := .binary .pow (.num "0") (.num "-1")
    ((∃ m', i.run 0 e₁ {} = .ok (.number .zero) m') ∧ ∃ m', i.evaluate 0 e₁ {} = .ok (.number ⟨1, 2⟩) m') ∧
      (∃ m', i.run 0 e₂ {} = .ok (.number .zero) m') ∧ ∃ m', i.evaluate 0 e₂ {} = .ok (.number .infinity) m' := by
  intro i e₁ e₂
  have hzero : Literal.value? "0" = some .zero := by decide
  have hhalf : Literal.value? "0.5" = some ⟨1, 2⟩ := by decide +kernel
  have hone : Literal.value? "1" = some .one := by decide
  have hminus : Literal.value? "-1" = some ⟨-1, 1⟩ := by decide
  have hmod : BinaryOp.mod.onNumbers ⟨1, 2⟩ .one = ⟨1, 2⟩ := by decide +kernel
  have hpow : BinaryOp.pow.onNumbers .zero ⟨-1, 1⟩ = .infinity := by decide +kernel
  have hround₁ : Pipeline.round {} e₁ = .num "0" := (Pipeline.round_mod Empty (q := 1) hone _).trans (if_pos rfl)
  have hround₂ : Pipeline.round {} e₂ = .num "0" :=
    (Pipeline.round_pow_zero Empty (q := -1) hminus (p := 0) hzero rfl).trans (if_neg (by decide))
  have hrun : ∀ e, Pipeline.round {} e = .num "0" → e.firstFault? = none →
      ∃ m', i.run 0 e {} = .ok (.number .zero) m' := by
    intro e hround hfault
    obtain ⟨m', hm', -⟩ := i.exists_run_of_normalize 0 rfl hfault (eval_normalize_num hround hzero _) {}
    exact ⟨m', hm'⟩
  have heval₁ : i.evaluate 0 e₁ {} = _ := eval_literals rfl hhalf hone _
  have heval₂ : i.evaluate 0 e₂ {} = _ := eval_literals rfl hzero hminus _
  rw [hmod] at heval₁
  rw [hpow] at heval₂
  exact ⟨⟨hrun e₁ hround₁ (by decide +kernel), _, heval₁⟩, hrun e₂ hround₂ (by decide +kernel), _, heval₂⟩

end Interpreter

end RatCalc
