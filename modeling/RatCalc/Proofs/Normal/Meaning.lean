import RatCalc.Proofs.Normal.Termination
import RatCalc.Proofs.Number.Fractions
import Mathlib.Data.Option.NAry

/-!
# Finite arithmetic and its value

A tree of operators over fractions has a value if it never leaves them: no literal or variable is infinite, nothing is
divided by zero, and no power or remainder is one of those on which folding and evaluation part ways.

* `value env e` — that value, in an environment of fractions; `chainValue env op es` — the one of a chain;
* `Keeps env f` — `f` keeps the value of every tree that has one;
* `Keeps.bottomUp` — a pass keeps values if its rule does;
* `keeps_positiveRule`, `keeps_levelRule`, `keeps_orderRule`, `keeps_fractionRule` — four of the five rules.
-/

namespace RatCalc

namespace Expr

variable {φ : Type}

mutual
/-- The value of a tree in an environment of fractions. -/
def value (env : String → Option ℚ) : Expr φ → Option ℚ
  | .num text => (Literal.value? text).bind ExtRat.fraction?
  | .var name => env name
  | .unary op _ e => (value env e).map op.onFraction
  | .binary op a b => (value env a).bind fun x => (value env b).bind fun y => op.onFractions? x y
  | .chain op es => chainValue env op es
  | _ => none
/-- The value of a chain. -/
def chainValue (env : String → Option ℚ) (op : ChainOp) : List (Expr φ) → Option ℚ
  | [] => some op.neutral
  | e :: es => Option.map₂ op.onFractions (value env e) (chainValue env op es)
end

variable {env : String → Option ℚ} {op : ChainOp}

theorem value_unary_iff {op : UnaryOp} {p : Place} {e : Expr φ} {q : ℚ} :
    value env (.unary op p e) = some q ↔ ∃ x, value env e = some x ∧ op.onFraction x = q := by
  rw [value, Option.map_eq_some_iff]

theorem value_binary_iff {op : BinaryOp} {a b : Expr φ} {q : ℚ} :
    value env (.binary op a b) = some q ↔
      ∃ x y, value env a = some x ∧ value env b = some y ∧ op.onFractions? x y = some q := by
  simp only [value, Option.bind_eq_some_iff]
  constructor
  · rintro ⟨x, hx, y, hy, h⟩
    exact ⟨x, y, hx, hy, h⟩
  · rintro ⟨x, y, hx, hy, h⟩
    exact ⟨x, hx, y, hy, h⟩

theorem value_div_iff {a b : Expr φ} {q : ℚ} :
    value env (div a b) = some q ↔ ∃ x y, value env a = some x ∧ value env b = some y ∧ y ≠ 0 ∧ x / y = q := by
  simp [div, value_binary_iff, BinaryOp.onFractions?]

theorem value_mul_iff {a b : Expr φ} {q : ℚ} :
    value env (mul a b) = some q ↔ ∃ x y, value env a = some x ∧ value env b = some y ∧ x * y = q := by
  simp [mul, value_binary_iff, BinaryOp.onFractions?]

theorem chainValue_cons_iff {e : Expr φ} {es : List (Expr φ)} {q : ℚ} :
    chainValue env op (e :: es) = some q ↔
      ∃ x y, value env e = some x ∧ chainValue env op es = some y ∧ op.onFractions x y = q := by
  rw [chainValue, Option.map₂_eq_some_iff]
  rfl

theorem value_of_literal? {e : Expr φ} {x : ExtRat} (h : e.literal? = some x) : value env e = x.fraction? := by
  cases e with
  | num text =>
    rw [literal?] at h
    rw [value, h, Option.bind_some]
  | _ => cases h

theorem value_num {text : String} {n : ℤ} {d : ℕ} (h : Literal.value? text = some ⟨n, d⟩) (hd : d ≠ 0) :
    value env (.num text : Expr φ) = some (n / d : ℚ) := by
  rw [value, h, Option.bind_some, ExtRat.fraction?, if_neg hd]

theorem value_minusOne : value env (.num "-1" : Expr φ) = some (-1) :=
  (value_num (n := -1) (d := 1) (by decide) (by decide)).trans (by simp)

theorem value_identity (op : ChainOp) : value env (.num op.identity : Expr φ) = some op.neutral := by
  cases op with
  | add => exact (value_num (n := 0) (d := 1) (by decide) (by decide)).trans (by simp [ChainOp.neutral])
  | mul => exact (value_num (n := 1) (d := 1) (by decide) (by decide)).trans (by simp [ChainOp.neutral])

theorem value_of_isLiteral {e : Expr φ} {n : ℤ} (h : e.isLiteral n = true) : value env e = some (n : ℚ) := by
  have hlit : e.literal? = some (.ofInt n) := by simpa [isLiteral] using h
  rw [value_of_literal? hlit]
  simp [ExtRat.fraction?, ExtRat.ofInt]

/-- Two operands as a chain and as an operation. -/
theorem value_toBinary (a b : Expr φ) :
    value env (.binary op.toBinary a b) = Option.map₂ op.onFractions (value env a) (value env b) := by
  cases op <;> cases ha : value env a <;> cases hb : value env b <;>
    simp [value, ha, hb, ChainOp.toBinary, BinaryOp.onFractions?, ChainOp.onFractions]

/-! ## chains as lists -/

theorem chainValue_singleton (e : Expr φ) : chainValue env op [e] = value env e := by
  cases h : value env e <;> simp [chainValue, h]

theorem chainValue_append (as bs : List (Expr φ)) :
    chainValue env op (as ++ bs) = Option.map₂ op.onFractions (chainValue env op as) (chainValue env op bs) := by
  induction as with
  | nil => cases h : chainValue env op bs <;> simp [chainValue, h]
  | cons a as ih =>
    rw [List.cons_append, chainValue, ih, chainValue]
    exact (Option.map₂_assoc op.onFractions_assoc).symm

theorem chainValue_perm {as bs : List (Expr φ)} (h : as.Perm bs) : chainValue env op as = chainValue env op bs := by
  induction h with
  | nil => rfl
  | cons a _ ih => rw [chainValue, chainValue, ih]
  | swap a b cs =>
    rw [chainValue, chainValue, chainValue, chainValue]
    exact Option.map₂_left_comm fun x y z => by
      rw [← op.onFractions_assoc, op.onFractions_comm x y, op.onFractions_assoc]
  | trans _ _ ih1 ih2 => exact ih1.trans ih2

theorem exists_chainValue {es : List (Expr φ)}
    (h : ∀ e ∈ es, ∃ q, value env e = some q) : ∃ q, chainValue env op es = some q := by
  induction es with
  | nil => exact ⟨op.neutral, rfl⟩
  | cons e es ih =>
    obtain ⟨x, hx⟩ := h e (by simp)
    obtain ⟨y, hy⟩ := ih fun e' he' => h e' (by simp [he'])
    exact ⟨_, chainValue_cons_iff.2 ⟨x, y, hx, hy, rfl⟩⟩


theorem value_productOf (es : List (Expr φ)) : value env (productOf es) = chainValue env .mul es := by
  unfold productOf
  split
  · exact (chainValue_singleton _).symm
  · rw [value]

/-- The children of a tree with a value have values. -/
theorem exists_value_of_mem_children {e c : Expr φ} {q : ℚ} (hq : value env e = some q) (hc : c ∈ e.children) :
    ∃ x, value env c = some x := by
  have hchain : ∀ {op : ChainOp} {es : List (Expr φ)} {q : ℚ}, chainValue env op es = some q →
      ∀ e ∈ es, ∃ x, value env e = some x := by
    intro op es
    induction es with
    | nil => simp
    | cons e es ih =>
      intro q hq
      obtain ⟨x, y, hx, hy, -⟩ := chainValue_cons_iff.1 hq
      exact List.forall_mem_cons.2 ⟨⟨x, hx⟩, ih hy⟩
  cases e with
  | unary op p e =>
    obtain ⟨x, hx, -⟩ := value_unary_iff.1 hq
    rw [List.mem_singleton.1 hc]
    exact ⟨x, hx⟩
  | binary op a b =>
    obtain ⟨x, y, hx, hy, -⟩ := value_binary_iff.1 hq
    rcases List.mem_pair.1 hc with rfl | rfl
    · exact ⟨x, hx⟩
    · exact ⟨y, hy⟩
  | chain op es =>
    rw [value] at hq
    exact hchain hq c hc
  | num | var => cases hc
  | _ => simp [value] at hq

/-! ## rewritings that keep values -/

/-- What has a value before has the same one after. -/
def Keeps (env : String → Option ℚ) (f : Expr φ → Expr φ) : Prop :=
  ∀ ⦃e q⦄, value env e = some q → value env (f e) = some q

theorem chainValue_map {f : Expr φ → Expr φ} {es : List (Expr φ)}
    (h : ∀ e ∈ es, ∀ q, value env e = some q → value env (f e) = some q) {q : ℚ} (hq : chainValue env op es = some q) :
    chainValue env op (es.map f) = some q := by
  induction es generalizing q with
  | nil => exact hq
  | cons e es ih =>
    obtain ⟨x, y, hx, hy, rfl⟩ := chainValue_cons_iff.1 hq
    have hes := ih (fun e' he' => h e' (by simp [he'])) hy
    exact chainValue_cons_iff.2 ⟨x, y, h e (by simp) x hx, hes, rfl⟩

theorem value_mapChildren {f : Expr φ → Expr φ} {e : Expr φ}
    (h : ∀ c ∈ e.children, ∀ q, value env c = some q → value env (f c) = some q) {q : ℚ} (hq : value env e = some q) :
    value env (e.mapChildren f) = some q := by
  cases e with
  | num text => exact hq
  | var name => exact hq
  | unary op p e =>
    obtain ⟨x, hx, rfl⟩ := value_unary_iff.1 hq
    exact value_unary_iff.2 ⟨x, h e (by simp [children]) x hx, rfl⟩
  | binary op a b =>
    obtain ⟨x, y, hx, hy, hxy⟩ := value_binary_iff.1 hq
    exact value_binary_iff.2 ⟨x, y, h a (by simp [children]) x hx, h b (by simp [children]) y hy, hxy⟩
  | chain op es =>
    rw [value] at hq
    rw [mapChildren, value]
    exact chainValue_map h hq
  | _ => simp [value] at hq

/-- **Passes.**  If a rule keeps values at a node, then its pass keeps the values of trees. -/
theorem Keeps.bottomUp {rule : Expr φ → Expr φ} (h : Keeps env rule) : Keeps env (bottomUp rule) := by
  intro e
  induction e using childInduction with
  | step e ih =>
    intro q hq
    rw [bottomUp_eq]
    exact h (value_mapChildren (fun c hc q => ih c hc (q := q)) hq)

/-! ## negation and leveling -/

theorem keeps_positiveRule : Keeps env (positiveRule : Expr φ → Expr φ) := by
  have hneg : ∀ {e : Expr φ} {x}, value env e = some x → value env (negated e) = some (-x) := by
    intro e x hx
    exact value_mul_iff.2 ⟨-1, x, value_minusOne, hx, neg_one_mul x⟩
  intro e q hq
  unfold positiveRule
  split
  · obtain ⟨x, hx, rfl⟩ := value_unary_iff.1 hq
    exact hx
  · obtain ⟨x, hx, rfl⟩ := value_unary_iff.1 hq
    exact hneg hx
  · obtain ⟨x, hx, rfl⟩ := value_unary_iff.1 hq
    have hcent : value env (.num "0.01" : Expr φ) = _ := value_num (n := 1) (d := 100) (by decide) (by decide)
    exact value_mul_iff.2 ⟨x, _, hx, hcent, by simp [UnaryOp.onFraction, div_eq_mul_inv]⟩
  · obtain ⟨x, y, hx, hy, hxy⟩ := value_binary_iff.1 hq
    refine value_binary_iff.2 ⟨x, -y, hx, hneg hy, ?_⟩
    rw [BinaryOp.onFractions?, ← sub_eq_add_neg]
    exact hxy
  · exact hq

theorem chainValue_splice (e : Expr φ) : chainValue env op (splice op e) = value env e := by
  unfold splice
  split
  · rename_i op' es
    split
    · rename_i hop
      rw [hop, value]
    · exact chainValue_singleton _
  · exact chainValue_singleton _

theorem chainValue_flatMap_splice (es : List (Expr φ)) :
    chainValue env op (es.flatMap (splice op)) = chainValue env op es := by
  induction es with
  | nil => rfl
  | cons e es ih => rw [List.flatMap_cons, chainValue_append, chainValue_splice, ih, chainValue]

theorem keeps_levelRule : Keeps env (levelRule : Expr φ → Expr φ) := by
  intro e q hq
  unfold levelRule
  split
  · rename_i o a b
    split
    · rename_i op hop
      obtain rfl : o = op.toBinary := by
        cases o <;> simp [ChainOp.ofBinary?] at hop <;> subst hop <;> rfl
      rwa [value, chainValue_append, chainValue_splice, chainValue_splice, ← value_toBinary]
    · exact hq
  · rwa [value, chainValue_flatMap_splice, ← value]
  · exact hq

theorem keeps_orderRule : Keeps env (orderRule : Expr φ → Expr φ) := by
  intro e q hq
  unfold orderRule
  split
  · rwa [value, chainValue_perm (perm_sort _), ← value]
  · exact hq

/-! ## fractions -/

/-- A value as the quotient of the values of numerator and denominator, which is one where there is none. -/
theorem exists_fraction {e : Expr φ} {q : ℚ} (hq : value env e = some q) :
    ∃ x y, value env e.numerator = some x ∧ (e.denominator?.elim (some 1) (value env)) = some y ∧ y ≠ 0 ∧ q = x / y := by
  cases h : e.denominator? with
  | none => exact ⟨q, 1, by rwa [numerator_of_denominator? h], rfl, one_ne_zero, (div_one q).symm⟩
  | some d =>
    obtain ⟨p, rfl⟩ := eq_div_of_denominator? h
    obtain ⟨x, y, hx, hy, hne, rfl⟩ := value_div_iff.1 hq
    exact ⟨x, y, hx, hy, hne, rfl⟩

theorem value_mulFractions {a b : Expr φ} {q : ℚ} (hq : value env (mul a b) = some q) :
    value env (mulFractions a b) = some q := by
  obtain ⟨x, y, hx, hy, rfl⟩ := value_mul_iff.1 hq
  obtain ⟨n, d, hn, hd, hd0, rfl⟩ := exists_fraction hx
  obtain ⟨m, c, hm, hc, hc0, rfl⟩ := exists_fraction hy
  have hnm : value env (mul a.numerator b.numerator) = some (n * m) := value_mul_iff.2 ⟨n, m, hn, hm, rfl⟩
  unfold mulFractions
  split
  · exact hq
  · rename_i s ha hb
    rw [ha] at hd
    rw [hb] at hc
    cases hd
    rw [numerator_of_denominator? ha] at hnm
    exact value_div_iff.2 ⟨_, c, hnm, hc, hc0, by rw [div_one, mul_div_assoc]⟩
  · rename_i q ha hb
    rw [ha] at hd
    rw [hb] at hc
    cases hc
    rw [numerator_of_denominator? hb] at hnm
    exact value_div_iff.2 ⟨_, d, hnm, hd, hd0, by rw [div_one, div_mul_eq_mul_div]⟩
  · rename_i q s ha hb
    rw [ha] at hd
    rw [hb] at hc
    have hdc : value env (mul q s) = some (d * c) := value_mul_iff.2 ⟨d, c, hd, hc, rfl⟩
    exact value_div_iff.2 ⟨_, _, hnm, hdc, mul_ne_zero hd0 hc0, (div_mul_div_comm n d m c).symm⟩

theorem value_divFractions {a b : Expr φ} {q : ℚ} (hq : value env (div a b) = some q) :
    value env (divFractions a b) = some q := by
  obtain ⟨x, y, hx, hy, hy0, rfl⟩ := value_div_iff.1 hq
  obtain ⟨n, d, hn, hd, hd0, rfl⟩ := exists_fraction hx
  obtain ⟨m, c, hm, hc, hc0, rfl⟩ := exists_fraction hy
  have hm0 : m ≠ 0 := by
    rintro rfl
    exact hy0 (zero_div c)
  unfold divFractions
  split
  · exact hq
  · rename_i s ha hb
    rw [ha] at hd
    rw [hb] at hc
    cases hd
    rw [numerator_of_denominator? ha] at hn
    have hnc : value env (mul a s) = some (n * c) := value_mul_iff.2 ⟨n, c, hn, hc, rfl⟩
    exact value_div_iff.2 ⟨_, m, hnc, hm, hm0, by rw [div_one, div_div_eq_mul_div]⟩
  · rename_i q ha hb
    rw [ha] at hd
    rw [hb] at hc
    cases hc
    rw [numerator_of_denominator? hb] at hm
    have hdm : value env (mul q b) = some (d * m) := value_mul_iff.2 ⟨d, m, hd, hm, rfl⟩
    exact value_div_iff.2 ⟨n, _, hn, hdm, mul_ne_zero hd0 hm0, by rw [div_one, div_div]⟩
  · rename_i q s ha hb
    rw [ha] at hd
    rw [hb] at hc
    have hnc : value env (mul a.numerator s) = some (n * c) := value_mul_iff.2 ⟨n, c, hn, hc, rfl⟩
    have hdm : value env (mul q b.numerator) = some (d * m) := value_mul_iff.2 ⟨d, m, hd, hm, rfl⟩
    exact value_div_iff.2 ⟨_, _, hnc, hdm, mul_ne_zero hd0 hm0, (div_div_div_eq n d m c).symm⟩

/-- The fractions of a product, collected. -/
theorem chainValue_fractions {es : List (Expr φ)} {q : ℚ} (hq : chainValue env .mul es = some q) :
    ∃ x y, chainValue env .mul (es.map numerator) = some x ∧ chainValue env .mul (es.filterMap denominator?) = some y ∧
      y ≠ 0 ∧ x / y = q := by
  induction es generalizing q with
  | nil => exact ⟨q, 1, hq, rfl, one_ne_zero, div_one q⟩
  | cons e es ih =>
    obtain ⟨p, r, hp, hr, rfl⟩ := chainValue_cons_iff.1 hq
    obtain ⟨n, d, hn, hd, hd0, rfl⟩ := exists_fraction hp
    obtain ⟨x, y, hx, hy, hy0, rfl⟩ := ih hr
    have hnx : chainValue env .mul ((e :: es).map numerator) = some (n * x) := chainValue_cons_iff.2 ⟨n, x, hn, hx, rfl⟩
    have hdy : chainValue env .mul ((e :: es).filterMap denominator?) = some (d * y) := by
      cases h : e.denominator? with
      | none =>
        rw [h] at hd
        cases hd
        rwa [List.filterMap_cons_none h, one_mul]
      | some s =>
        rw [h] at hd
        rw [List.filterMap_cons_some h]
        exact chainValue_cons_iff.2 ⟨d, y, hd, hy, rfl⟩
    exact ⟨_, _, hnx, hdy, mul_ne_zero hd0 hy0, (div_mul_div_comm n d x y).symm⟩

theorem keeps_fractionRule : Keeps env (fractionRule : Expr φ → Expr φ) := by
  intro e q hq
  unfold fractionRule
  split
  · exact value_mulFractions hq
  · exact value_divFractions hq
  · rename_i es
    unfold collectFractions
    split
    · rw [value] at hq
      obtain ⟨x, y, hx, hy, hy0, hxy⟩ := chainValue_fractions hq
      rw [← value_productOf] at hy
      exact value_div_iff.2 ⟨x, y, by rwa [value], hy, hy0, hxy⟩
    · exact hq
  · exact hq

end Expr

end RatCalc
