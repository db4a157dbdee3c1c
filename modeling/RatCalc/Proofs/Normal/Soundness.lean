import RatCalc.Proofs.Normal.Meaning

/-!
# Folding keeps values

Literals fold through their decimal text, which reads back as the folded number; zeros, ones and pairs of opposite terms
add nothing.  With that all five rules keep values, hence passes and rounds do.

* `chainValue_foldLiterals`, `chainValue_cancelNegations` — the two steps of folding a chain;
* `keeps_foldRule` — the rule; `Pass.keeps_apply`, `Pipeline.keeps_iterate_round` — passes and rounds.
-/

namespace RatCalc

open Extended ExtRat

namespace Expr

variable {φ : Type} {env : String → Option ℚ} {op : ChainOp}

/-! ## literals of a chain -/

theorem canonical_literal? {e : Expr φ} {x : ExtRat} (h : e.literal? = some x) : x.Canonical := by
  cases e with
  | num text => exact Literal.canonical_value? h
  | _ => cases h

/-- A literal with a value is the literal of that fraction. -/
theorem literal?_eq_form {e : Expr φ} {x : ExtRat} {q : ℚ} (h : e.literal? = some x) (hq : value env e = some q) :
    x = (fraction q).form := by
  rw [value_of_literal? h] at hq
  exact eq_form_of_fraction? (canonical_literal? h) hq

theorem value_of_ofNumber? {q : ℚ} {e : Expr φ} (h : ofNumber? (fraction q).form = some e) : value env e = some q := by
  obtain ⟨text, htext, rfl⟩ := Option.map_eq_some_iff.1 h
  have hlit : literal? (.num text : Expr φ) = some (fraction q).form :=
    value?_of_toExactDecimal? (canonical_form _) htext
  rw [value_of_literal? hlit, fraction?_form]

theorem foldl_form (op : ChainOp) (p : ℚ) (qs : List ℚ) :
    (qs.map fun q => (fraction q).form).foldl op.toBinary.onNumbers (fraction p).form =
      (fraction (qs.foldl op.onFractions p)).form := by
  induction qs generalizing p with
  | nil => rfl
  | cons q qs ih => rw [List.map_cons, List.foldl_cons, op.onNumbers_form, ih, List.foldl_cons]

/-- The literals of a chain with a value are fractions, and their total is the value of the literals. -/
theorem chainValue_literals {es : List (Expr φ)} {q : ℚ} (hq : chainValue env op es = some q) :
    ∃ ps : List ℚ, es.filterMap literal? = ps.map (fun p => (fraction p).form) ∧
      chainValue env op (es.filter (·.literal?.isSome)) = some (ps.foldl op.onFractions op.neutral) := by
  induction es generalizing q with
  | nil => exact ⟨[], rfl, rfl⟩
  | cons e es ih =>
    obtain ⟨x, y, hx, hy, -⟩ := chainValue_cons_iff.1 hq
    obtain ⟨ps, hps, hval⟩ := ih hy
    cases h : e.literal? with
    | none =>
      refine ⟨ps, ?_, ?_⟩
      · rw [List.filterMap_cons_none h, hps]
      · rw [List.filter_cons_of_neg (by simp [h]), hval]
    | some r =>
      refine ⟨x :: ps, ?_, ?_⟩
      · rw [List.filterMap_cons_some h, hps, literal?_eq_form h hx, List.map_cons]
      · rw [List.filter_cons_of_pos (by simp [h])]
        refine chainValue_cons_iff.2 ⟨x, _, hx, hval, ?_⟩
        rw [List.foldl_cons, op.onFractions_comm op.neutral x, List.foldl_assoc]

theorem chainValue_foldLiterals {es : List (Expr φ)} {q : ℚ} (hq : chainValue env op es = some q) :
    chainValue env op (foldLiterals op es) = some q := by
  unfold foldLiterals
  split
  · rename_i e he
    obtain ⟨x, xs, hes, -, -, hnum⟩ := of_foldedLiteral? he
    obtain ⟨ps, hps, hlit⟩ := chainValue_literals hq
    rw [hes] at hps
    obtain ⟨p, ps, rfl, rfl, rfl⟩ := List.map_eq_cons_iff.1 hps.symm
    rw [foldl_form] at hnum
    rw [← chainValue_perm (literals_append_perm es), chainValue_append, hlit] at hq
    rw [chainValue, value_of_ofNumber? hnum]
    rwa [List.foldl_cons, op.neutral_onFractions] at hq
  · exact hq

/-- Operands that are literals of the neutral number add nothing. -/
theorem chainValue_filter_neutral {n : ℤ} (hn : (n : ℚ) = op.neutral) (es : List (Expr φ)) :
    chainValue env op (es.filter (!·.isLiteral n)) = chainValue env op es := by
  induction es with
  | nil => rfl
  | cons e es ih =>
    cases h : e.isLiteral n with
    | false => rw [List.filter_cons_of_pos (by simp [h]), chainValue, chainValue, ih]
    | true =>
      rw [List.filter_cons_of_neg (by simp [h]), ih, chainValue, value_of_isLiteral h, hn]
      exact (Option.map₂_left_identity op.neutral_onFractions _).symm

/-- A product with a factor zero is zero. -/
theorem chainValue_mul_zero {e : Expr φ} {es : List (Expr φ)} {q : ℚ} (hmem : e ∈ es) (he : e.isLiteral 0 = true)
    (hq : chainValue env .mul es = some q) : q = 0 := by
  obtain ⟨as, bs, rfl⟩ := List.append_of_mem hmem
  rw [chainValue_perm List.perm_middle] at hq
  obtain ⟨x, y, hx, -, rfl⟩ := chainValue_cons_iff.1 hq
  rw [value_of_isLiteral he] at hx
  cases hx
  simp [ChainOp.onFractions]

theorem value_chainOf (es : List (Expr φ)) : value env (chainOf op es) = chainValue env op es := by
  unfold chainOf
  split
  · rw [value_identity, chainValue]
  · exact (chainValue_singleton _).symm
  · rw [value, chainValue_perm (perm_sort _)]

/-! ## folding -/

theorem value_of_negationTarget? {e t : Expr φ} {q : ℚ} (h : e.negationTarget? = some t) (hq : value env e = some q) :
    value env t = some (-q) := by
  unfold negationTarget? at h
  split at h
  · rename_i m a as
    split at h
    · rename_i hm
      cases h
      rw [value] at hq
      obtain ⟨x, y, hx, hy, rfl⟩ := chainValue_cons_iff.1 hq
      rw [value_of_isLiteral hm] at hx
      cases hx
      rw [value_productOf, hy]
      simp [ChainOp.onFractions]
    · cases h
  · cases h

theorem value_foldPower {a b : Expr φ} {q : ℚ} (hq : value env (.binary .pow a b) = some q) :
    value env (foldPower a b) = some q := by
  obtain ⟨x, y, hx, hy, hxy⟩ := value_binary_iff.1 hq
  rw [BinaryOp.onFractions?, Option.ite_none_right_eq_some] at hxy
  obtain ⟨⟨hx0, -, -⟩, hpow⟩ := hxy
  obtain rfl : x ^ y.num = q := Option.some.inj hpow
  unfold foldPower
  split
  · rename_i hone
    have h1 : x ^ y.num = 1 := by
      rcases Bool.or_eq_true_iff.1 hone with hb | ha
      · rw [value_of_isLiteral hb] at hy
        cases hy
        exact zpow_zero x
      · rw [value_of_isLiteral ha] at hx
        cases hx
        simp
    rw [h1]
    exact value_identity .mul
  · split
    · rename_i hzero
      rw [value_of_isLiteral hzero] at hx
      cases hx
      exact absurd Int.cast_zero hx0
    · split
      · rename_i hone
        rw [value_of_isLiteral hone] at hy
        cases hy
        simpa using hx
      · exact hq

variable [DecidableEq φ]

/-- What cancels is a term and its negation. -/
theorem perm_of_cancelFirst? {before es rest : List (Expr φ)} (h : cancelFirst? before es = some rest) :
    ∃ e t, e.negationTarget? = some t ∧ (before ++ es).Perm (e :: t :: rest) := by
  induction es generalizing before with
  | nil => cases h
  | cons a es ih =>
    have hrec : cancelFirst? (before ++ [a]) es = some rest →
        ∃ e t, e.negationTarget? = some t ∧ (before ++ a :: es).Perm (e :: t :: rest) := by
      intro h
      simpa using ih h
    simp only [cancelFirst?] at h
    split at h
    · rename_i t ht
      split at h
      · rename_i hmem
        cases h
        exact ⟨a, t, ht, List.perm_middle.trans ((List.perm_cons_erase hmem).cons a)⟩
      · exact hrec h
    · exact hrec h

theorem chainValue_cancelNegations {es : List (Expr φ)} {q : ℚ} (hq : chainValue env .add es = some q) :
    chainValue env .add (cancelNegations es) = some q := by
  fun_induction cancelNegations es with
  | case1 es rest h _ ih =>
    apply ih
    obtain ⟨e, t, ht, hperm⟩ := perm_of_cancelFirst? h
    rw [List.nil_append] at hperm
    rw [chainValue_perm hperm] at hq
    obtain ⟨x, y, hx, hy, rfl⟩ := chainValue_cons_iff.1 hq
    obtain ⟨z, r, hz, hr, rfl⟩ := chainValue_cons_iff.1 hy
    rw [value_of_negationTarget? ht hx] at hz
    cases hz
    simpa [ChainOp.onFractions] using hr
  | case2 es h => exact hq

theorem value_foldChain {es : List (Expr φ)} {q : ℚ} (hq : chainValue env op es = some q) :
    value env (foldChain op es) = some q := by
  rw [← chainValue_flatMap_splice] at hq
  have hfold := chainValue_foldLiterals hq
  unfold foldChain
  cases op with
  | add =>
    rw [value_chainOf]
    apply chainValue_cancelNegations
    rwa [chainValue_filter_neutral (n := 0) (by simp [ChainOp.neutral])]
  | mul =>
    dsimp only
    split
    · rename_i hany
      obtain ⟨e, hmem, he⟩ := List.any_eq_true.1 hany
      rw [chainValue_mul_zero hmem he hfold]
      exact value_identity .add
    · rwa [value_chainOf, chainValue_filter_neutral (n := 1) (by simp [ChainOp.neutral])]

theorem value_foldDivision {a b : Expr φ} {q : ℚ} (hq : value env (div a b) = some q) :
    value env (foldDivision a b) = some q := by
  obtain ⟨x, y, hx, hy, hy0, rfl⟩ := value_div_iff.1 hq
  unfold foldDivision
  split
  · rename_i r s hr hs
    obtain rfl := literal?_eq_form hr hx
    obtain rfl := literal?_eq_form hs hy
    have hdiv : (fraction x).form.div (fraction y).form = (fraction (x / y)).form := by
      rw [div_form, Extended.div, if_neg hy0]
    rw [hdiv]
    dsimp only
    split
    · cases hnum : (ofNumber? (fraction (x / y)).form : Option (Expr φ)) with
      | none => exact hq
      | some e => exact value_of_ofNumber? hnum
    · exact hq
  · split
    · rename_i hab
      rw [hab, hy] at hx
      cases hx
      rw [div_self hy0]
      exact value_identity .mul
    · split
      · rename_i hone
        rw [value_of_isLiteral hone] at hy
        cases hy
        simpa using hx
      · split
        · rename_i hzero
          rw [value_of_isLiteral hzero] at hy
          cases hy
          exact absurd Int.cast_zero hy0
        · exact hq

theorem value_foldDifference {a b : Expr φ} {q : ℚ} (hq : value env (.binary .sub a b) = some q) :
    value env (foldDifference a b) = some q := by
  obtain ⟨x, y, hx, hy, hxy⟩ := value_binary_iff.1 hq
  obtain rfl : x - y = q := Option.some.inj hxy
  unfold foldDifference
  split
  · rename_i hab
    rw [hab, hy] at hx
    cases hx
    rw [sub_self]
    exact value_identity .add
  · split
    · rename_i hzero
      rw [value_of_isLiteral hzero] at hy
      cases hy
      simpa using hx
    · split
      · rename_i hzero
        rw [value_of_isLiteral hzero] at hx
        cases hx
        rw [value]
        refine chainValue_cons_iff.2 ⟨-1, y, value_minusOne, by rwa [chainValue_singleton], ?_⟩
        simp [ChainOp.onFractions]
      · exact hq

theorem keeps_foldRule : Keeps env (foldRule : Expr φ → Expr φ) := by
  intro e q hq
  unfold foldRule
  split
  · rw [value] at hq
    exact value_foldChain hq
  · split
    · rename_i hone
      obtain ⟨x, y, hx, hy, hxy⟩ := value_binary_iff.1 hq
      rw [value_of_isLiteral hone] at hy
      cases hy
      simp [BinaryOp.onFractions?] at hxy
    · exact hq
  · exact value_foldPower hq
  · exact value_foldDifference hq
  · exact value_foldDivision hq
  · exact hq

end Expr

/-! ## passes and rounds -/

variable {φ : Type} [DecidableEq φ] {env : String → Option ℚ}

open RatCalc.Expr

theorem Pass.keeps_apply (p : Pass) : Keeps env (p.apply : Expr φ → Expr φ) := by
  have hrule : Keeps env (p.rule : Expr φ → Expr φ) := by
    cases p with
    | negation => exact keeps_positiveRule
    | leveling => exact keeps_levelRule
    | fractions => exact keeps_fractionRule
    | ordering => exact keeps_orderRule
    | folding => exact keeps_foldRule
  intro e q hq
  rw [p.apply_eq_bottomUp]
  exact hrule.bottomUp hq

theorem Pipeline.keeps_round (p : Pipeline) : Keeps env (p.round : Expr φ → Expr φ) := by
  intro e q hq
  unfold round
  induction p.passes generalizing e with
  | nil => exact hq
  | cons pass ps ih => exact ih (pass.keeps_apply hq)

/-- **Rounds keep values**, however many there are. -/
theorem Pipeline.keeps_iterate_round (p : Pipeline) (n : ℕ) : Keeps env (p.round^[n] : Expr φ → Expr φ) := by
  induction n with
  | zero =>
    intro e q hq
    exact hq
  | succ n ih =>
    intro e q hq
    rw [Function.iterate_succ_apply]
    exact ih (p.keeps_round hq)

end RatCalc
