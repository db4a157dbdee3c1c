import RatCalc.Proofs.Normal.Weight

/-!
# Every rule loses weight

For each rule of the normaliser: it leaves the node as it is, or the node gets lighter.  The rule that folds may also sort
the operands of a chain, as the rule that orders does, and sorting keeps the weight.

| rule           | if it loses no weight      |
|----------------|----------------------------|
| `positiveRule` | idle                       |
| `levelRule`    | idle                       |
| `fractionRule` | idle                       |
| `orderRule`    | keeps the weight always    |
| `foldRule`     | does what `orderRule` does |
-/

namespace RatCalc.Expr

variable {φ : Type}

/-! ## negation -/

theorem positiveRule_eq_or_lt (e : Expr φ) : positiveRule e = e ∨ weight (positiveRule e) < weight e := by
  unfold positiveRule
  split
  · rename_i e
    right
    have := two_le_weight e
    simp only [weight]
    omega
  · rename_i e
    right
    have := two_le_weight e
    simp only [negated, mul, weight, BinaryOp.weigh]
    omega
  · rename_i e
    right
    have := two_le_weight e
    simp only [mul, weight, BinaryOp.weigh]
    omega
  · right
    simp only [negated, mul, weight, BinaryOp.weigh]
    omega
  · exact .inl rfl

/-! ## leveling -/

theorem splice_eq_or_lt (op : ChainOp) (e : Expr φ) : splice op e = [e] ∨ total op (splice op e) < weight e := by
  unfold splice
  split
  · split
    · rename_i h
      subst h
      exact .inr (ChainOp.lt_wrap _ (bare_le_total _ _))
    · exact .inl rfl
  · exact .inl rfl

theorem total_singleton (op : ChainOp) (e : Expr φ) : total op [e] = weight e := by simp [total]

theorem total_splice_le (op : ChainOp) (e : Expr φ) : total op (splice op e) ≤ weight e := by
  rcases splice_eq_or_lt op e with h | h
  · rw [h, total_singleton]
  · exact h.le

theorem trimmed_flatMap_splice (op : ChainOp) (es : List (Expr φ)) : Trimmed op (es.flatMap (splice op)) es := by
  induction es with
  | nil => exact .inl rfl
  | cons e es ih =>
    rw [Trimmed, List.flatMap_cons, total_append]
    have hle := total_splice_le op e
    rcases ih with ih | ih
    · rw [ih]
      refine (splice_eq_or_lt op e).imp (fun h => by rw [h]; rfl) fun h => ?_
      exact op.join_lt_join_left h (bare_le_total op es)
    · right
      calc op.join (total op (splice op e)) (total op (es.flatMap (splice op)))
          < op.join (total op (splice op e)) (total op es) := op.join_lt_join_right (bare_le_total op _) ih
        _ ≤ op.join (weight e) (total op es) := op.join_le_join hle le_rfl

theorem levelRule_eq_or_lt (e : Expr φ) : levelRule e = e ∨ weight (levelRule e) < weight e := by
  unfold levelRule
  split
  · rename_i o a b
    split
    · rename_i op hop
      right
      have ha := total_splice_le op a
      have hb := total_splice_le op b
      have hj := op.join_le_join ha hb
      have := Nat.mul_pos (two_le_weight a |>.trans_lt' (by decide)) (two_le_weight b |>.trans_lt' (by decide) : 0 < weight b)
      simp only [weight, total_append]
      cases o <;> simp only [ChainOp.ofBinary?, Option.some.injEq, reduceCtorEq] at hop <;> subst hop <;>
        simp only [ChainOp.wrap, ChainOp.join, BinaryOp.weigh, Nat.mul_assoc] at * <;> omega
    · exact .inl rfl
  · rename_i op es
    rcases trimmed_flatMap_splice op es with h | h
    · exact .inl (by rw [h])
    · exact .inr (op.wrap_lt_wrap h)
  · exact .inl rfl

/-! ## fractions -/

theorem eq_div_of_denominator? {e q : Expr φ} (h : e.denominator? = some q) : ∃ p, e = div p q := by
  unfold denominator? at h
  split at h
  · cases h
    exact ⟨_, rfl⟩
  · cases h

theorem numerator_of_denominator? {e : Expr φ} (h : e.denominator? = none) : e.numerator = e := by
  unfold denominator? at h
  split at h
  · cases h
  · rename_i hne
    unfold numerator
    split
    · exact absurd rfl (hne _ _)
    · rfl

@[simp] theorem numerator_div (p q : Expr φ) : (div p q).numerator = p := rfl

theorem weight_div (a b : Expr φ) : weight (div a b) = 4 * weight a * weight b + 1 := rfl

theorem weight_mul (a b : Expr φ) : weight (mul a b) = 4 * weight a * weight b := rfl

theorem mulFractions_eq_or_lt (a b : Expr φ) :
    mulFractions a b = mul a b ∨ weight (mulFractions a b) < weight (mul a b) := by
  unfold mulFractions
  split
  · exact .inl rfl
  · rename_i s _ hs
    obtain ⟨r, rfl⟩ := eq_div_of_denominator? hs
    right
    simp only [numerator_div, weight_div, weight_mul]
    have := two_le_weight a
    linarith
  · rename_i q hq _
    obtain ⟨p, rfl⟩ := eq_div_of_denominator? hq
    right
    simp only [numerator_div, weight_div, weight_mul]
    have := two_le_weight b
    linarith
  · rename_i q s hq hs
    obtain ⟨p, rfl⟩ := eq_div_of_denominator? hq
    obtain ⟨r, rfl⟩ := eq_div_of_denominator? hs
    right
    simp only [numerator_div, weight_div, weight_mul]
    have := Nat.zero_le (weight p * weight q)
    have := Nat.zero_le (weight r * weight s)
    linarith

theorem divFractions_eq_or_lt (a b : Expr φ) :
    divFractions a b = div a b ∨ weight (divFractions a b) < weight (div a b) := by
  unfold divFractions
  split
  · exact .inl rfl
  · rename_i s _ hs
    obtain ⟨r, rfl⟩ := eq_div_of_denominator? hs
    right
    simp only [numerator_div, weight_div, weight_mul]
    have := two_le_weight a
    linarith
  · rename_i q hq _
    obtain ⟨p, rfl⟩ := eq_div_of_denominator? hq
    right
    simp only [numerator_div, weight_div, weight_mul]
    have := two_le_weight b
    linarith
  · rename_i q s hq hs
    obtain ⟨p, rfl⟩ := eq_div_of_denominator? hq
    obtain ⟨r, rfl⟩ := eq_div_of_denominator? hs
    right
    simp only [numerator_div, weight_div, weight_mul]
    have := Nat.zero_le (weight p * weight q)
    have := Nat.zero_le (weight r * weight s)
    linarith

theorem total_mul_cons (e : Expr φ) (es : List (Expr φ)) : total .mul (e :: es) = weight e * total .mul es := rfl

/-- What the divisions of a product weigh more than their parts: a factor four each, and one for all of them. -/
theorem total_fractions_le (es : List (Expr φ)) :
    4 ^ (es.filterMap denominator?).length *
        (total .mul (es.map numerator) * total .mul (es.filterMap denominator?)) +
      min 1 (es.filterMap denominator?).length ≤ total .mul es := by
  induction es with
  | nil => simp [total, ChainOp.bare]
  | cons e es ih =>
    have hpos : 1 ≤ 4 ^ (es.filterMap denominator?).length *
        (total .mul (es.map numerator) * total .mul (es.filterMap denominator?)) :=
      Nat.mul_pos (Nat.pow_pos (by decide)) (Nat.mul_pos (bare_le_total .mul _) (bare_le_total .mul _))
    cases he : e.denominator? with
    | none =>
      have hw := two_le_weight e
      rw [List.filterMap_cons_none he, List.map_cons, numerator_of_denominator? he, total_mul_cons, total_mul_cons]
      generalize (es.filterMap denominator?).length = k at *
      generalize total .mul (es.map numerator) = N at *
      generalize total .mul (es.filterMap denominator?) = Q at *
      calc 4 ^ k * (weight e * N * Q) + min 1 k ≤ 4 ^ k * (weight e * N * Q) + weight e * min 1 k :=
            Nat.add_le_add_left (Nat.le_mul_of_pos_left _ (by omega)) _
        _ = weight e * (4 ^ k * (N * Q) + min 1 k) := by ring
        _ ≤ weight e * total .mul es := Nat.mul_le_mul_left _ ih
    | some q =>
      obtain ⟨p, rfl⟩ := eq_div_of_denominator? he
      rw [List.filterMap_cons_some he, List.map_cons, numerator_div, total_mul_cons, total_mul_cons, total_mul_cons,
        weight_div, List.length_cons]
      generalize (es.filterMap denominator?).length = k at *
      generalize total .mul (es.map numerator) = N at *
      generalize total .mul (es.filterMap denominator?) = Q at *
      calc 4 ^ (k + 1) * (weight p * N * (weight q * Q)) + min 1 (k + 1)
          ≤ 4 ^ (k + 1) * (weight p * N * (weight q * Q)) + 4 ^ k * (N * Q) :=
            Nat.add_le_add_left ((Nat.min_le_left 1 _).trans hpos) _
        _ = (4 * weight p * weight q + 1) * (4 ^ k * (N * Q)) := by ring
        _ ≤ (4 * weight p * weight q + 1) * total .mul es := Nat.mul_le_mul_left _ (by omega)

theorem filterMap_denominator?_ne_nil {es : List (Expr φ)} (h : es.any isDivision = true) :
    es.filterMap denominator? ≠ [] := by
  obtain ⟨e, he, hd⟩ := List.any_eq_true.1 h
  obtain ⟨q, hq⟩ := Option.isSome_iff_exists.1 hd
  exact List.ne_nil_of_mem (List.mem_filterMap.2 ⟨e, he, hq⟩)

/-- A product with divisions gets lighter when they are collected into one. -/
theorem collectFractions_eq_or_lt (es : List (Expr φ)) :
    collectFractions es = .chain .mul es ∨ weight (collectFractions es) < weight (.chain .mul es) := by
  unfold collectFractions
  split
  · rename_i hany
    right
    have hle := total_fractions_le es
    have hne := filterMap_denominator?_ne_nil hany
    rw [weight_div]
    simp only [weight, ChainOp.wrap]
    generalize es.filterMap denominator? = qs at *
    generalize total .mul (es.map numerator) = N at *
    rcases qs with _ | ⟨q, _ | ⟨q', qs⟩⟩
    · exact absurd rfl hne
    · simp only [productOf, List.length_singleton, pow_one, min_self, total_singleton] at *
      linarith
    · -- the product of the denominators weighs three times their total, for which one of the two fours makes up
      simp only [productOf, weight, ChainOp.wrap]
      have h16 : 16 ≤ 4 ^ (q :: q' :: qs).length := by
        rw [List.length_cons, List.length_cons, pow_succ, pow_succ]
        have : 0 < 4 ^ qs.length := Nat.pow_pos (by decide)
        omega
      have := Nat.mul_le_mul_right (N * total .mul (q :: q' :: qs)) h16
      have hmin : min 1 (q :: q' :: qs).length = 1 := by simp
      rw [hmin] at hle
      have := Nat.zero_le (N * total .mul (q :: q' :: qs))
      linarith
  · exact .inl rfl

theorem fractionRule_eq_or_lt (e : Expr φ) : fractionRule e = e ∨ weight (fractionRule e) < weight e := by
  unfold fractionRule
  split
  · exact mulFractions_eq_or_lt _ _
  · exact divFractions_eq_or_lt _ _
  · exact collectFractions_eq_or_lt _
  · exact .inl rfl

/-! ## order -/

theorem perm_sort (es : List (Expr φ)) : (sort es).Perm es := List.mergeSort_perm _ _

theorem weight_orderRule (e : Expr φ) : weight (orderRule e) = weight e := by
  unfold orderRule
  split
  · rename_i op es
    exact congrArg op.wrap (total_perm op (perm_sort es))
  · rfl

/-! ## folding -/

theorem weight_of_ofNumber? {r : ExtRat} {e : Expr φ} (h : ofNumber? r = some e) : weight e = 2 := by
  obtain ⟨t, -, rfl⟩ := Option.map_eq_some_iff.1 h
  rfl

/-- A folded literal is the total of two literals at least. -/
theorem of_foldedLiteral? {op : ChainOp} {es : List (Expr φ)} {e : Expr φ} (h : foldedLiteral? op es = some e) :
    ∃ x xs, es.filterMap literal? = x :: xs ∧ xs ≠ [] ∧ (xs.foldl op.toBinary.onNumbers x).isFinite = true ∧
      ofNumber? (xs.foldl op.toBinary.onNumbers x) = some e := by
  unfold foldedLiteral? at h
  split at h
  · rename_i x y rest hes
    dsimp only at h
    split at h
    · rename_i hfin
      exact ⟨x, y :: rest, hes, by simp, hfin, h⟩
    · cases h
  · cases h

theorem two_le_of_foldedLiteral? {op : ChainOp} {es : List (Expr φ)} {e : Expr φ} (h : foldedLiteral? op es = some e) :
    2 ≤ (es.filter (·.literal?.isSome)).length := by
  obtain ⟨x, xs, hes, hne, -, -⟩ := of_foldedLiteral? h
  have hpos := List.length_pos_iff.2 hne
  rw [← List.countP_eq_length_filter, ← List.length_filterMap_eq_countP, hes, List.length_cons]
  omega

/-- The literals of a list and the other operands. -/
theorem literals_append_perm (es : List (Expr φ)) :
    (es.filter (·.literal?.isSome) ++ es.filter (·.literal?.isNone)).Perm es := by
  have hnone : es.filter (·.literal?.isNone) = es.filter (fun e => !e.literal?.isSome) := by simp
  rw [hnone]
  exact List.filter_append_perm _ es

theorem two_lt_total (op : ChainOp) {es : List (Expr φ)} (h : 2 ≤ es.length) : 2 < total op es := by
  rcases es with _ | ⟨a, _ | ⟨b, es⟩⟩
  · simp at h
  · simp at h
  · have hsub : [a].Sublist (a :: b :: es) := List.Sublist.cons_cons a (List.nil_sublist _)
    have htrim : Trimmed op [a] (a :: b :: es) := .of_sublist hsub
    have hlt := htrim.resolve_left (by simp)
    rw [total_singleton] at hlt
    exact (two_le_weight a).trans_lt hlt

theorem trimmed_foldLiterals (op : ChainOp) (es : List (Expr φ)) : Trimmed op (foldLiterals op es) es := by
  unfold foldLiterals
  split
  · rename_i literal h
    right
    obtain ⟨x, xs, -, -, -, hnum⟩ := of_foldedLiteral? h
    rw [← total_perm op (literals_append_perm es), total_append]
    refine op.join_lt_join_left ?_ (bare_le_total op _)
    exact weight_of_ofNumber? hnum ▸ two_lt_total op (two_le_of_foldedLiteral? h)
  · exact .inl rfl

theorem chainOf_eq_or_lt (op : ChainOp) (es : List (Expr φ)) :
    chainOf op es = .chain op (sort es) ∨ weight (chainOf op es) < op.wrap (total op es) := by
  unfold chainOf
  split
  · right
    cases op <;> simp [weight, total, ChainOp.wrap, ChainOp.bare]
  · rename_i e
    right
    rw [total_singleton]
    exact op.lt_wrap (bare_lt_weight op e).le
  · exact .inl rfl

/-- What is left of a chain has been sorted only, or is lighter. -/
theorem chainOf_eq_or_lt_of_trimmed {op : ChainOp} {fs es : List (Expr φ)} (h : Trimmed op fs es) :
    chainOf op fs = .chain op (sort es) ∨ weight (chainOf op fs) < weight (.chain op es) := by
  rcases chainOf_eq_or_lt op fs with hc | hc
  · rcases h with rfl | h
    · exact .inl hc
    · right
      rw [hc]
      exact (congrArg op.wrap (total_perm op (perm_sort fs))).trans_lt (op.wrap_lt_wrap h)
  · exact .inr (hc.trans_le (op.wrap_le_wrap h.total_le))

theorem foldPower_eq_or_lt (a b : Expr φ) :
    foldPower a b = .binary .pow a b ∨ weight (foldPower a b) < weight (.binary .pow a b) := by
  have ha := two_le_weight a
  have hb := two_le_weight b
  unfold foldPower
  split
  · right
    simp only [weight, BinaryOp.weigh]
    omega
  · split
    · right
      simp only [weight, BinaryOp.weigh]
      omega
    · split
      · right
        simp only [weight, BinaryOp.weigh]
        omega
      · exact .inl rfl

section Cancel

variable [DecidableEq φ]

theorem sublist_cancelFirst? {before es rest : List (Expr φ)} (h : cancelFirst? before es = some rest) :
    rest.Sublist (before ++ es) := by
  induction es generalizing before with
  | nil => simp [cancelFirst?] at h
  | cons e es ih =>
    have hrec : cancelFirst? (before ++ [e]) es = some rest → rest.Sublist (before ++ e :: es) := by
      intro h
      simpa using ih h
    simp only [cancelFirst?] at h
    split at h
    · split at h
      · cases h
        exact List.erase_sublist.trans (List.Sublist.append_left (List.sublist_cons_self e es) before)
      · exact hrec h
    · exact hrec h

theorem sublist_cancelNegations (es : List (Expr φ)) : (cancelNegations es).Sublist es := by
  fun_induction cancelNegations es with
  | case1 es rest h _ ih => exact ih.trans (by simpa using sublist_cancelFirst? h)
  | case2 es h => exact .refl es

theorem foldChain_eq_or_lt (op : ChainOp) (es : List (Expr φ)) :
    foldChain op es = .chain op (sort es) ∨ weight (foldChain op es) < weight (.chain op es) := by
  have h : Trimmed op (foldLiterals op (es.flatMap (splice op))) es :=
    (trimmed_foldLiterals op _).trans (trimmed_flatMap_splice op es)
  unfold foldChain
  cases op with
  | add =>
    have hc := (sublist_cancelNegations _).trans (List.filter_sublist (p := (!·.isLiteral 0))
      (l := foldLiterals .add (es.flatMap (splice .add))))
    exact chainOf_eq_or_lt_of_trimmed ((Trimmed.of_sublist hc).trans h)
  | mul =>
    dsimp only
    split
    · right
      have := bare_le_total .mul es
      simp only [weight, ChainOp.wrap, ChainOp.bare] at *
      omega
    · exact chainOf_eq_or_lt_of_trimmed ((Trimmed.of_sublist List.filter_sublist).trans h)

theorem foldDivision_eq_or_lt (a b : Expr φ) :
    foldDivision a b = div a b ∨ weight (foldDivision a b) < weight (div a b) := by
  have ha := two_le_weight a
  have hb := two_le_weight b
  have hab := Nat.mul_le_mul ha hb
  have hnum : ∀ t : String, weight (num t : Expr φ) < weight (div a b) := by
    intro t
    rw [weight_div, Nat.mul_assoc]
    simp only [weight]
    omega
  unfold foldDivision
  split
  · dsimp only
    split
    · cases h : (ofNumber? _ : Option (Expr φ)) with
      | none => exact .inl rfl
      | some e =>
        right
        obtain ⟨t, -, rfl⟩ := Option.map_eq_some_iff.1 h
        exact hnum t
    · exact .inl rfl
  · split
    · exact .inr (hnum _)
    · split
      · right
        rw [weight_div, Nat.mul_assoc]
        nlinarith
      · split
        · exact .inr (hnum _)
        · exact .inl rfl

theorem foldDifference_eq_or_lt (a b : Expr φ) :
    foldDifference a b = .binary .sub a b ∨ weight (foldDifference a b) < weight (.binary .sub a b) := by
  have ha := two_le_weight a
  have hb := two_le_weight b
  unfold foldDifference
  split
  · right
    simp only [weight, BinaryOp.weigh]
    omega
  · split
    · right
      simp only [weight, BinaryOp.weigh]
      omega
    · split
      · right
        simp only [weight, total, BinaryOp.weigh, ChainOp.wrap, ChainOp.join, ChainOp.bare]
        omega
      · exact .inl rfl

theorem foldRule_eq_or_lt (e : Expr φ) : foldRule e = orderRule e ∨ weight (foldRule e) < weight e := by
  unfold foldRule
  split
  · exact foldChain_eq_or_lt _ _
  · rename_i a b
    split
    · right
      have ha := two_le_weight a
      have hb := two_le_weight b
      simp only [weight, BinaryOp.weigh]
      omega
    · exact .inl rfl
  · exact foldPower_eq_or_lt _ _
  · exact foldDifference_eq_or_lt _ _
  · exact foldDivision_eq_or_lt _ _
  · rename_i hchain _ _ _ _
    left
    unfold orderRule
    split
    · exact absurd rfl (hchain _ _)
    · rfl

end Cancel

end RatCalc.Expr
