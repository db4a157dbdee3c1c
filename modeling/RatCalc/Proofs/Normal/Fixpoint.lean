import RatCalc.Proofs.Normal.Termination
import RatCalc.Proofs.Number.Decimal
import Mathlib

/-!
# Trees at rest

A round that leaves a tree alone loses no weight, so no pass of it does; then each pass is idle on its own, and each rule
at every node.  What the rules leave alone is read off node by node.

* `NormalChain`, `NormalNode` — the normal form of a chain and of a node; `Normal` — of every node of a tree;
* `apply_eq_self_of_round`, `rule_eq_self_of_round` — passes and rules are idle on a tree at rest;
* `normal_of_round_eq_self` — a tree at rest is in normal form.
-/

namespace RatCalc

namespace Expr

variable {φ : Type}

/-! ## normal form -/

/-- What is asked of the operands of a chain. -/
structure NormalChain (op : ChainOp) (es : List (Expr φ)) : Prop where
  two_le_length : 2 ≤ es.length
  sorted : Sorted es
  no_nesting : ∀ fs, .chain op fs ∉ es
  no_division : op = .mul → ∀ a b, .binary .div a b ∉ es
  no_zero : ∀ e ∈ es, e.isLiteral 0 = false
  no_one : op = .mul → ∀ e ∈ es, e.isLiteral 1 = false
  one_literal : (∀ x ∈ es.filterMap literal?, x.isFinite = true) → (es.filterMap literal?).length ≤ 1
  no_negation : op = .add → ∀ m ts, m.isLiteral (-1) = true → ts ≠ [] → .chain .mul (m :: ts) ∈ es → productOf ts ∉ es

/-- What is asked of a node. -/
def NormalNode : Expr φ → Prop
  | .chain op es => NormalChain op es
  | .binary .add _ _ | .binary .sub _ _ | .binary .mul _ _ => False
  | .binary .div a b => (∀ p q, a ≠ .binary .div p q) ∧ ∀ p q, b ≠ .binary .div p q
  | .unary .plus .before _ | .unary .minus .before _ | .unary .percent .after _ => False
  | _ => True

/-- A tree all of whose nodes are in normal form. -/
def Normal (e : Expr φ) : Prop := ∀ s : Expr φ, s.Within e → s.NormalNode

/-! ## what leveling and the fractions leave alone -/

theorem splice_eq_singleton {op : ChainOp} {es : List (Expr φ)} (h : es.flatMap (splice op) = es) :
    ∀ e ∈ es, splice op e = [e] := by
  induction es with
  | nil => simp
  | cons e es ih =>
    rw [List.flatMap_cons] at h
    rcases splice_eq_or_lt op e with he | hlt
    · rw [he] at h
      exact List.forall_mem_cons.2 ⟨he, ih (List.tail_eq_of_cons_eq h)⟩
    · exfalso
      have hle := (trimmed_flatMap_splice op es).total_le
      have heq := congrArg (total op) h
      rw [total_append] at heq
      have hjoin : op.join (total op (splice op e)) (total op (es.flatMap (splice op))) < total op (e :: es) :=
        calc _ ≤ op.join (total op (splice op e)) (total op es) := op.join_le_join le_rfl hle
          _ < op.join (weight e) (total op es) := op.join_lt_join_left hlt (bare_le_total op es)
      omega

theorem chain_not_mem_of_flatMap_splice {op : ChainOp} {es : List (Expr φ)} (h : es.flatMap (splice op) = es)
    (fs : List (Expr φ)) : .chain op fs ∉ es := by
  intro hmem
  have hfs := splice_eq_singleton h _ hmem
  rw [splice, if_pos rfl] at hfs
  have hsize := congrArg sizeOf hfs
  simp only [List.cons.sizeOf_spec, List.nil.sizeOf_spec, chain.sizeOf_spec] at hsize
  omega

theorem denominator?_of_divFractions {a b : Expr φ} (h : divFractions a b = div a b) :
    a.denominator? = none ∧ b.denominator? = none := by
  cases ha : a.denominator? with
  | none =>
    cases hb : b.denominator? with
    | none => exact ⟨rfl, rfl⟩
    | some s =>
      exfalso
      simp only [divFractions, ha, hb] at h
      obtain ⟨r, rfl⟩ := eq_div_of_denominator? hb
      rw [numerator_div] at h
      simp only [div, binary.injEq] at h
      have hsize := congrArg sizeOf h.2.2
      simp only [binary.sizeOf_spec] at hsize
      omega
  | some q =>
    exfalso
    cases hb : b.denominator? with
    | none =>
      simp only [divFractions, ha, hb, div, mul, binary.injEq] at h
      have hsize := congrArg sizeOf h.2.2
      simp only [binary.sizeOf_spec] at hsize
      omega
    | some s =>
      simp only [divFractions, ha, hb] at h
      obtain ⟨r, rfl⟩ := eq_div_of_denominator? hb
      simp [div, mul] at h

theorem div_not_mem_of_collectFractions {es : List (Expr φ)} (h : collectFractions es = .chain .mul es) (a b : Expr φ) :
    .binary .div a b ∉ es := by
  intro hmem
  have hany : es.any isDivision = true := List.any_eq_true.2 ⟨_, hmem, rfl⟩
  rw [collectFractions, if_pos hany] at h
  cases h

/-! ## what folding leaves alone -/

/-- A chain comes back from folding as it was only if no operand was lost. -/
theorem length_of_chainOf {op : ChainOp} {es fs : List (Expr φ)} (h : chainOf op fs = .chain op es)
    (hfs : ∀ f ∈ fs, f ≠ .chain op es) : 2 ≤ fs.length ∧ fs.length = es.length := by
  unfold chainOf at h
  split at h
  · cases h
  · rename_i f
    exact absurd h (hfs f (by simp))
  · rename_i h0 h1
    have hes : sort fs = es := by simpa using h
    refine ⟨?_, by rw [← hes, (perm_sort fs).length_eq]⟩
    rcases fs with _ | ⟨a, _ | ⟨b, fs⟩⟩
    · exact absurd rfl h0
    · exact absurd rfl (h1 a)
    · simp

theorem length_foldLiterals (op : ChainOp) (es : List (Expr φ)) :
    foldedLiteral? op es = none ∨ (foldLiterals op es).length < es.length := by
  cases h : foldedLiteral? op es with
  | none => exact .inl rfl
  | some literal =>
    right
    have hlen := two_le_of_foldedLiteral? h
    have hsplit := (literals_append_perm es).length_eq
    rw [List.length_append] at hsplit
    rw [foldLiterals, h, List.length_cons]
    omega

theorem mem_foldLiterals {op : ChainOp} {es : List (Expr φ)} {e : Expr φ} (h : e ∈ foldLiterals op es) :
    e ∈ es ∨ ∃ text, e = .num text := by
  unfold foldLiterals at h
  split at h
  · rename_i literal hlit
    rcases List.mem_cons.1 h with rfl | h
    · obtain ⟨x, xs, -, -, -, hnum⟩ := of_foldedLiteral? hlit
      obtain ⟨text, -, rfl⟩ := Option.map_eq_some_iff.1 hnum
      exact .inr ⟨text, rfl⟩
    · exact .inl (List.mem_of_mem_filter h)
  · exact .inl h

/-- Finite literals fold into one. -/
theorem foldl_literals (op : ChainOp) {x : ExtRat} {xs : List ExtRat}
    (h : ∀ y ∈ x :: xs, ∃ q, y = (Extended.fraction q).form ∧ Literal.Ends q) :
    ∃ q, xs.foldl op.toBinary.onNumbers x = (Extended.fraction q).form ∧ Literal.Ends q := by
  induction xs generalizing x with
  | nil => exact h x (by simp)
  | cons y ys ih =>
    obtain ⟨p, rfl, hp⟩ := h x (by simp)
    obtain ⟨q, rfl, hq⟩ := h y (by simp)
    refine ih (List.forall_mem_cons.2 ⟨?_, fun z hz => h z (by simp [hz])⟩)
    cases op with
    | add => exact ⟨p + q, Extended.add_form _ _, hp.add hq⟩
    | mul => exact ⟨p * q, Extended.mul_form _ _, hp.mul hq⟩

theorem exists_ends_of_literal? {e : Expr φ} {x : ExtRat} (h : e.literal? = some x) (hx : x.isFinite = true) :
    ∃ q, x = (Extended.fraction q).form ∧ Literal.Ends q := by
  cases e with
  | num text =>
    obtain ⟨q, rfl⟩ := (ExtRat.isFinite_iff (Literal.canonical_value? h)).1 hx
    exact ⟨q, rfl, Literal.ends_of_value? h⟩
  | _ => cases h

/-- If nothing is folded, there is nothing to fold. -/
theorem length_literals_le_one {op : ChainOp} {es : List (Expr φ)} (h : foldedLiteral? op es = none)
    (hfin : ∀ x ∈ es.filterMap literal?, x.isFinite = true) : (es.filterMap literal?).length ≤ 1 := by
  by_contra hlen
  have hends : ∀ x ∈ es.filterMap literal?, ∃ q, x = (Extended.fraction q).form ∧ Literal.Ends q := by
    intro x hx
    obtain ⟨e, -, he⟩ := List.mem_filterMap.1 hx
    exact exists_ends_of_literal? he (hfin x hx)
  rcases hes : es.filterMap literal? with _ | ⟨x, _ | ⟨y, rest⟩⟩
  · simp [hes] at hlen
  · simp [hes] at hlen
  · rw [hes] at hends
    obtain ⟨q, hq, hend⟩ := foldl_literals op hends
    obtain ⟨text, htext⟩ := ExtRat.exists_toExactDecimal? hend
    have hfin' := (ExtRat.isFinite_iff (Extended.canonical_form (.fraction q))).2 ⟨q, rfl⟩
    simp [foldedLiteral?, hes, hq, hfin', ofNumber?, htext] at h

theorem productOf_ne_chain (m : Expr φ) (ts : List (Expr φ)) : productOf ts ≠ .chain .mul (m :: ts) := by
  intro h
  have hsize := congrArg sizeOf h
  unfold productOf at hsize
  split at hsize
  · simp only [chain.sizeOf_spec, List.cons.sizeOf_spec] at hsize
    omega
  · simp only [chain.sizeOf_spec, List.cons.sizeOf_spec] at hsize
    omega

/-- Operands that make up the same chain as before are the ones from before. -/
theorem eq_of_chainOf {op : ChainOp} {es fs : List (Expr φ)} (hflat : ∀ gs, .chain op gs ∉ es)
    (hsub : fs.Sublist (foldLiterals op es)) (h : chainOf op fs = .chain op es) :
    2 ≤ es.length ∧ foldedLiteral? op es = none ∧ foldLiterals op es = es ∧ fs = es := by
  have hfs : ∀ f ∈ fs, f ≠ .chain op es := by
    rintro f hf rfl
    rcases mem_foldLiterals (hsub.subset hf) with hmem | ⟨text, htext⟩
    · exact hflat es hmem
    · cases htext
  obtain ⟨h2, hlen⟩ := length_of_chainOf h hfs
  have hle := hsub.length_le
  rcases length_foldLiterals op es with hnone | hlt
  · have hes : foldLiterals op es = es := by rw [foldLiterals, hnone]
    rw [hes] at hsub
    exact ⟨hlen ▸ h2, hnone, hes, hsub.eq_of_length hlen⟩
  · omega

end Expr

open RatCalc.Expr

variable {φ : Type} [DecidableEq φ]

/-! ## passes that are idle -/

namespace Pipeline

theorem apply_eq_self_of_weight {ps : List Pass} {e : Expr φ} (ho : ordered e = e)
    (hw : weight (ps.foldl (fun tree pass => pass.apply tree) e) = weight e) : ∀ p ∈ ps, p.apply e = e := by
  induction ps with
  | nil => simp
  | cons p ps ih =>
    rw [List.foldl_cons] at hw
    have hcalm : p.calm e = e := by cases p <;> first | rfl | exact ho
    have hp : p.apply e = e := by
      have hle := weight_foldl_le ps (p.apply e)
      rcases p.apply_eq_or_weight_lt e with h | h
      · rw [h, hcalm]
      · omega
    rw [hp] at hw
    exact List.forall_mem_cons.2 ⟨hp, ih hw⟩

theorem ordered_eq_self_of_round {e : Expr φ} (h : round {} e = e) : ordered e = e := by
  rcases round_eq_or_weight_lt (p := {}) rfl e with ho | hlt
  · rw [← ho, h]
  · rw [h] at hlt
    exact absurd hlt (lt_irrefl _)

/-- On a tree at rest every pass is idle. -/
theorem apply_eq_self_of_round {e : Expr φ} (h : round {} e = e) (p : Pass) : p.apply e = e := by
  have hmem : p ∈ ({} : Pipeline).passes := by cases p <;> decide
  exact apply_eq_self_of_weight (ordered_eq_self_of_round h) (congrArg weight h) p hmem

/-- On a tree at rest every rule is idle at every node. -/
theorem rule_eq_self_of_round {e : Expr φ} (h : round {} e = e) (p : Pass) {s : Expr φ} (hs : s.Within e) :
    p.rule s = s := by
  have hw : weight (bottomUp p.rule e) = weight e := by
    rw [← p.apply_eq_bottomUp, apply_eq_self_of_round h p]
  refine rule_eq_self_of_weight_eq p.weight_calmRule p.rule_eq_or_weight_lt hw ?_ s hs
  intro t ht
  have ho : orderRule t = t := orderRule_of_within_ordered e t (by rwa [ordered_eq_self_of_round h])
  cases p <;> first | rfl | exact ho

end Pipeline

namespace Expr

/-! ## chains at rest -/

theorem cancelFirst?_of_cancelNegations {es : List (Expr φ)} (h : cancelNegations es = es) : cancelFirst? [] es = none := by
  rw [cancelNegations] at h
  split at h
  · rename_i rest hrest
    have hlen := length_cancelFirst? hrest
    have hle := (sublist_cancelNegations rest).length_le
    rw [h, List.length_nil] at *
    omega
  · assumption

theorem not_mem_of_cancelFirst? {before es : List (Expr φ)} (h : cancelFirst? before es = none) {e t : Expr φ}
    (he : e ∈ es) (ht : e.negationTarget? = some t) (hne : t ≠ e) : t ∉ before ++ es := by
  induction es generalizing before with
  | nil => cases he
  | cons a es ih =>
    have hrec : e ∈ es → cancelFirst? (before ++ [a]) es = none → t ∉ before ++ a :: es := by
      intro hmem hrest
      simpa using ih hrest hmem
    rcases List.mem_cons.1 he with rfl | hmem
    · simp only [cancelFirst?, ht] at h
      split at h
      · cases h
      · simp_all
    · simp only [cancelFirst?] at h
      split at h
      · split at h
        · cases h
        · exact hrec hmem h
      · exact hrec hmem h

/-- A sum at rest holds no term beside its negation. -/
theorem productOf_not_mem {es : List (Expr φ)} (h : cancelNegations es = es) {m : Expr φ} {ts : List (Expr φ)}
    (hm : m.isLiteral (-1) = true) (hts : ts ≠ []) (hmem : .chain .mul (m :: ts) ∈ es) : productOf ts ∉ es := by
  obtain ⟨t, ts, rfl⟩ := List.exists_cons_of_ne_nil hts
  have htarget : negationTarget? (.chain .mul (m :: t :: ts)) = some (productOf (t :: ts)) := by
    rw [negationTarget?, if_pos hm]
  exact not_mem_of_cancelFirst? (cancelFirst?_of_cancelNegations h) hmem htarget (productOf_ne_chain m _)

/-- What folding leaves alone in a chain that is level. -/
theorem of_foldChain_eq_self {op : ChainOp} {es : List (Expr φ)} (hlevel : es.flatMap (splice op) = es)
    (h : foldChain op es = .chain op es) :
    2 ≤ es.length ∧ foldedLiteral? op es = none ∧ (∀ e ∈ es, e.isLiteral 0 = false) ∧
      (op = .mul → ∀ e ∈ es, e.isLiteral 1 = false) ∧ (op = .add → cancelNegations es = es) := by
  have hflat := chain_not_mem_of_flatMap_splice hlevel
  unfold foldChain at h
  rw [hlevel] at h
  cases op with
  | add =>
    have hsub := (sublist_cancelNegations ((foldLiterals .add es).filter (!·.isLiteral 0))).trans List.filter_sublist
    obtain ⟨h2, hnone, hes, hcancel⟩ := eq_of_chainOf hflat hsub h
    rw [hes] at hcancel
    have hfilter : es.filter (!·.isLiteral 0) = es := by
      have hle := (sublist_cancelNegations (es.filter (!·.isLiteral 0))).length_le
      rw [hcancel] at hle
      exact List.filter_sublist.eq_of_length_le hle
    rw [hfilter] at hcancel
    refine ⟨h2, hnone, ?_, by simp, fun _ => hcancel⟩
    simpa using List.filter_eq_self.1 hfilter
  | mul =>
    dsimp only at h
    split at h
    · cases h
    · rename_i hany
      obtain ⟨h2, hnone, hes, hfilter⟩ := eq_of_chainOf hflat List.filter_sublist h
      rw [hes] at hany hfilter
      refine ⟨h2, hnone, ?_, ?_, by simp⟩
      · simpa using hany
      · intro _
        simpa using List.filter_eq_self.1 hfilter

theorem normalChain_of_idle {op : ChainOp} {es : List (Expr φ)} (h : ∀ p : Pass, p.rule (.chain op es) = .chain op es) :
    NormalChain op es := by
  have hlevel : es.flatMap (splice op) = es := by simpa [Pass.rule, levelRule] using h .leveling
  have hsort : sort es = es := by simpa [Pass.rule, orderRule] using h .ordering
  obtain ⟨h2, hnone, hzero, hone, hcancel⟩ := of_foldChain_eq_self hlevel (h .folding)
  refine ⟨h2, sort_eq_self_iff.1 hsort, chain_not_mem_of_flatMap_splice hlevel, ?_, hzero, hone,
    length_literals_le_one hnone, ?_⟩
  · rintro rfl
    exact div_not_mem_of_collectFractions (h .fractions)
  · intro hop m ts hm hts hmem
    exact productOf_not_mem (hcancel hop) hm hts hmem

theorem normalNode_of_idle {e : Expr φ} (h : ∀ p : Pass, p.rule e = e) : e.NormalNode := by
  have hpos := h .negation
  have hlevel := h .leveling
  unfold NormalNode
  split
  · exact normalChain_of_idle h
  · cases hlevel
  · cases hpos
  · cases hlevel
  · rename_i a b
    obtain ⟨ha, hb⟩ := denominator?_of_divFractions (h .fractions)
    refine ⟨?_, ?_⟩
    · rintro p q rfl
      cases ha
    · rintro p q rfl
      cases hb
  · rename_i e
    have hsize := congrArg sizeOf hpos
    simp [Pass.rule, positiveRule] at hsize
  · cases hpos
  · cases hpos
  · trivial

end Expr

/-- **Trees at rest are in normal form.**  If a round of the default passes leaves a tree alone, then so does each of the
passes, and every node is in normal form. -/
theorem Pipeline.normal_of_round_eq_self {e : Expr φ} (h : round {} e = e) :
    (∀ p : Pass, p.apply e = e) ∧ e.Normal := by
  refine ⟨apply_eq_self_of_round h, ?_⟩
  intro s hs
  exact normalNode_of_idle fun p => rule_eq_self_of_round h p hs

/-- `(2 + x + -1 * (0.5 + y)) / (-3 * z)` -/
def Expr.restingQuotient : Expr Empty :=
  .binary .div
    (.chain .add [.num "2", .var "x", .chain .mul [.num "-1", .chain .add [.num "0.5", .var "y"]]])
    (.chain .mul [.num "-3", .var "z"])

theorem Pipeline.normal_restingQuotient :
    round {} restingQuotient = restingQuotient ∧
      (∀ p : Pass, p.apply restingQuotient = restingQuotient) ∧ restingQuotient.Normal := by
  have h : round {} restingQuotient = restingQuotient := by cbv
  exact ⟨h, normal_of_round_eq_self h⟩

end RatCalc
