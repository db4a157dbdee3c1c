import RatCalc.Proofs.Normal.Descent

/-!
# Raising divisions

Divisions rise out of products and out of one another by five rules, each of which builds new trees that the rules are then
applied to again.  This comes to an end, with the tree that `withFractionsOutside` computes in one step at each node: the
children of the node hold no division that could still rise.

* `RisesTo e r` — the rules, from the tree `e` at a node, end with `r`; `PassRisesTo` — the same at every node of a tree;
* `Outside e` — no division stands directly below a product or a division, anywhere in `e`;
* `risesTo_fractionRule` — over children that are outside the rules end, with the rule of the pass;
* `withFractionsOutside_settles` — the pass ends, leaves all divisions outside, and does nothing the second time.
-/

namespace RatCalc.Expr

variable {φ : Type}

/-! ## divisions outside -/

/-- No division stands directly below the node, if that is a product or a division. -/
def OutsideNode : Expr φ → Prop
  | .binary .mul a b | .binary .div a b => a.isDivision = false ∧ b.isDivision = false
  | .chain .mul es => ∀ e ∈ es, e.isDivision = false
  | _ => True

/-- No division stands directly below a product or a division. -/
def Outside (e : Expr φ) : Prop := ∀ s : Expr φ, s.Within e → s.OutsideNode

theorem outside_iff {e : Expr φ} : e.Outside ↔ e.OutsideNode ∧ ∀ c ∈ e.children, c.Outside := forall_within_iff

theorem Outside.node {e : Expr φ} (h : e.Outside) : e.OutsideNode := (outside_iff.1 h).1

theorem Outside.children {e : Expr φ} (h : e.Outside) : ∀ c ∈ e.children, c.Outside := (outside_iff.1 h).2

theorem outside_div {a b : Expr φ} :
    (div a b).Outside ↔ (a.isDivision = false ∧ b.isDivision = false) ∧ a.Outside ∧ b.Outside := by
  rw [outside_iff]
  simp [div, OutsideNode, Expr.children]

@[simp] theorem isDivision_div (a b : Expr φ) : (div a b).isDivision = true := rfl

@[simp] theorem isDivision_mul (a b : Expr φ) : (mul a b).isDivision = false := rfl

@[simp] theorem isDivision_chain (op : ChainOp) (es : List (Expr φ)) : (chain op es).isDivision = false := rfl

theorem isDivision_of_denominator? {e : Expr φ} (h : e.denominator? = none) : e.isDivision = false := by
  rw [isDivision, h, Option.isSome_none]

/-! ## the rules -/

/-- The rules for divisions, applied to a node and again to the trees that they build.  Of two rules that fit, the division
on the right of a product goes first, and the one above another division. -/
inductive RisesTo : Expr φ → Expr φ → Prop
  /-- `a * (b / c)` becomes `(a * b) / c`. -/
  | factorRight {a b c m r : Expr φ} : RisesTo (.binary .mul a b) m → RisesTo (.binary .div m c) r →
      RisesTo (.binary .mul a (.binary .div b c)) r
  /-- `(a / b) * c` becomes `(a * c) / b`. -/
  | factorLeft {a b c m r : Expr φ} : c.isDivision = false → RisesTo (.binary .mul a c) m →
      RisesTo (.binary .div m b) r → RisesTo (.binary .mul (.binary .div a b) c) r
  /-- `(a / b) / c` becomes `a / (b * c)`. -/
  | dividend {a b c m r : Expr φ} : RisesTo (.binary .mul b c) m → RisesTo (.binary .div a m) r →
      RisesTo (.binary .div (.binary .div a b) c) r
  /-- `a / (b / c)` becomes `(a * c) / b`. -/
  | divisor {a b c m r : Expr φ} : a.isDivision = false → RisesTo (.binary .mul a c) m →
      RisesTo (.binary .div m b) r → RisesTo (.binary .div a (.binary .div b c)) r
  /-- A chain of factors becomes the chain of their numerators over the product of their denominators. -/
  | factors {es : List (Expr φ)} {n d r : Expr φ} : es.any isDivision = true →
      RisesTo (.chain .mul (es.map numerator)) n → RisesTo (productOf (es.filterMap denominator?)) d →
      RisesTo (.binary .div n d) r → RisesTo (.chain .mul es) r
  /-- No rule fits. -/
  | rest {e : Expr φ} : e.OutsideNode → RisesTo e e

/-- The rules at every node of a tree, the children first. -/
inductive PassRisesTo : Expr φ → Expr φ → Prop
  | node {e r : Expr φ} (f : Expr φ → Expr φ) : (∀ c ∈ e.children, PassRisesTo c (f c)) →
      RisesTo (e.mapChildren f) r → PassRisesTo e r

/-- The rules have one result at most. -/
theorem RisesTo.unique {e r r' : Expr φ} (h : RisesTo e r) (h' : RisesTo e r') : r = r' := by
  induction h generalizing r' with
  | factorRight _ _ ihm ihr =>
    cases h' with
    | factorRight hm hr =>
      obtain rfl := ihm hm
      exact ihr hr
    | factorLeft hc => cases hc
    | rest hnode => cases hnode.2
  | factorLeft hc _ _ ihm ihr =>
    cases h' with
    | factorRight => cases hc
    | factorLeft _ hm hr =>
      obtain rfl := ihm hm
      exact ihr hr
    | rest hnode => cases hnode.1
  | dividend _ _ ihm ihr =>
    cases h' with
    | dividend hm hr =>
      obtain rfl := ihm hm
      exact ihr hr
    | divisor ha => cases ha
    | rest hnode => cases hnode.1
  | divisor ha _ _ ihm ihr =>
    cases h' with
    | dividend => cases ha
    | divisor _ hm hr =>
      obtain rfl := ihm hm
      exact ihr hr
    | rest hnode => cases hnode.2
  | factors hany _ _ _ ihn ihd ihr =>
    cases h' with
    | factors _ hn hd hr =>
      obtain rfl := ihn hn
      obtain rfl := ihd hd
      exact ihr hr
    | rest hnode =>
      obtain ⟨e, he, hdiv⟩ := List.any_eq_true.1 hany
      rw [hnode e he] at hdiv
      cases hdiv
  | rest hnode =>
    cases h' with
    | factorRight => cases hnode.2
    | factorLeft => cases hnode.1
    | dividend => cases hnode.1
    | divisor => cases hnode.2
    | factors hany =>
      obtain ⟨e, he, hdiv⟩ := List.any_eq_true.1 hany
      rw [hnode e he] at hdiv
      cases hdiv
    | rest => rfl

/-! ## the rules end -/

/-- A division that is outside has no division above or below its line. -/
theorem Outside.of_denominator? {e q : Expr φ} (h : e.Outside) (hq : e.denominator? = some q) :
    ∃ p, e = div p q ∧ (p.Outside ∧ p.isDivision = false) ∧ q.Outside ∧ q.isDivision = false := by
  obtain ⟨p, rfl⟩ := eq_div_of_denominator? hq
  obtain ⟨⟨hp, hq⟩, hpo, hqo⟩ := outside_div.1 h
  exact ⟨p, rfl, ⟨hpo, hp⟩, hqo, hq⟩

theorem Outside.numerator {e : Expr φ} (h : e.Outside) : e.numerator.Outside ∧ e.numerator.isDivision = false := by
  cases hq : e.denominator? with
  | none =>
    rw [numerator_of_denominator? hq]
    exact ⟨h, isDivision_of_denominator? hq⟩
  | some q =>
    obtain ⟨p, rfl, hp, -⟩ := h.of_denominator? hq
    exact hp

theorem RisesTo.mul_self {a b : Expr φ} (ha : a.isDivision = false) (hb : b.isDivision = false) :
    RisesTo (.binary .mul a b) (mul a b) := .rest ⟨ha, hb⟩

theorem RisesTo.div_self {a b : Expr φ} (ha : a.isDivision = false) (hb : b.isDivision = false) :
    RisesTo (.binary .div a b) (div a b) := .rest ⟨ha, hb⟩

theorem risesTo_mulFractions {a b : Expr φ} (ha : a.Outside) (hb : b.Outside) : RisesTo (mul a b) (mulFractions a b) := by
  unfold mulFractions
  split
  · rename_i hp hr
    exact .mul_self (isDivision_of_denominator? hp) (isDivision_of_denominator? hr)
  · rename_i s hp hs
    obtain ⟨r, rfl, ⟨-, hr⟩, -, hs⟩ := hb.of_denominator? hs
    exact .factorRight (.mul_self (isDivision_of_denominator? hp) hr) (.div_self rfl hs)
  · rename_i q hq hr
    obtain ⟨p, rfl, ⟨-, hp⟩, -, hq⟩ := ha.of_denominator? hq
    have hb' := isDivision_of_denominator? hr
    exact .factorLeft hb' (.mul_self hp hb') (.div_self rfl hq)
  · rename_i q s hq hs
    obtain ⟨p, rfl, ⟨-, hp⟩, -, hq⟩ := ha.of_denominator? hq
    obtain ⟨r, rfl, ⟨-, hr⟩, -, hs⟩ := hb.of_denominator? hs
    -- the right division rises first, then the left one below it, and then one out of the other
    have hleft : RisesTo (.binary .mul (div p q) r) (div (mul p r) q) := .factorLeft hr (.mul_self hp hr) (.div_self rfl hq)
    exact .factorRight hleft (.dividend (.mul_self hq hs) (.div_self rfl rfl))

theorem risesTo_divFractions {a b : Expr φ} (ha : a.Outside) (hb : b.Outside) : RisesTo (div a b) (divFractions a b) := by
  unfold divFractions
  split
  · rename_i hp hr
    exact .div_self (isDivision_of_denominator? hp) (isDivision_of_denominator? hr)
  · rename_i s hp hs
    obtain ⟨r, rfl, ⟨-, hr⟩, -, hs⟩ := hb.of_denominator? hs
    have ha' := isDivision_of_denominator? hp
    exact .divisor ha' (.mul_self ha' hs) (.div_self rfl hr)
  · rename_i q hq hr
    obtain ⟨p, rfl, ⟨-, hp⟩, -, hq⟩ := ha.of_denominator? hq
    exact .dividend (.mul_self hq (isDivision_of_denominator? hr)) (.div_self hp rfl)
  · rename_i q s hq hs
    obtain ⟨p, rfl, ⟨-, hp⟩, -, hq⟩ := ha.of_denominator? hq
    obtain ⟨r, rfl, ⟨-, hr⟩, -, hs⟩ := hb.of_denominator? hs
    have hright : RisesTo (.binary .mul q (div r s)) (div (mul q r) s) := .factorRight (.mul_self hq hr) (.div_self rfl hs)
    exact .dividend hright (.divisor hp (.mul_self hp hs) (.div_self rfl rfl))

section Factors

variable {es : List (Expr φ)} (hes : ∀ e ∈ es, e.Outside)

include hes

theorem numerators_outside : ∀ e ∈ es.map numerator, e.Outside ∧ e.isDivision = false := by
  intro e he
  obtain ⟨f, hf, rfl⟩ := List.mem_map.1 he
  exact (hes f hf).numerator

theorem denominators_outside : ∀ e ∈ es.filterMap denominator?, e.Outside ∧ e.isDivision = false := by
  intro e he
  obtain ⟨f, hf, hq⟩ := List.mem_filterMap.1 he
  obtain ⟨p, -, -, h⟩ := (hes f hf).of_denominator? hq
  exact h

end Factors

theorem outside_chain {op : ChainOp} {es : List (Expr φ)} (hes : ∀ e ∈ es, e.Outside ∧ e.isDivision = false) :
    (chain op es).Outside := by
  refine outside_iff.2 ⟨?_, fun e he => (hes e he).1⟩
  cases op with
  | add => trivial
  | mul => exact fun e he => (hes e he).2

theorem outside_productOf {es : List (Expr φ)} (hes : ∀ e ∈ es, e.Outside ∧ e.isDivision = false) :
    (productOf es).Outside ∧ (productOf es).isDivision = false := by
  unfold productOf
  split
  · exact hes _ (List.mem_singleton_self _)
  · exact ⟨outside_chain hes, rfl⟩

theorem risesTo_collectFractions {es : List (Expr φ)} (hes : ∀ e ∈ es, e.Outside) :
    RisesTo (chain .mul es) (collectFractions es) := by
  unfold collectFractions
  split
  · rename_i hany
    have hd := outside_productOf (denominators_outside hes)
    exact .factors hany (.rest (outside_chain (numerators_outside hes)).node) (.rest hd.1.node) (.div_self rfl hd.2)
  · rename_i hany
    refine .rest fun e he => ?_
    simpa using List.any_eq_false.1 (Bool.not_eq_true _ ▸ hany) e he

/-- Over children with their divisions outside the rules end, with the rule of the pass. -/
theorem risesTo_fractionRule {e : Expr φ} (h : ∀ c ∈ e.children, c.Outside) : RisesTo e (fractionRule e) := by
  unfold fractionRule
  split
  · exact risesTo_mulFractions (h _ (by simp [children])) (h _ (by simp [children]))
  · exact risesTo_divFractions (h _ (by simp [children])) (h _ (by simp [children]))
  · exact risesTo_collectFractions h
  · rename_i hmul hdiv hchain
    refine .rest ?_
    unfold OutsideNode
    split
    · exact absurd rfl (hmul _ _)
    · exact absurd rfl (hdiv _ _)
    · exact absurd rfl (hchain _)
    · trivial

/-- What the rules end with over such children is outside itself. -/
theorem RisesTo.outside {e r : Expr φ} (h : RisesTo e r) (hc : ∀ c ∈ e.children, c.Outside) : r.Outside := by
  have hpair : ∀ {a b : Expr φ}, (∀ c ∈ [a, b], c.Outside) ↔ a.Outside ∧ b.Outside := by simp
  induction h with
  | factorRight _ _ ihm ihr =>
    obtain ⟨ha, hbc⟩ := hpair.1 hc
    obtain ⟨-, hb, hc⟩ := outside_div.1 hbc
    exact ihr (hpair.2 ⟨ihm (hpair.2 ⟨ha, hb⟩), hc⟩)
  | factorLeft _ _ _ ihm ihr =>
    obtain ⟨hab, hc⟩ := hpair.1 hc
    obtain ⟨-, ha, hb⟩ := outside_div.1 hab
    exact ihr (hpair.2 ⟨ihm (hpair.2 ⟨ha, hc⟩), hb⟩)
  | dividend _ _ ihm ihr =>
    obtain ⟨hab, hc⟩ := hpair.1 hc
    obtain ⟨-, ha, hb⟩ := outside_div.1 hab
    exact ihr (hpair.2 ⟨ha, ihm (hpair.2 ⟨hb, hc⟩)⟩)
  | divisor _ _ _ ihm ihr =>
    obtain ⟨ha, hbc⟩ := hpair.1 hc
    obtain ⟨-, hb, hc⟩ := outside_div.1 hbc
    exact ihr (hpair.2 ⟨ihm (hpair.2 ⟨ha, hc⟩), hb⟩)
  | factors _ _ _ _ ihn ihd ihr =>
    have hn := ihn fun e he => (numerators_outside hc e he).1
    have hd := ihd (outside_productOf (denominators_outside hc)).1.children
    exact ihr (hpair.2 ⟨hn, hd⟩)
  | rest hnode => exact outside_iff.2 ⟨hnode, hc⟩

/-! ## the pass -/

theorem outside_withFractionsOutside (e : Expr φ) : (withFractionsOutside e).Outside := by
  induction e using childInduction with
  | step e ih =>
    have hchildren : ∀ c ∈ (e.mapChildren withFractionsOutside).children, c.Outside := by
      rw [children_mapChildren]
      exact List.forall_mem_map.2 ih
    rw [withFractionsOutside, bottomUp_eq]
    exact (risesTo_fractionRule hchildren).outside hchildren

theorem passRisesTo_withFractionsOutside (e : Expr φ) : PassRisesTo e (withFractionsOutside e) := by
  induction e using childInduction with
  | step e ih =>
    have hchildren : ∀ c ∈ (e.mapChildren withFractionsOutside).children, c.Outside := by
      rw [children_mapChildren]
      exact List.forall_mem_map.2 fun c _ => outside_withFractionsOutside c
    refine .node withFractionsOutside ih ?_
    rw [withFractionsOutside, bottomUp_eq]
    exact risesTo_fractionRule hchildren

theorem PassRisesTo.unique {e r r' : Expr φ} (h : PassRisesTo e r) (h' : PassRisesTo e r') : r = r' := by
  induction h generalizing r' with
  | node f _ hr ih =>
    cases h' with
    | node g hg hr' =>
      have hfg := mapChildren_congr fun c hc => ih c hc (hg c hc)
      rw [hfg] at hr
      exact hr.unique hr'

/-- A tree with its divisions outside stays as it is. -/
theorem Outside.passRisesTo_self {e : Expr φ} (h : e.Outside) : PassRisesTo e e := by
  induction e using childInduction with
  | step e ih =>
    refine .node id (fun c hc => ih c hc (h.children c hc)) ?_
    rw [mapChildren_id]
    exact .rest h.node

/-- **Raising divisions ends.**  From every tree the rules, applied from the leaves up and again to whatever they build, come
to an end with one result, which the pass computes.  In it no division stands directly below a product or a division, and
the pass leaves it alone. -/
theorem withFractionsOutside_settles (e : Expr φ) :
    (∀ r, PassRisesTo e r ↔ r = withFractionsOutside e) ∧ (withFractionsOutside e).Outside ∧
      withFractionsOutside (withFractionsOutside e) = withFractionsOutside e := by
  have houtside := outside_withFractionsOutside e
  refine ⟨?_, houtside, ?_⟩
  · intro r
    constructor
    · intro h
      exact h.unique (passRisesTo_withFractionsOutside e)
    · rintro rfl
      exact passRisesTo_withFractionsOutside e
  · exact (passRisesTo_withFractionsOutside _).unique houtside.passRisesTo_self

end RatCalc.Expr
