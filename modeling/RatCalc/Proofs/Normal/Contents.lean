import RatCalc.Proofs.Normal.Termination
import RatCalc.Proofs.Number.Canonical

/-!
# What a tree contains

The literals of a tree decide whether it is refused, and the names that it assigns are all that it binds where it runs.
Normalising adds no name, and its new literals are well formed.

* `targets` — the names assigned in a tree, those in functions apart;
* `Confined texts names e` — the literals of `e` are all in `texts` and its targets in `names`;
* `of_firstFault?` — the first literal that is not well formed;
* `Confined.normalize` — what confines a tree confines its normal form, if well-formed literals are allowed.
-/

namespace RatCalc

namespace Expr

variable {φ : Type}

mutual
/-- The names that a tree assigns where it runs; functions in it run elsewhere. -/
def targets : Expr φ → List String
  | .num _ | .var _ | .lambda _ _ | .unit | .foreign _ => []
  | .assign _ x e => x :: targets e
  | .unary _ _ e => targets e
  | .choice bs => targetsOfBranches bs
  | .apply f as => targets f ++ targetsOfList as
  | .supply as f => targetsOfList as ++ targets f
  | .binary _ a b => targets a ++ targets b
  | .chain _ es | .block es => targetsOfList es
def targetsOfList : List (Expr φ) → List String
  | [] => []
  | e :: es => targets e ++ targetsOfList es
def targetsOfBranches : List (Branch (Expr φ)) → List String
  | [] => []
  | .when g a :: bs => targets g ++ targets a ++ targetsOfBranches bs
  | .otherwise a :: bs => targets a ++ targetsOfBranches bs
end

theorem literalsOfList_eq (es : List (Expr φ)) : literalsOfList es = es.flatMap literals := by
  induction es with
  | nil => rfl
  | cons e es ih => simp [literalsOfList, ih]

theorem literalsOfBranches_eq (bs : List (Branch (Expr φ))) :
    literalsOfBranches bs = (bs.flatMap Branch.trees).flatMap literals := by
  induction bs with
  | nil => rfl
  | cons b bs ih => cases b <;> simp [literalsOfBranches, Branch.trees, ih]

theorem targetsOfList_eq (es : List (Expr φ)) : targetsOfList es = es.flatMap targets := by
  induction es with
  | nil => rfl
  | cons e es ih => simp [targetsOfList, ih]

theorem targetsOfBranches_eq (bs : List (Branch (Expr φ))) :
    targetsOfBranches bs = (bs.flatMap Branch.trees).flatMap targets := by
  induction bs with
  | nil => rfl
  | cons b bs ih => cases b <;> simp [targetsOfBranches, Branch.trees, ih]

/-- All literals are in `texts`, all targets in `names`. -/
def Confined (texts names : String → Prop) (e : Expr φ) : Prop :=
  (∀ text ∈ e.literals, texts text) ∧ ∀ name ∈ e.targets, names name

section Nodes

variable {texts names : String → Prop}

attribute [local simp] literals targets

@[simp] theorem confined_num {text : String} : (num text : Expr φ).Confined texts names ↔ texts text := by
  simp [Confined]

@[simp] theorem confined_assign {b : Binding} {x : String} {e : Expr φ} :
    (assign b x e).Confined texts names ↔ names x ∧ e.Confined texts names := by
  simp [Confined, and_left_comm]

@[simp] theorem confined_lambda {ps : List String} {e : Expr φ} :
    (lambda ps e).Confined texts names ↔ ∀ text ∈ e.literals, texts text := by simp [Confined]

@[simp] theorem confined_unary {op : UnaryOp} {p : Place} {e : Expr φ} :
    (unary op p e).Confined texts names ↔ e.Confined texts names := by simp [Confined]

@[simp] theorem confined_binary {op : BinaryOp} {a b : Expr φ} :
    (binary op a b).Confined texts names ↔ a.Confined texts names ∧ b.Confined texts names := by
  simp [Confined, or_imp, forall_and, and_and_and_comm]

theorem confined_flatMap {es : List (Expr φ)} :
    ((∀ text ∈ es.flatMap literals, texts text) ∧ ∀ name ∈ es.flatMap targets, names name) ↔
      ∀ e ∈ es, e.Confined texts names := by
  simp only [List.mem_flatMap, forall_exists_index, and_imp, Confined]
  exact ⟨fun h e he => ⟨fun t => h.1 t e he, fun x => h.2 x e he⟩,
    fun h => ⟨fun t e he => (h e he).1 t, fun x e he => (h e he).2 x⟩⟩

@[simp] theorem confined_chain {op : ChainOp} {es : List (Expr φ)} :
    (chain op es).Confined texts names ↔ ∀ e ∈ es, e.Confined texts names := by
  rw [← confined_flatMap, Confined, literals, targets, literalsOfList_eq, targetsOfList_eq]

@[simp] theorem confined_block {es : List (Expr φ)} :
    (block es).Confined texts names ↔ ∀ e ∈ es, e.Confined texts names := by
  rw [← confined_flatMap, Confined, literals, targets, literalsOfList_eq, targetsOfList_eq]

@[simp] theorem confined_choice {bs : List (Branch (Expr φ))} :
    (choice bs).Confined texts names ↔ ∀ e ∈ bs.flatMap Branch.trees, e.Confined texts names := by
  rw [← confined_flatMap, Confined, literals, targets, literalsOfBranches_eq, targetsOfBranches_eq]

@[simp] theorem confined_apply {f : Expr φ} {as : List (Expr φ)} :
    (apply f as).Confined texts names ↔ f.Confined texts names ∧ ∀ e ∈ as, e.Confined texts names := by
  rw [← confined_flatMap, Confined, literals, targets, literalsOfList_eq, targetsOfList_eq]
  simp only [List.forall_mem_append, Confined]
  exact and_and_and_comm

@[simp] theorem confined_supply {f : Expr φ} {as : List (Expr φ)} :
    (supply as f).Confined texts names ↔ (∀ e ∈ as, e.Confined texts names) ∧ f.Confined texts names := by
  rw [← confined_flatMap, Confined, literals, targets, literalsOfList_eq, targetsOfList_eq]
  simp only [List.forall_mem_append, Confined]
  exact and_and_and_comm

end Nodes

end Expr

/-- Some number is denoted. -/
def Literal.WellFormed (text : String) : Prop := ∃ r, Literal.read text = .ok r

theorem Literal.not_wellFormed_of_read {text : String} {fault : Fault} (h : read text = .error fault) :
    ¬ WellFormed text := fun ⟨_, hr⟩ => nomatch h.symm.trans hr

namespace Expr

/-! ## the first fault -/

section Faults

variable {φ : Type} {e : Expr φ}

theorem firstFault?_eq_none_iff : e.firstFault? = none ↔ ∀ text ∈ e.literals, Literal.WellFormed text := by
  rw [firstFault?, List.findSome?_eq_none_iff]
  refine forall₂_congr fun text _ => ?_
  cases hread : Literal.read text with
  | ok r => exact iff_of_true rfl ⟨r, hread⟩
  | error fault => exact iff_of_false nofun (Literal.not_wellFormed_of_read hread)

/-- The fault that is found is that of a literal with none before it. -/
theorem of_firstFault? {text : String} {fault : Literal.Fault} (h : e.firstFault? = some (text, fault)) :
    ∃ before after, e.literals = before ++ text :: after ∧ (∀ t ∈ before, Literal.WellFormed t) ∧
      Literal.read text = .error fault := by
  obtain ⟨before, text', after, hliterals, hfault, hbefore⟩ := List.findSome?_eq_some_iff.1 h
  have hread : text' = text ∧ Literal.read text = .error fault := by
    split at hfault
    · cases hfault
    · rename_i hread
      obtain ⟨rfl, rfl⟩ := Prod.mk.inj (Option.some.inj hfault)
      exact ⟨rfl, hread⟩
  obtain ⟨rfl, hread⟩ := hread
  refine ⟨before, after, hliterals, ?_, hread⟩
  intro t ht
  have hnone := hbefore t ht
  cases hread : Literal.read t with
  | ok r => exact ⟨r, hread⟩
  | error fault =>
    rw [hread] at hnone
    cases hnone

end Faults

/-! ## rules -/

section Rules

variable {φ : Type} {texts names : String → Prop} (htexts : ∀ text, Literal.WellFormed text → texts text)

/-- The literal of a number. -/
theorem wellFormed_of_ofNumber? {r : ExtRat} {e : Expr φ} (hr : r.Canonical) (h : ofNumber? r = some e) :
    ∃ text, e = .num text ∧ Literal.WellFormed text := by
  obtain ⟨text, htext, rfl⟩ := Option.map_eq_some_iff.1 h
  exact ⟨text, rfl, r, Literal.value?_eq_some_iff.1 (ExtRat.value?_of_toExactDecimal? hr htext)⟩

include htexts

/-- The literals that the rules bring in by themselves. -/
theorem confined_constants (φ : Type) (names : String → Prop) :
    (num "0" : Expr φ).Confined texts names ∧ (num "1" : Expr φ).Confined texts names ∧
      (num "Infinity" : Expr φ).Confined texts names ∧ (num "-1" : Expr φ).Confined texts names ∧
      (num "0.01" : Expr φ).Confined texts names := by
  simp only [confined_num]
  refine ⟨?_, ?_, ?_, ?_, ?_⟩
  · exact htexts _ ⟨⟨0, 1⟩, by decide⟩
  · exact htexts _ ⟨⟨1, 1⟩, by decide⟩
  · exact htexts _ ⟨⟨1, 0⟩, by decide⟩
  · exact htexts _ ⟨⟨-1, 1⟩, by decide⟩
  · exact htexts _ ⟨⟨1, 100⟩, by decide⟩

theorem Confined.negated {e : Expr φ} (h : e.Confined texts names) : (negated e).Confined texts names := by
  obtain ⟨-, -, -, hminus, -⟩ := confined_constants htexts φ names
  exact confined_binary.2 ⟨hminus, h⟩

theorem confined_positiveRule {e : Expr φ} (h : e.Confined texts names) : (positiveRule e).Confined texts names := by
  obtain ⟨-, -, -, -, hpercent⟩ := confined_constants htexts φ names
  unfold positiveRule
  split
  · exact confined_unary.1 h
  · exact (confined_unary.1 h).negated htexts
  · exact confined_binary.2 ⟨confined_unary.1 h, hpercent⟩
  · obtain ⟨ha, hb⟩ := confined_binary.1 h
    exact confined_binary.2 ⟨ha, hb.negated htexts⟩
  · exact h

omit htexts

theorem Confined.splice {op : ChainOp} {e : Expr φ} (h : e.Confined texts names) :
    ∀ e' ∈ splice op e, e'.Confined texts names := by
  unfold Expr.splice
  split
  · split
    · exact confined_chain.1 h
    · simpa using h
  · simpa using h

theorem confined_flatMap_splice {op : ChainOp} {es : List (Expr φ)} (h : ∀ e ∈ es, e.Confined texts names) :
    ∀ e ∈ es.flatMap (splice op), e.Confined texts names := by
  intro e he
  obtain ⟨e', he', hmem⟩ := List.mem_flatMap.1 he
  exact (h e' he').splice e hmem

theorem confined_levelRule {e : Expr φ} (h : e.Confined texts names) : (levelRule e).Confined texts names := by
  unfold levelRule
  split
  · obtain ⟨ha, hb⟩ := confined_binary.1 h
    split
    · exact confined_chain.2 (List.forall_mem_append.2 ⟨ha.splice, hb.splice⟩)
    · exact h
  · exact confined_chain.2 (confined_flatMap_splice (confined_chain.1 h))
  · exact h

theorem Confined.numerator {e : Expr φ} (h : e.Confined texts names) : e.numerator.Confined texts names := by
  unfold Expr.numerator
  split
  · exact (confined_binary.1 h).1
  · exact h

theorem Confined.denominator {e q : Expr φ} (h : e.Confined texts names) (hq : e.denominator? = some q) :
    q.Confined texts names := by
  obtain ⟨p, rfl⟩ := eq_div_of_denominator? hq
  exact (confined_binary.1 h).2

theorem confined_mulFractions {a b : Expr φ} (ha : a.Confined texts names) (hb : b.Confined texts names) :
    (mulFractions a b).Confined texts names := by
  unfold mulFractions
  split
  · exact confined_binary.2 ⟨ha, hb⟩
  · rename_i hs
    exact confined_binary.2 ⟨confined_binary.2 ⟨ha, hb.numerator⟩, hb.denominator hs⟩
  · rename_i hq _
    exact confined_binary.2 ⟨confined_binary.2 ⟨ha.numerator, hb⟩, ha.denominator hq⟩
  · rename_i hq hs
    exact confined_binary.2 ⟨confined_binary.2 ⟨ha.numerator, hb.numerator⟩,
      confined_binary.2 ⟨ha.denominator hq, hb.denominator hs⟩⟩

theorem confined_divFractions {a b : Expr φ} (ha : a.Confined texts names) (hb : b.Confined texts names) :
    (divFractions a b).Confined texts names := by
  unfold divFractions
  split
  · exact confined_binary.2 ⟨ha, hb⟩
  · rename_i hs
    exact confined_binary.2 ⟨confined_binary.2 ⟨ha, hb.denominator hs⟩, hb.numerator⟩
  · rename_i hq _
    exact confined_binary.2 ⟨ha.numerator, confined_binary.2 ⟨ha.denominator hq, hb⟩⟩
  · rename_i hq hs
    exact confined_binary.2 ⟨confined_binary.2 ⟨ha.numerator, hb.denominator hs⟩,
      confined_binary.2 ⟨ha.denominator hq, hb.numerator⟩⟩

theorem confined_productOf {es : List (Expr φ)} (h : ∀ e ∈ es, e.Confined texts names) :
    (productOf es).Confined texts names := by
  unfold productOf
  split
  · exact h _ (by simp)
  · exact confined_chain.2 h

theorem confined_collectFractions {es : List (Expr φ)} (h : ∀ e ∈ es, e.Confined texts names) :
    (collectFractions es).Confined texts names := by
  unfold collectFractions
  split
  · refine confined_binary.2 ⟨confined_chain.2 ?_, confined_productOf ?_⟩
    · intro e he
      obtain ⟨e', he', rfl⟩ := List.mem_map.1 he
      exact (h e' he').numerator
    · intro q hq
      obtain ⟨e, he, hq⟩ := List.mem_filterMap.1 hq
      exact (h e he).denominator hq
  · exact confined_chain.2 h

theorem confined_fractionRule {e : Expr φ} (h : e.Confined texts names) : (fractionRule e).Confined texts names := by
  unfold fractionRule
  split
  · exact confined_mulFractions (confined_binary.1 h).1 (confined_binary.1 h).2
  · exact confined_divFractions (confined_binary.1 h).1 (confined_binary.1 h).2
  · exact confined_collectFractions (confined_chain.1 h)
  · exact h

theorem confined_sort {es : List (Expr φ)} (h : ∀ e ∈ es, e.Confined texts names) :
    ∀ e ∈ sort es, e.Confined texts names := fun e he => h e ((perm_sort es).mem_iff.1 he)

theorem confined_orderRule {e : Expr φ} (h : e.Confined texts names) : (orderRule e).Confined texts names := by
  unfold orderRule
  split
  · exact confined_chain.2 (confined_sort (confined_chain.1 h))
  · exact h

theorem canonical_onNumbers (op : ChainOp) (x y : ExtRat) : (op.toBinary.onNumbers x y).Canonical := by
  cases op with
  | add => exact ExtRat.canonical_add x y
  | mul => exact ExtRat.canonical_mul x y

theorem canonical_foldl (op : ChainOp) {x : ExtRat} (hx : x.Canonical) (xs : List ExtRat) :
    (xs.foldl op.toBinary.onNumbers x).Canonical := by
  induction xs generalizing x with
  | nil => exact hx
  | cons y ys ih => exact ih (canonical_onNumbers op x y)

include htexts

theorem confined_foldLiterals (op : ChainOp) {es : List (Expr φ)} (h : ∀ e ∈ es, e.Confined texts names) :
    ∀ e ∈ foldLiterals op es, e.Confined texts names := by
  unfold foldLiterals
  split
  · rename_i literal hliteral
    obtain ⟨x, xs, -, hne, -, hnum⟩ := of_foldedLiteral? hliteral
    obtain ⟨y, ys, rfl⟩ := List.exists_cons_of_ne_nil hne
    obtain ⟨text, rfl, htext⟩ := wellFormed_of_ofNumber? (canonical_foldl op (canonical_onNumbers op x y) ys) hnum
    refine List.forall_mem_cons.2 ⟨confined_num.2 (htexts text htext), ?_⟩
    exact fun e he => h e (List.mem_of_mem_filter he)
  · exact h

theorem confined_chainOf (op : ChainOp) {es : List (Expr φ)} (h : ∀ e ∈ es, e.Confined texts names) :
    (chainOf op es).Confined texts names := by
  obtain ⟨hzero, hone, -⟩ := confined_constants htexts φ names
  unfold chainOf
  split
  · cases op with
    | add => exact hzero
    | mul => exact hone
  · exact h _ (by simp)
  · exact confined_chain.2 (confined_sort h)

theorem confined_foldPower {a b : Expr φ} (ha : a.Confined texts names) (hb : b.Confined texts names) :
    (foldPower a b).Confined texts names := by
  obtain ⟨hzero, hone, -⟩ := confined_constants htexts φ names
  unfold foldPower
  split
  · exact hone
  · split
    · exact hzero
    · split
      · exact ha
      · exact confined_binary.2 ⟨ha, hb⟩

section Folding

variable [DecidableEq φ]

theorem confined_foldChain (op : ChainOp) {es : List (Expr φ)} (h : ∀ e ∈ es, e.Confined texts names) :
    (foldChain op es).Confined texts names := by
  have hspliced : ∀ e ∈ es.flatMap (splice op), e.Confined texts names := confined_flatMap_splice h
  have hfolded := confined_foldLiterals htexts op hspliced
  unfold foldChain
  cases op with
  | add =>
    refine confined_chainOf htexts .add ?_
    intro e he
    exact hfolded e (List.mem_of_mem_filter ((sublist_cancelNegations _).subset he))
  | mul =>
    dsimp only
    split
    · exact (confined_constants htexts _ _).1
    · exact confined_chainOf htexts .mul fun e he => hfolded e (List.mem_of_mem_filter he)

theorem confined_foldDivision {a b : Expr φ} (ha : a.Confined texts names) (hb : b.Confined texts names) :
    (foldDivision a b).Confined texts names := by
  obtain ⟨-, hone, hinfinity, -⟩ := confined_constants htexts φ names
  have hdiv : (div a b).Confined texts names := confined_binary.2 ⟨ha, hb⟩
  unfold foldDivision
  split
  · rename_i x y _ _
    dsimp only
    split
    · cases hnum : (ofNumber? (x.div y) : Option (Expr φ)) with
      | none => exact hdiv
      | some e =>
        obtain ⟨text, rfl, htext⟩ := wellFormed_of_ofNumber? (ExtRat.canonical_mul x y.recip) hnum
        exact confined_num.2 (htexts text htext)
    · exact hdiv
  · split
    · exact hone
    · split
      · exact ha
      · split
        · exact hinfinity
        · exact hdiv

theorem confined_foldDifference {a b : Expr φ} (ha : a.Confined texts names) (hb : b.Confined texts names) :
    (foldDifference a b).Confined texts names := by
  obtain ⟨hzero, -, -, hminus, -⟩ := confined_constants htexts φ names
  unfold foldDifference
  split
  · exact hzero
  · split
    · exact ha
    · split
      · exact confined_chain.2 (by simp [hminus, hb])
      · exact confined_binary.2 ⟨ha, hb⟩

theorem confined_foldRule {e : Expr φ} (h : e.Confined texts names) : (foldRule e).Confined texts names := by
  unfold foldRule
  split
  · exact confined_foldChain htexts _ (confined_chain.1 h)
  · split
    · exact (confined_constants htexts _ _).1
    · exact h
  · exact confined_foldPower htexts (confined_binary.1 h).1 (confined_binary.1 h).2
  · exact confined_foldDifference htexts (confined_binary.1 h).1 (confined_binary.1 h).2
  · exact confined_foldDivision htexts (confined_binary.1 h).1 (confined_binary.1 h).2
  · exact h

end Folding

end Rules

/-! ## passes and rounds -/

section Passes

variable {φ : Type} {texts names : String → Prop}

theorem confined_mapChildren {f : Expr φ → Expr φ} {e : Expr φ}
    (hf : ∀ c ∈ e.children, ∀ names, c.Confined texts names → (f c).Confined texts names) (h : e.Confined texts names) :
    (e.mapChildren f).Confined texts names := by
  cases e with
  | num text => exact h
  | var name => exact h
  | unit => exact h
  | foreign x => exact h
  | assign b x e =>
    obtain ⟨hx, he⟩ := confined_assign.1 h
    exact confined_assign.2 ⟨hx, hf e (by simp [children]) _ he⟩
  | lambda ps e =>
    -- the targets of the body are none of the tree, so the body is confined in its literals only
    have he : e.Confined texts (fun _ => True) := ⟨confined_lambda.1 h, fun _ _ => trivial⟩
    exact confined_lambda.2 (hf e (by simp [children]) _ he).1
  | choice bs =>
    have hc := children_mapChildren f (.choice bs)
    simp only [mapChildren, children] at hc
    simp only [mapChildren, confined_choice, hc, List.forall_mem_map]
    exact fun c hc => hf c hc names (confined_choice.1 h c hc)
  | apply g as =>
    obtain ⟨hg, has⟩ := confined_apply.1 h
    refine confined_apply.2 ⟨hf g (by simp [children]) _ hg, ?_⟩
    exact List.forall_mem_map.2 fun a ha => hf a (by simp [children, ha]) _ (has a ha)
  | supply as g =>
    obtain ⟨has, hg⟩ := confined_supply.1 h
    refine confined_supply.2 ⟨?_, hf g (by simp [children]) _ hg⟩
    exact List.forall_mem_map.2 fun a ha => hf a (by simp [children, ha]) _ (has a ha)
  | unary o p e => exact confined_unary.2 (hf e (by simp [children]) _ (confined_unary.1 h))
  | binary o a b =>
    obtain ⟨ha, hb⟩ := confined_binary.1 h
    exact confined_binary.2 ⟨hf a (by simp [children]) _ ha, hf b (by simp [children]) _ hb⟩
  | chain o es =>
    exact confined_chain.2 (List.forall_mem_map.2 fun e he => hf e (by simpa [children]) _ (confined_chain.1 h e he))
  | block es =>
    exact confined_block.2 (List.forall_mem_map.2 fun e he => hf e (by simpa [children]) _ (confined_block.1 h e he))

theorem confined_bottomUp {rule : Expr φ → Expr φ}
    (hrule : ∀ {e : Expr φ} {names : String → Prop}, e.Confined texts names → (rule e).Confined texts names)
    (e : Expr φ) : ∀ names, e.Confined texts names → (bottomUp rule e).Confined texts names := by
  induction e using childInduction with
  | step e ih =>
    intro names h
    rw [bottomUp_eq]
    exact hrule (confined_mapChildren ih h)

variable [DecidableEq φ] (htexts : ∀ text, Literal.WellFormed text → texts text)
include htexts

theorem Confined.apply (p : Pass) {e : Expr φ} (h : e.Confined texts names) : (p.apply e).Confined texts names := by
  rw [p.apply_eq_bottomUp]
  refine confined_bottomUp ?_ e names h
  intro e names h
  cases p with
  | negation => exact confined_positiveRule htexts h
  | leveling => exact confined_levelRule h
  | fractions => exact confined_fractionRule h
  | ordering => exact confined_orderRule h
  | folding => exact confined_foldRule htexts h

theorem Confined.round (p : Pipeline) {e : Expr φ} (h : e.Confined texts names) :
    (p.round e).Confined texts names := by
  unfold Pipeline.round
  induction p.passes generalizing e with
  | nil => exact h
  | cons pass passes ih => exact ih (h.apply htexts pass)

/-- **Normalising brings in nothing new** but well-formed literals. -/
theorem Confined.normalize (p : Pipeline) {e : Expr φ} (h : e.Confined texts names) :
    (p.normalize e).Confined texts names := by
  obtain ⟨n, hn⟩ := p.exists_iterate_eq p.maxRounds e
  rw [Pipeline.normalize, hn]
  clear hn
  induction n generalizing e with
  | zero => exact h
  | succ n ih => exact ih (h.round htexts p)

end Passes

end Expr

end RatCalc
