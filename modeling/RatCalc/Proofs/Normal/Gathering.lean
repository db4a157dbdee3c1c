import RatCalc.Proofs.Normal.Fixpoint
import RatCalc.Proofs.Normal.Soundness
import RatCalc.Proofs.Normal.Structure
import RatCalc.Proofs.Normal.Sums

/-!
# Order and grouping

A round makes one tree of all sums, and one of all products, that have the same leaves, whatever the order and the grouping
they were written in.  Leveling drops the grouping, and sorting the order, except that literals of one number, which may be
written differently, stay as they stood.  These become one literal; for the total does not depend on the order, and is
printed in one way.

* `literalTotal` — the total of the literals of a chain, `foldedLiteral?_eq_of_perm` — so they fold into the same literal;
* `Gathered` — operands that have one sorted order, `gathered_foldLiterals` — leaves after folding;
* `Combines`, `leaves` — the trees of one operator, and their leaves from left to right;
* `round_eq_of_leaves` — the trees of the same leaves become the same.
-/

namespace RatCalc

namespace Expr

variable {φ : Type}

/-! ## the total of the literals -/

/-- The literals of a chain, taken together. -/
def literalTotal (op : ChainOp) (es : List (Expr φ)) : Extended :=
  ((es.filterMap literal?).map ExtRat.denote).foldl op.toBinary.onExtended (.fraction op.neutral)

theorem foldl_onNumbers (op : ChainOp) {x : ExtRat} (hx : x.Canonical) {xs : List ExtRat} (hxs : ∀ y ∈ xs, y.Canonical) :
    xs.foldl op.toBinary.onNumbers x = ((xs.map ExtRat.denote).foldl op.toBinary.onExtended x.denote).form := by
  induction xs generalizing x with
  | nil => exact (ExtRat.form_denote hx).symm
  | cons y ys ih =>
    obtain ⟨hy, hys⟩ := List.forall_mem_cons.1 hxs
    have hstep : (op.toBinary.onNumbers x y).denote = op.toBinary.onExtended x.denote y.denote := by
      rw [BinaryOp.onExtended, ExtRat.form_denote hx, ExtRat.form_denote hy]
    rw [List.foldl_cons, ih (op.toBinary.canonical_onNumbers x y) hys, hstep, List.map_cons, List.foldl_cons]

/-- Two literals or more fold into their total. -/
theorem foldedLiteral?_eq (op : ChainOp) (es : List (Expr φ)) :
    foldedLiteral? op es =
      if 2 ≤ (es.filterMap literal?).length ∧ (literalTotal op es).form.isFinite = true then
        ofNumber? (literalTotal op es).form
      else none := by
  have hcanonical : ∀ x ∈ es.filterMap literal?, x.Canonical := by
    intro x hx
    obtain ⟨e, -, he⟩ := List.mem_filterMap.1 hx
    exact canonical_literal? he
  unfold foldedLiteral? literalTotal
  generalize es.filterMap literal? = xs at hcanonical
  rcases xs with _ | ⟨x, _ | ⟨y, xs⟩⟩
  · rfl
  · rfl
  · obtain ⟨hx, hrest⟩ := List.forall_mem_cons.1 hcanonical
    have htotal : (y :: xs).foldl op.toBinary.onNumbers x =
        (((x :: y :: xs).map ExtRat.denote).foldl op.toBinary.onExtended (.fraction op.neutral)).form := by
      rw [foldl_onNumbers op hx hrest, ← op.neutral_onExtended x.denote]
      rfl
    have hlen : 2 ≤ (x :: y :: xs).length := Nat.le_add_left 2 xs.length
    simp only [htotal, hlen, true_and]

/-- The order of the operands does not matter to the literal that they fold into. -/
theorem foldedLiteral?_eq_of_perm (op : ChainOp) {es fs : List (Expr φ)} (h : es.Perm fs) :
    foldedLiteral? op es = foldedLiteral? op fs := by
  have hliterals := h.filterMap literal?
  have htotal : literalTotal op es = literalTotal op fs := by
    have _ : Std.Commutative op.toBinary.onExtended := ⟨op.onExtended_comm⟩
    have _ : Std.Associative op.toBinary.onExtended := ⟨op.onExtended_assoc⟩
    exact (hliterals.map ExtRat.denote).foldl_op_eq
  rw [foldedLiteral?_eq, foldedLiteral?_eq, hliterals.length_eq, htotal]

theorem foldLiterals_perm (op : ChainOp) {es fs : List (Expr φ)} (h : es.Perm fs) :
    (foldLiterals op es).Perm (foldLiterals op fs) := by
  rw [foldLiterals, foldLiterals, foldedLiteral?_eq_of_perm op h]
  split
  · exact (h.filter _).cons _
  · exact h

/-! ## operands with one sorted order -/

/-- Variables, and at most one literal. -/
structure Gathered (es : List (Expr φ)) : Prop where
  rank_le : ∀ e ∈ es, e.rank ≤ 1
  one_literal : (es.filter (·.rank = 0)).length ≤ 1

theorem ne_chain_of_rank {e : Expr φ} (h : e.rank ≤ 1) (op : ChainOp) (es : List (Expr φ)) : e ≠ .chain op es := by
  rintro rfl
  exact absurd h (by decide : ¬ 2 ≤ 1)

namespace Gathered

variable {es fs : List (Expr φ)}

theorem sublist (h : Gathered es) (hsub : fs.Sublist es) : Gathered fs :=
  ⟨fun e he => h.rank_le e (hsub.subset he), (hsub.filter _).length_le.trans h.one_literal⟩

/-- Two operands that tie are the same variable, or the one literal. -/
theorem eq_of_tie (h : Gathered es) {a b : Expr φ} (ha : a ∈ es) (hb : b ∈ es) (hab : cmp a b ≠ .gt)
    (hba : cmp b a ≠ .gt) : a = b := by
  have hab := Ordering.ne_gt_iff_isLE.1 hab
  have hba := Ordering.ne_gt_iff_isLE.1 hba
  have hrank : a.rank = b.rank := le_antisymm (rank_le_of_cmp hab) (rank_le_of_cmp hba)
  rcases rank_eq_cases hrank with ⟨s, t, rfl, rfl⟩ | ⟨x, y, rfl, rfl⟩ | ⟨htwo, -⟩
  · have hs : .num s ∈ es.filter (·.rank = 0) := List.mem_filter.2 ⟨ha, rfl⟩
    have ht : .num t ∈ es.filter (·.rank = 0) := List.mem_filter.2 ⟨hb, rfl⟩
    obtain ⟨e, he⟩ := List.length_eq_one_iff.1 (le_antisymm h.one_literal (List.length_pos_of_mem hs))
    rw [he, List.mem_singleton] at hs ht
    rw [hs, ht]
  · have hxy : compare x y = .eq := Std.OrientedCmp.isLE_antisymm hab hba
    rw [Std.LawfulEqOrd.eq_of_compare hxy]
  · exact absurd (h.rank_le a ha) (by omega)

theorem sort_eq_of_perm (h : Gathered es) (hperm : es.Perm fs) : sort es = sort fs := by
  refine List.Perm.eq_of_pairwise ?_ (sorted_sort es) (sorted_sort fs)
    ((perm_sort es).trans (hperm.trans (perm_sort fs).symm))
  intro a b ha hb hab hba
  have ha' := (perm_sort es).mem_iff.1 ha
  have hb' := hperm.mem_iff.2 ((perm_sort fs).mem_iff.1 hb)
  exact h.eq_of_tie ha' hb' hab hba

theorem chainOf_eq_of_perm (h : Gathered es) (op : ChainOp) (hperm : es.Perm fs) : chainOf op es = chainOf op fs := by
  rcases es with _ | ⟨a, _ | ⟨b, es⟩⟩
  · rw [hperm.nil_eq]
  · rw [List.singleton_perm.1 hperm]
  · have hlen : 2 ≤ (a :: b :: es).length := Nat.le_add_left 2 es.length
    rw [chainOf_of_two_le hlen, chainOf_of_two_le (hperm.length_eq ▸ hlen), h.sort_eq_of_perm hperm]

end Gathered

/-! ## leaves -/

/-- A variable, or a literal of a fraction. -/
inductive Leaf : Expr φ → Prop
  | var (name : String) : Leaf (.var name)
  | num {text : String} {r : ExtRat} : Literal.value? text = some r → r.isFinite = true → Leaf (.num text)

theorem Leaf.rank_le {e : Expr φ} (h : e.Leaf) : e.rank ≤ 1 := by
  cases h <;> simp [rank]

theorem Leaf.isFinite {e : Expr φ} (h : e.Leaf) {x : ExtRat} (hx : e.literal? = some x) : x.isFinite = true := by
  cases h with
  | var name => cases hx
  | num htext hfin => exact Option.some.inj (htext.symm.trans hx) ▸ hfin

theorem Leaf.isSome_literal? {e : Expr φ} (h : e.Leaf) : e.literal?.isSome = decide (e.rank = 0) := by
  cases h with
  | var name => rfl
  | num htext _ => simp [literal?, htext, rank]

theorem Leaf.isDivision {e : Expr φ} (h : e.Leaf) : e.isDivision = false := by
  cases h <;> rfl

theorem length_literals_eq {es : List (Expr φ)} (hes : ∀ e ∈ es, e.Leaf) :
    (es.filterMap literal?).length = (es.filter (·.rank = 0)).length := by
  rw [List.length_filterMap_eq_countP, List.countP_congr fun e he => by rw [(hes e he).isSome_literal?],
    List.countP_eq_length_filter]

/-- Folding leaves at most one literal. -/
theorem gathered_foldLiterals (op : ChainOp) {es : List (Expr φ)} (hes : ∀ e ∈ es, e.Leaf) :
    Gathered (foldLiterals op es) := by
  constructor
  · intro e he
    rcases mem_foldLiterals he with he | ⟨text, rfl⟩
    · exact (hes e he).rank_le
    · simp [rank]
  · unfold foldLiterals
    split
    · rename_i literal hliteral
      have hnone : (es.filter (·.literal?.isNone)).filter (·.rank = 0) = [] := by
        rw [List.filter_filter, List.filter_eq_nil_iff]
        intro e he
        rw [← (hes e he).isSome_literal?]
        cases e.literal? <;> simp
      rw [List.filter_cons, hnone]
      split <;> simp
    · rename_i hnone
      rw [← length_literals_eq hes]
      refine length_literals_le_one hnone ?_
      intro x hx
      obtain ⟨e, he, hex⟩ := List.mem_filterMap.1 hx
      exact (hes e he).isFinite hex

/-- Folding makes the same tree of the same leaves, in whatever order they come. -/
theorem foldChain_eq_of_perm [DecidableEq φ] (op : ChainOp) {es fs : List (Expr φ)} (hes : ∀ e ∈ es, e.Leaf)
    (hperm : es.Perm fs) : foldChain op es = foldChain op fs := by
  have hfs : ∀ e ∈ fs, e.Leaf := fun e he => hes e (hperm.mem_iff.2 he)
  have hsplice : ∀ {gs : List (Expr φ)}, (∀ e ∈ gs, e.Leaf) → gs.flatMap (splice op) = gs := by
    intro gs hgs
    exact flatMap_splice_of_ne_chain (fun e he => ne_chain_of_rank (hgs e he).rank_le) op
  have hfold := foldLiterals_perm op hperm
  unfold foldChain
  rw [hsplice hes, hsplice hfs]
  cases op with
  | add =>
    have hzero := (gathered_foldLiterals .add hes).sublist (List.filter_sublist (p := (!·.isLiteral 0)))
    have hzero' := (gathered_foldLiterals .add hfs).sublist (List.filter_sublist (p := (!·.isLiteral 0)))
    dsimp only
    rw [cancelNegations_of_ne_chain fun e he => ne_chain_of_rank (hzero.rank_le e he),
      cancelNegations_of_ne_chain fun e he => ne_chain_of_rank (hzero'.rank_le e he)]
    exact hzero.chainOf_eq_of_perm .add (hfold.filter _)
  | mul =>
    have hone := (gathered_foldLiterals .mul hes).sublist (List.filter_sublist (p := (!·.isLiteral 1)))
    dsimp only
    rw [hfold.any_eq, hone.chainOf_eq_of_perm .mul (hfold.filter _)]

/-! ## trees of one operator -/

/-- A tree of `op`, as an operator between two or as a chain, over leaves. -/
inductive Combines (op : ChainOp) : Expr φ → Prop
  | leaf {e : Expr φ} : e.Leaf → Combines op e
  | binary {a b : Expr φ} : Combines op a → Combines op b → Combines op (.binary op.toBinary a b)
  | chain {es : List (Expr φ)} : (∀ e ∈ es, Combines op e) → Combines op (.chain op es)

mutual
/-- The leaves of a tree of `op`, from left to right. -/
def leaves (op : ChainOp) : Expr φ → List (Expr φ)
  | .binary o a b => if o = op.toBinary then leaves op a ++ leaves op b else [.binary o a b]
  | .chain o es => if o = op then leavesOfList op es else [.chain o es]
  | e => [e]
/-- The leaves of several trees. -/
def leavesOfList (op : ChainOp) : List (Expr φ) → List (Expr φ)
  | [] => []
  | e :: es => leaves op e ++ leavesOfList op es
end

theorem leavesOfList_eq (op : ChainOp) (es : List (Expr φ)) : leavesOfList op es = es.flatMap (leaves op) := by
  induction es with
  | nil => rfl
  | cons e es ih => rw [leavesOfList, ih, List.flatMap_cons]

theorem leaves_binary (op : ChainOp) (a b : Expr φ) :
    leaves op (.binary op.toBinary a b) = leaves op a ++ leaves op b := by
  rw [leaves, if_pos rfl]

theorem leaves_chain (op : ChainOp) (es : List (Expr φ)) : leaves op (.chain op es) = es.flatMap (leaves op) := by
  rw [leaves, if_pos rfl, leavesOfList_eq]

theorem Leaf.leaves {e : Expr φ} (h : e.Leaf) (op : ChainOp) : e.leaves op = [e] := by
  cases h <;> rfl

theorem leveled_chain (op : ChainOp) (es : List (Expr φ)) :
    leveled (.chain op es) = .chain op (es.flatMap fun e => splice op e.leveled) := by
  show levelRule (.chain op (bottomUpList levelRule es)) = _
  rw [bottomUpList_eq_map, levelRule, List.flatMap_map]
  rfl

namespace Combines

variable {op : ChainOp} {e : Expr φ}

theorem leaf_of_mem (h : e.Combines op) : ∀ l ∈ e.leaves op, l.Leaf := by
  induction h with
  | leaf h =>
    rw [h.leaves]
    simpa using h
  | binary _ _ iha ihb =>
    rw [leaves_binary]
    exact List.forall_mem_append.2 ⟨iha, ihb⟩
  | chain _ ih =>
    rw [leaves_chain]
    intro l hl
    obtain ⟨e, he, hle⟩ := List.mem_flatMap.1 hl
    exact ih e he l hle

/-! ### the passes -/

theorem withoutNegation (h : e.Combines op) : e.withoutNegation = e := by
  induction h with
  | leaf h => cases h <;> rfl
  | @binary a b _ _ iha ihb =>
    show positiveRule (.binary op.toBinary a.withoutNegation b.withoutNegation) = _
    rw [iha, ihb]
    cases op <;> rfl
  | @chain es _ ih =>
    have hes : es.map (bottomUp positiveRule) = es := (List.map_congr_left ih).trans (List.map_id' es)
    show positiveRule (.chain op (bottomUpList positiveRule es)) = _
    rw [bottomUpList_eq_map, hes]
    rfl

theorem splice_leveled (h : e.Combines op) : splice op e.leveled = e.leaves op := by
  induction h with
  | leaf h => cases h <;> rfl
  | binary _ _ iha ihb => rw [leveled_toBinary, splice_chain, iha, ihb, leaves_binary]
  | chain _ ih => rw [leveled_chain, splice_chain, List.flatMap_congr ih, leaves_chain]

/-- Leveling makes one chain of the leaves, if there are two or more. -/
theorem leveled_eq (h : e.Combines op) (hlen : 2 ≤ (e.leaves op).length) : e.leveled = .chain op (e.leaves op) := by
  cases h with
  | leaf h =>
    rw [h.leaves] at hlen
    exact absurd hlen (by decide : ¬ 2 ≤ 1)
  | binary ha hb => rw [leveled_toBinary, ha.splice_leveled, hb.splice_leveled, leaves_binary]
  | chain hes => rw [leveled_chain, List.flatMap_congr fun e he => (hes e he).splice_leveled, leaves_chain]

end Combines

end Expr

open RatCalc.Expr

variable {φ : Type} [DecidableEq φ]

theorem Pass.apply_leaf (p : Pass) {e : Expr φ} (h : e.Leaf) : p.apply e = e := by
  cases h <;> cases p <;> rfl

namespace Pipeline

variable {op : ChainOp} {e : Expr φ}

/-- A round folds the leaves in order. -/
theorem round_combines (h : e.Combines op) (hlen : 2 ≤ (e.leaves op).length) :
    round {} e = foldChain op (sort (e.leaves op)) := by
  have hleaf := h.leaf_of_mem
  have hsort : ∀ l ∈ sort (e.leaves op), l.Leaf := fun l hl => hleaf l ((perm_sort _).mem_iff.1 hl)
  have hfractions : withFractionsOutside (.chain op (e.leaves op)) = fractionRule (.chain op (e.leaves op)) :=
    Pass.fractions.apply_chain op fun l hl => Pass.fractions.apply_leaf (hleaf l hl)
  have hidle : fractionRule (.chain op (e.leaves op)) = .chain op (e.leaves op) := by
    cases op with
    | add => rfl
    | mul =>
      have hany : (e.leaves .mul).any isDivision = false :=
        List.any_eq_false.2 fun l hl => by simp [(hleaf l hl).isDivision]
      rw [fractionRule, collectFractions, hany]
      rfl
  have hordered : ordered (.chain op (e.leaves op)) = .chain op (sort (e.leaves op)) :=
    Pass.ordering.apply_chain op fun l hl => Pass.ordering.apply_leaf (hleaf l hl)
  have hfolded : folded (.chain op (sort (e.leaves op))) = foldChain op (sort (e.leaves op)) :=
    Pass.folding.apply_chain op fun l hl => Pass.folding.apply_leaf (hsort l hl)
  rw [round_eq, h.withoutNegation, h.leveled_eq hlen, hfractions, hidle, hordered, hfolded]

/-- **Order and grouping do not matter.**  Two sums, or two products, with the same leaves become the same tree in one
round. -/
theorem round_eq_of_leaves {e₁ e₂ : Expr φ} (h₁ : e₁.Combines op) (h₂ : e₂.Combines op)
    (hleaves : (e₁.leaves op).Perm (e₂.leaves op)) (hlen : 2 ≤ (e₁.leaves op).length) : round {} e₁ = round {} e₂ := by
  have hleaf : ∀ l ∈ sort (e₁.leaves op), l.Leaf := fun l hl => h₁.leaf_of_mem l ((perm_sort _).mem_iff.1 hl)
  have hsort : (sort (e₁.leaves op)).Perm (sort (e₂.leaves op)) :=
    (perm_sort _).trans (hleaves.trans (perm_sort _).symm)
  rw [round_combines h₁ hlen, round_combines h₂ (hleaves.length_eq ▸ hlen), foldChain_eq_of_perm op hleaf hsort]

/-- The product of `x * 2` and `5e-1`, and the one of `5e-1`, of nothing and of `2 * x`. -/
theorem round_eq_of_leaves_half :
    let e₁ : Expr Empty := .binary .mul (.chain .mul [.var "x", .num "2"]) (.num "5e-1")
    let e₂ : Expr Empty := .chain .mul [.num "5e-1", .chain .mul [], .binary .mul (.num "2") (.var "x")]
    e₁.leaves .mul = [.var "x", .num "2", .num "5e-1"] ∧ e₂.leaves .mul = [.num "5e-1", .num "2", .var "x"] ∧
      round {} e₁ = round {} e₂ := by
  intro e₁ e₂
  have hx : (.var "x" : Expr Empty).Combines .mul := .leaf (.var "x")
  have htwo : (.num "2" : Expr Empty).Combines .mul := .leaf (.num (r := .ofInt 2) (by decide) rfl)
  have hhalf : (.num "5e-1" : Expr Empty).Combines .mul := .leaf (.num (r := ⟨1, 2⟩) (by decide +kernel) rfl)
  have hpair : (.binary .mul (.num "2") (.var "x") : Expr Empty).Combines .mul := htwo.binary hx
  have h₁ : e₁.Combines .mul := .binary (.chain (by simp [hx, htwo])) hhalf
  have h₂ : e₂.Combines .mul := .chain (by simp [hhalf, Combines.chain, hpair])
  exact ⟨rfl, rfl, round_eq_of_leaves h₁ h₂ (List.reverse_perm _).symm (by decide)⟩

end Pipeline

end RatCalc
