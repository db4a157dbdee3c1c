import RatCalc.Normal.Pass
import RatCalc.Proofs.Normal.Children
import Mathlib.Algebra.Order.Ring.Nat
import Mathlib.Tactic.Linarith
import Mathlib.Tactic.Ring

/-!
# The weight of a tree

A number that no rule of the normaliser raises, and that a rule keeps only if it leaves the node alone or merely sorts
the operands of a chain.  Divisions and products are weighed multiplicatively, a division one more than four times the
product of its parts, so that moving a division out of a product gains the product of what is moved over.

* `weight`, `total` — of a tree, and of the operands of a chain;
* `bottomUp_eq_or_weight_lt` — what holds of a rule at a node holds of the pass that applies it everywhere.
-/

namespace RatCalc

/-- Weights of operands add up in a sum and multiply in a product. -/
def ChainOp.join : ChainOp → ℕ → ℕ → ℕ
  | add, m, n => m + n
  | mul, m, n => m * n

/-- The weight of no operands. -/
def ChainOp.bare : ChainOp → ℕ
  | add => 0
  | mul => 1

/-- The weight of a chain, from that of its operands. -/
def ChainOp.wrap : ChainOp → ℕ → ℕ
  | add, n => n + 3
  | mul, n => 3 * n

/-- The weight of an operator between two operands. -/
def BinaryOp.weigh : BinaryOp → ℕ → ℕ → ℕ
  | add, m, n => m + n + 4
  | sub, m, n => m + 8 * n + 5
  | mul, m, n => 4 * m * n
  | div, m, n => 4 * m * n + 1
  | _, m, n => m + n + 1

namespace Expr

variable {φ : Type}

mutual
/-- The weight of a tree. -/
def weight : Expr φ → ℕ
  | .num _ | .var _ | .unit | .foreign _ => 2
  | .assign _ _ e | .lambda _ e => weight e + 1
  | .choice bs => weightOfBranches bs + 2
  | .apply f as => weight f + total .add as
  | .supply as f => total .add as + weight f
  | .unary _ _ e => 9 * weight e
  | .binary op a b => op.weigh (weight a) (weight b)
  | .chain op es => op.wrap (total op es)
  | .block es => total .add es + 2
/-- The weight of the operands of a chain. -/
def total (op : ChainOp) : List (Expr φ) → ℕ
  | [] => op.bare
  | e :: es => op.join (weight e) (total op es)
def weightOfBranches : List (Branch (Expr φ)) → ℕ
  | [] => 0
  | .when g a :: bs => weight g + weight a + weightOfBranches bs
  | .otherwise a :: bs => weight a + weightOfBranches bs
end

end Expr

namespace ChainOp

variable (op : ChainOp) {m m' n n' : ℕ}

theorem join_comm (m n : ℕ) : op.join m n = op.join n m := by
  cases op <;> simp [join, Nat.add_comm, Nat.mul_comm]

theorem join_assoc (l m n : ℕ) : op.join (op.join l m) n = op.join l (op.join m n) := by
  cases op <;> simp [join, Nat.add_assoc, Nat.mul_assoc]

@[simp] theorem bare_join (n : ℕ) : op.join op.bare n = n := by cases op <;> simp [join, bare]

@[simp] theorem join_bare (n : ℕ) : op.join n op.bare = n := by cases op <;> simp [join, bare]

theorem bare_le_one : op.bare ≤ 1 := by cases op <;> simp [bare]

theorem join_le_join (hm : m ≤ m') (hn : n ≤ n') : op.join m n ≤ op.join m' n' := by
  cases op with
  | add => exact Nat.add_le_add hm hn
  | mul => exact Nat.mul_le_mul hm hn

theorem join_lt_join_left (hm : m < m') (hn : op.bare ≤ n) : op.join m n < op.join m' n := by
  cases op with
  | add => exact Nat.add_lt_add_right hm n
  | mul => exact Nat.mul_lt_mul_of_pos_right hm hn

theorem join_lt_join_right (hm : op.bare ≤ m) (hn : n < n') : op.join m n < op.join m n' := by
  rw [join_comm, op.join_comm m]
  exact op.join_lt_join_left hn hm

theorem wrap_lt_wrap (h : m < n) : op.wrap m < op.wrap n := by
  cases op <;> simp only [wrap] <;> omega

theorem wrap_le_wrap (h : m ≤ n) : op.wrap m ≤ op.wrap n := by
  cases op <;> simp only [wrap] <;> omega

theorem lt_wrap (h : op.bare ≤ n) : n < op.wrap n := by
  cases op <;> simp only [wrap, bare] at * <;> omega

end ChainOp

/-- Both operands count. -/
theorem BinaryOp.weigh_le_weigh (op : BinaryOp) {m m' n n' : ℕ} (hm : m ≤ m') (hn : n ≤ n') :
    op.weigh m n ≤ op.weigh m' n' := by
  have := Nat.mul_le_mul (Nat.mul_le_mul_left 4 hm) hn
  cases op <;> simp only [weigh] <;> omega

theorem BinaryOp.weigh_lt_weigh_left (op : BinaryOp) {m m' n : ℕ} (hm : m < m') (hn : 0 < n) :
    op.weigh m n < op.weigh m' n := by
  have := Nat.mul_lt_mul_of_pos_right (Nat.mul_lt_mul_of_pos_left hm (by decide : 0 < 4)) hn
  cases op <;> simp only [weigh] <;> omega

theorem BinaryOp.weigh_lt_weigh_right (op : BinaryOp) {m n n' : ℕ} (hm : 0 < m) (hn : n < n') :
    op.weigh m n < op.weigh m n' := by
  have := Nat.mul_lt_mul_of_pos_left hn (show 0 < 4 * m by omega)
  cases op <;> simp only [weigh] <;> omega

namespace Expr

variable {φ : Type}

/-! ## the operands of a chain -/

theorem bare_le_total_of (op : ChainOp) {es : List (Expr φ)} (h : ∀ e ∈ es, 2 ≤ weight e) :
    op.bare ≤ total op es := by
  induction es with
  | nil => simp [total]
  | cons e es ih =>
    have he := h e (by simp)
    have hes := ih (fun e' he' => h e' (List.mem_cons_of_mem _ he'))
    calc op.bare = op.join op.bare op.bare := (op.bare_join _).symm
      _ ≤ op.join (weight e) (total op es) := op.join_le_join (by have := op.bare_le_one; omega) hes
      _ = total op (e :: es) := rfl

theorem two_le_weight (e : Expr φ) : 2 ≤ weight e := by
  induction e using childInduction with
  | step e ih =>
    cases e with
    | chain op es =>
      have : op.bare ≤ total op es := bare_le_total_of op ih
      cases op <;> simp only [weight, ChainOp.wrap, ChainOp.bare] at * <;> omega
    | binary op a b =>
      have ha := ih a (by simp [children])
      have hb := ih b (by simp [children])
      have := Nat.mul_le_mul ha hb
      cases op <;> simp only [weight, BinaryOp.weigh, Nat.mul_assoc] <;> omega
    | apply f as => simp only [weight]; have := ih f (by simp [children]); omega
    | supply as f => simp only [weight]; have := ih f (by simp [children]); omega
    | assign b x e => simp only [weight]; have := ih e (by simp [children]); omega
    | lambda ps e => simp only [weight]; have := ih e (by simp [children]); omega
    | unary o p e => simp only [weight]; have := ih e (by simp [children]); omega
    | _ => simp [weight]

variable (op : ChainOp)

theorem bare_lt_weight (e : Expr φ) : op.bare < weight e := by
  have := op.bare_le_one
  have := two_le_weight e
  omega

theorem bare_le_total (es : List (Expr φ)) : op.bare ≤ total op es := bare_le_total_of op fun e _ => two_le_weight e

theorem total_append (as bs : List (Expr φ)) : total op (as ++ bs) = op.join (total op as) (total op bs) := by
  induction as with
  | nil => simp [total]
  | cons a as ih => simp [total, ih, op.join_assoc]

theorem total_perm {as bs : List (Expr φ)} (h : as.Perm bs) : total op as = total op bs := by
  induction h with
  | nil => rfl
  | cons a _ ih => simp [total, ih]
  | swap a b as =>
    simp only [total]
    rw [← op.join_assoc, op.join_comm (weight b), op.join_assoc]
  | trans _ _ ih1 ih2 => exact ih1.trans ih2

theorem total_lt_total_cons (e : Expr φ) (es : List (Expr φ)) : total op es < total op (e :: es) := by
  calc total op es = op.join op.bare (total op es) := (op.bare_join _).symm
    _ < op.join (weight e) (total op es) := op.join_lt_join_left (bare_lt_weight op e) (bare_le_total op es)

/-- The operands `as` are `bs`, or lighter. -/
def Trimmed (as bs : List (Expr φ)) : Prop := as = bs ∨ total op as < total op bs

variable {op}

theorem Trimmed.trans {as bs cs : List (Expr φ)} (h1 : Trimmed op as bs) (h2 : Trimmed op bs cs) :
    Trimmed op as cs := by
  rcases h1 with rfl | h1
  · exact h2
  · rcases h2 with rfl | h2
    · exact .inr h1
    · exact .inr (h1.trans h2)

theorem Trimmed.total_le {as bs : List (Expr φ)} (h : Trimmed op as bs) : total op as ≤ total op bs := by
  rcases h with rfl | h
  · exact le_rfl
  · exact h.le

/-- Operands that are dropped are missed. -/
theorem Trimmed.of_sublist {as bs : List (Expr φ)} (h : as.Sublist bs) : Trimmed op as bs := by
  induction h with
  | slnil => exact .inl rfl
  | cons b _ ih => exact .inr (ih.total_le.trans_lt (total_lt_total_cons op b _))
  | cons_cons b _ ih =>
    rcases ih with rfl | ih
    · exact .inl rfl
    · exact .inr (op.join_lt_join_right (bare_lt_weight op b).le ih)

variable (op)

theorem total_map_eq {f : Expr φ → Expr φ} {es : List (Expr φ)} (h : ∀ e ∈ es, weight (f e) = weight e) :
    total op (es.map f) = total op es := by
  induction es with
  | nil => rfl
  | cons e es ih => simp_all [total]

theorem total_map_le {f : Expr φ → Expr φ} {es : List (Expr φ)} (h : ∀ e ∈ es, weight (f e) ≤ weight e) :
    total op (es.map f) ≤ total op es := by
  induction es with
  | nil => exact le_rfl
  | cons e es ih =>
    exact op.join_le_join (h e (by simp)) (ih fun e' he' => h e' (List.mem_cons_of_mem _ he'))

theorem total_map_lt {f : Expr φ → Expr φ} {es : List (Expr φ)} (h : ∀ e ∈ es, weight (f e) ≤ weight e)
    {e : Expr φ} (he : e ∈ es) (hlt : weight (f e) < weight e) : total op (es.map f) < total op es := by
  induction es with
  | nil => simp at he
  | cons e' es ih =>
    have h' : ∀ e ∈ es, weight (f e) ≤ weight e := fun e'' he'' => h e'' (List.mem_cons_of_mem _ he'')
    rcases List.mem_cons.1 he with rfl | he
    · calc op.join (weight (f e)) (total op (es.map f)) < op.join (weight e) (total op (es.map f)) :=
            op.join_lt_join_left hlt (bare_le_total op _)
        _ ≤ op.join (weight e) (total op es) := op.join_le_join le_rfl (total_map_le op h')
    · calc op.join (weight (f e')) (total op (es.map f)) < op.join (weight (f e')) (total op es) :=
            op.join_lt_join_right (bare_lt_weight op _).le (ih h' he)
        _ ≤ op.join (weight e') (total op es) := op.join_le_join (h e' (by simp)) le_rfl

/-! ## the children of a node -/

theorem weightOfBranches_eq (bs : List (Branch (Expr φ))) :
    weightOfBranches bs = total .add (bs.flatMap Branch.trees) := by
  induction bs with
  | nil => rfl
  | cons b bs ih =>
    rw [List.flatMap_cons, total_append]
    cases b <;> simp [weightOfBranches, Branch.trees, total, ih, ChainOp.join, ChainOp.bare]

theorem weightOfBranches_map (f : Expr φ → Expr φ) (bs : List (Branch (Expr φ))) :
    weightOfBranches (bs.map (Branch.map f)) = total .add ((bs.flatMap Branch.trees).map f) := by
  have h : (choice (bs.map (Branch.map f))).children = (choice bs).children.map f := children_mapChildren f (.choice bs)
  rw [weightOfBranches_eq]
  exact congrArg (total .add) h

variable {f : Expr φ → Expr φ} {e : Expr φ}

theorem weight_mapChildren_eq (h : ∀ c ∈ e.children, weight (f c) = weight c) :
    weight (e.mapChildren f) = weight e := by
  cases e with
  | choice bs =>
    simp only [mapChildren, weight, weightOfBranches_map, weightOfBranches_eq bs]
    exact congrArg (· + 2) (total_map_eq .add h)
  | chain op es => exact congrArg op.wrap (total_map_eq op h)
  | block es => exact congrArg (· + 2) (total_map_eq .add h)
  | apply g as =>
    simp only [children, List.forall_mem_cons] at h
    simp only [mapChildren, weight, total_map_eq .add h.2, h.1]
  | supply as g =>
    simp only [children, List.forall_mem_append, List.forall_mem_singleton] at h
    simp only [mapChildren, weight, total_map_eq .add h.1, h.2]
  | _ => simp_all [mapChildren, weight, children]

/-- A lighter child makes the node lighter. -/
theorem weight_mapChildren_lt (h : ∀ c ∈ e.children, weight (f c) ≤ weight c) {c : Expr φ} (hc : c ∈ e.children)
    (hlt : weight (f c) < weight c) : weight (e.mapChildren f) < weight e := by
  cases e with
  | num | var | unit | foreign => simp [children] at hc
  | choice bs =>
    simp only [mapChildren, weight, weightOfBranches_map, weightOfBranches_eq bs]
    exact Nat.add_lt_add_right (total_map_lt .add h hc hlt) 2
  | chain op es => exact op.wrap_lt_wrap (total_map_lt op h hc hlt)
  | block es => exact Nat.add_lt_add_right (total_map_lt .add h hc hlt) 2
  | apply g as =>
    simp only [children, List.forall_mem_cons] at h
    rcases List.mem_cons.1 hc with rfl | hc
    · exact Nat.add_lt_add_of_lt_of_le hlt (total_map_le .add h.2)
    · exact Nat.add_lt_add_of_le_of_lt h.1 (total_map_lt .add h.2 hc hlt)
  | supply as g =>
    simp only [children, List.forall_mem_append, List.forall_mem_singleton] at h
    rcases List.mem_append.1 hc with hc | hc
    · exact Nat.add_lt_add_of_lt_of_le (total_map_lt .add h.1 hc hlt) h.2
    · rw [List.mem_singleton.1 hc] at hlt
      exact Nat.add_lt_add_of_le_of_lt (total_map_le .add h.1) hlt
  | assign b x e' | lambda ps e' | unary o p e' =>
    rw [List.mem_singleton.1 hc] at hlt
    simp only [mapChildren, weight]
    omega
  | binary o a b =>
    simp only [children, List.forall_mem_cons] at h
    simp only [children, List.mem_cons, List.not_mem_nil, or_false] at hc
    have ha : 0 < weight (f a) := by have := two_le_weight (f a); omega
    have hb : 0 < weight b := by have := two_le_weight b; omega
    rcases hc with rfl | rfl
    · exact (o.weigh_le_weigh le_rfl h.2.1).trans_lt (o.weigh_lt_weigh_left hlt hb)
    · exact (o.weigh_lt_weigh_right ha hlt).trans_le (o.weigh_le_weigh h.1 le_rfl)

/-! ## passes -/

section Pass

variable {rule calm : Expr φ → Expr φ} (hcalm : ∀ e, weight (calm e) = weight e)
  (hrule : ∀ e, rule e = calm e ∨ weight (rule e) < weight e)
include hcalm

theorem weight_bottomUp_eq (e : Expr φ) : weight (bottomUp calm e) = weight e := by
  induction e using childInduction with
  | step e ih => rw [bottomUp_eq, hcalm, weight_mapChildren_eq ih]

include hrule

theorem weight_rule_le (e : Expr φ) : weight (rule e) ≤ weight e := by
  rcases hrule e with h | h
  · rw [h, hcalm]
  · exact h.le

/-- **Passes.**  If a rule does at every node what a weight-keeping one does, or else loses weight, then so does the
pass. -/
theorem bottomUp_eq_or_weight_lt (e : Expr φ) :
    bottomUp rule e = bottomUp calm e ∨ weight (bottomUp rule e) < weight e := by
  induction e using childInduction with
  | step e ih =>
    have hle : ∀ c ∈ e.children, weight (bottomUp rule c) ≤ weight c := by
      intro c hc
      rcases ih c hc with h | h
      · rw [h, weight_bottomUp_eq hcalm]
      · exact h.le
    rw [bottomUp_eq, bottomUp_eq calm]
    by_cases hlt : ∃ c ∈ e.children, weight (bottomUp rule c) < weight c
    · obtain ⟨c, hc, hlt⟩ := hlt
      exact .inr ((weight_rule_le hcalm hrule _).trans_lt (weight_mapChildren_lt hle hc hlt))
    · push Not at hlt
      have e1 : e.mapChildren (bottomUp rule) = e.mapChildren (bottomUp calm) :=
        mapChildren_congr fun c hc => (ih c hc).resolve_right (hlt c hc).not_gt
      rw [e1]
      have e2 : weight (e.mapChildren (bottomUp calm)) = weight e :=
        weight_mapChildren_eq fun c _ => weight_bottomUp_eq hcalm c
      exact (hrule _).imp_right fun h => h.trans_eq e2

theorem weight_bottomUp_le (e : Expr φ) : weight (bottomUp rule e) ≤ weight e := by
  rcases bottomUp_eq_or_weight_lt hcalm hrule e with h | h
  · rw [h, weight_bottomUp_eq hcalm]
  · exact h.le

/-- A pass that loses no weight is idle at every node where the weight-keeping rule is. -/
theorem rule_eq_self_of_weight_eq {e : Expr φ} (hw : weight (bottomUp rule e) = weight e)
    (hidle : ∀ s : Expr φ, s.Within e → calm s = s) : ∀ s : Expr φ, s.Within e → rule s = s := by
  induction e using childInduction with
  | step e ih =>
    have hle : ∀ c ∈ e.children, weight (bottomUp rule c) ≤ weight c := fun c _ => weight_bottomUp_le hcalm hrule c
    have hc : ∀ c ∈ e.children, weight (bottomUp rule c) = weight c := by
      intro c hc
      by_contra hne
      have hlt := weight_mapChildren_lt hle hc (lt_of_le_of_ne (hle c hc) hne)
      have := weight_rule_le hcalm hrule (e.mapChildren (bottomUp rule))
      rw [bottomUp_eq] at hw
      omega
    have hsame : e.mapChildren (bottomUp rule) = e := by
      refine mapChildren_eq_self ?_
      intro c hce
      rw [(bottomUp_eq_or_weight_lt hcalm hrule c).resolve_right (hc c hce).not_lt]
      exact bottomUp_eq_self fun s hs => hidle s (.child hce hs)
    rw [bottomUp_eq, hsame] at hw
    intro s hs
    cases hs with
    | refl => rw [(hrule e).resolve_right hw.not_lt, hidle e .refl]
    | child hce hs => exact ih _ hce (hc _ hce) (fun t ht => hidle t (.child hce ht)) s hs

end Pass

end Expr

end RatCalc
