import RatCalc.Normal.Traversal

/-!
# The children of a node

Facts about passes are proved for trees of all kinds at once, through the list of a node's children.

* `children`, `mapChildren` — the direct subtrees, and the node with a function applied to each of them;
* `Within s e` — `s` is `e` or occurs in it;
* `childInduction` — a property that a node inherits from its children holds of all trees;
* `bottomUp_eq` — applying a rule from the leaves up, in terms of `mapChildren`.
-/

namespace RatCalc

/-- The trees of a branch, the guard first. -/
def Branch.trees {α : Type} : Branch α → List α
  | .when g a => [g, a]
  | .otherwise a => [a]

def Branch.map {α β : Type} (f : α → β) : Branch α → Branch β
  | .when g a => .when (f g) (f a)
  | .otherwise a => .otherwise (f a)

namespace Expr

variable {φ : Type}

/-- The direct subtrees. -/
def children : Expr φ → List (Expr φ)
  | .num _ | .var _ | .unit | .foreign _ => []
  | .assign _ _ e | .lambda _ e | .unary _ _ e => [e]
  | .choice bs => bs.flatMap Branch.trees
  | .apply f as => f :: as
  | .supply as f => as ++ [f]
  | .binary _ a b => [a, b]
  | .chain _ es | .block es => es

/-- The node with `f` applied to its children. -/
def mapChildren (f : Expr φ → Expr φ) : Expr φ → Expr φ
  | .num text => .num text
  | .var name => .var name
  | .assign b x e => .assign b x (f e)
  | .lambda ps e => .lambda ps (f e)
  | .choice bs => .choice (bs.map (Branch.map f))
  | .apply g as => .apply (f g) (as.map f)
  | .supply as g => .supply (as.map f) (f g)
  | .unary o p e => .unary o p (f e)
  | .binary o a b => .binary o (f a) (f b)
  | .chain o es => .chain o (es.map f)
  | .block es => .block (es.map f)
  | .unit => .unit
  | .foreign x => .foreign x

/-- `s` is the tree or a part of it. -/
inductive Within (s : Expr φ) : Expr φ → Prop where
  | refl : Within s s
  | child {c e : Expr φ} : c ∈ e.children → Within s c → Within s e

/-- What holds of all parts of a tree. -/
theorem forall_within_iff {P : Expr φ → Prop} {e : Expr φ} :
    (∀ s : Expr φ, s.Within e → P s) ↔ P e ∧ ∀ c ∈ e.children, ∀ s : Expr φ, s.Within c → P s := by
  constructor
  · intro h
    exact ⟨h e .refl, fun c hc s hs => h s (.child hc hs)⟩
  · rintro ⟨he, hc⟩ s hs
    cases hs with
    | refl => exact he
    | child hce hs => exact hc _ hce s hs

/-! ## induction -/

variable {P : Expr φ → Prop}

mutual
/-- What a node inherits from its children holds of every tree. -/
theorem childInduction (step : ∀ e : Expr φ, (∀ c ∈ e.children, P c) → P e) : ∀ e, P e
  | .num _ => step _ (by simp [children])
  | .var _ => step _ (by simp [children])
  | .assign _ _ e => step _ (by simpa [children] using childInduction step e)
  | .lambda _ e => step _ (by simpa [children] using childInduction step e)
  | .choice bs => step _ (childInductionBranches step bs)
  | .apply f as => step _ (by simpa [children] using ⟨childInduction step f, childInductionList step as⟩)
  | .supply as f => step _ (by
      intro c hc
      rcases List.mem_append.1 hc with hc | hc
      · exact childInductionList step as c hc
      · rw [List.mem_singleton.1 hc]
        exact childInduction step f)
  | .unary _ _ e => step _ (by simpa [children] using childInduction step e)
  | .binary _ a b => step _ (by simpa [children] using ⟨childInduction step a, childInduction step b⟩)
  | .chain _ es => step _ (childInductionList step es)
  | .block es => step _ (childInductionList step es)
  | .unit => step _ (by simp [children])
  | .foreign _ => step _ (by simp [children])
theorem childInductionList (step : ∀ e : Expr φ, (∀ c ∈ e.children, P c) → P e) :
    ∀ es : List (Expr φ), ∀ c ∈ es, P c
  | [] => by simp
  | e :: es => by simpa using ⟨childInduction step e, childInductionList step es⟩
theorem childInductionBranches (step : ∀ e : Expr φ, (∀ c ∈ e.children, P c) → P e) :
    ∀ bs : List (Branch (Expr φ)), ∀ c ∈ bs.flatMap Branch.trees, P c
  | [] => by simp
  | .when g a :: bs => by
    have hb : ∀ c ∈ Branch.trees (.when g a), P c := by
      simpa only [Branch.trees, List.forall_mem_cons] using ⟨childInduction step g, childInduction step a, by simp⟩
    simpa only [List.flatMap_cons, List.forall_mem_append] using ⟨hb, childInductionBranches step bs⟩
  | .otherwise a :: bs => by
    have hb : ∀ c ∈ Branch.trees (.otherwise a), P c := by
      simpa only [Branch.trees, List.forall_mem_cons] using ⟨childInduction step a, by simp⟩
    simpa only [List.flatMap_cons, List.forall_mem_append] using ⟨hb, childInductionBranches step bs⟩
end

/-! ## children of a mapped node -/

theorem children_mapChildren (f : Expr φ → Expr φ) (e : Expr φ) : (e.mapChildren f).children = e.children.map f := by
  cases e with
  | choice bs =>
    simp only [mapChildren, children, List.flatMap_map, List.map_flatMap]
    congr 1
    funext b
    cases b <;> rfl
  | _ => simp [mapChildren, children]

theorem mapChildren_congr {f g : Expr φ → Expr φ} {e : Expr φ} (h : ∀ c ∈ e.children, f c = g c) :
    e.mapChildren f = e.mapChildren g := by
  cases e with
  | choice bs =>
    simp only [mapChildren, choice.injEq]
    apply List.map_congr_left
    intro b hb
    have hb' : ∀ c ∈ b.trees, f c = g c := fun c hc => h c (List.mem_flatMap.2 ⟨b, hb, hc⟩)
    cases b <;> simp_all [Branch.map, Branch.trees]
  | _ => simp_all [mapChildren, children]

theorem mapChildren_id (e : Expr φ) : e.mapChildren id = e := by
  have h : Branch.map (id : Expr φ → Expr φ) = id := funext fun b => by cases b <;> rfl
  cases e <;> simp [mapChildren, h]

theorem mapChildren_eq_self {f : Expr φ → Expr φ} {e : Expr φ} (h : ∀ c ∈ e.children, f c = c) :
    e.mapChildren f = e := (mapChildren_congr h).trans (mapChildren_id e)

/-! ## rules from the leaves up -/

theorem bottomUpBranches_eq_map (rule : Expr φ → Expr φ) (bs : List (Branch (Expr φ))) :
    bottomUpBranches rule bs = bs.map (Branch.map (bottomUp rule)) := by
  induction bs with
  | nil => rfl
  | cons b bs ih => cases b <;> simp [bottomUpBranches, Branch.map, ih]

/-- The rule at the node, after the children. -/
theorem bottomUp_eq (rule : Expr φ → Expr φ) (e : Expr φ) :
    bottomUp rule e = rule (e.mapChildren (bottomUp rule)) := by
  cases e <;> simp [bottomUp, mapChildren, bottomUpList_eq_map, bottomUpBranches_eq_map]

/-- A rule that is idle at every node leaves the tree alone. -/
theorem bottomUp_eq_self {rule : Expr φ → Expr φ} {e : Expr φ} (h : ∀ s : Expr φ, s.Within e → rule s = s) :
    bottomUp rule e = e := by
  induction e using childInduction with
  | step e ih =>
    have hc : ∀ c ∈ e.children, bottomUp rule c = c := fun c hc => ih c hc fun s hs => h s (.child hc hs)
    rw [bottomUp_eq, mapChildren_eq_self hc, h e .refl]

end Expr

end RatCalc
