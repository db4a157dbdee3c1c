import RatCalc.Expr.Basic

/-!
# Rules applied from the leaves up

Every pass of the normaliser applies one local rule at each node, after the same has been done to the node's children.
-/

namespace RatCalc.Expr

variable {φ : Type}

mutual
/-- The tree with `rule` applied at every node, children first. -/
def bottomUp (rule : Expr φ → Expr φ) : Expr φ → Expr φ
  | .num text => rule (.num text)
  | .var name => rule (.var name)
  | .assign b x e => rule (.assign b x (bottomUp rule e))
  | .lambda ps e => rule (.lambda ps (bottomUp rule e))
  | .choice bs => rule (.choice (bottomUpBranches rule bs))
  | .apply f as => rule (.apply (bottomUp rule f) (bottomUpList rule as))
  | .supply as f => rule (.supply (bottomUpList rule as) (bottomUp rule f))
  | .unary o p e => rule (.unary o p (bottomUp rule e))
  | .binary o a b => rule (.binary o (bottomUp rule a) (bottomUp rule b))
  | .chain o es => rule (.chain o (bottomUpList rule es))
  | .block es => rule (.block (bottomUpList rule es))
  | .unit => rule .unit
  | .foreign x => rule (.foreign x)
def bottomUpList (rule : Expr φ → Expr φ) : List (Expr φ) → List (Expr φ)
  | [] => []
  | e :: es => bottomUp rule e :: bottomUpList rule es
def bottomUpBranches (rule : Expr φ → Expr φ) : List (Branch (Expr φ)) → List (Branch (Expr φ))
  | [] => []
  | .when g a :: bs => .when (bottomUp rule g) (bottomUp rule a) :: bottomUpBranches rule bs
  | .otherwise a :: bs => .otherwise (bottomUp rule a) :: bottomUpBranches rule bs
end

theorem bottomUpList_eq_map (rule : Expr φ → Expr φ) (es : List (Expr φ)) :
    bottomUpList rule es = es.map (bottomUp rule) := by
  induction es with
  | nil => rfl
  | cons e es ih => simp [bottomUpList, ih]

end RatCalc.Expr
