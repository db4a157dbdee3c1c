import RatCalc.Expr.Basic

/-!
# The text of an expression

Operators stand between their operands.  An operand that is not a literal, a variable, a call, the unit or a foreign
value is put in parentheses, so that there is no precedence: `(-1 * x) + 2`, `f(x, 3)`, `(x) -> (x ^ 2)`.
-/

namespace RatCalc

/-- The name of the kind of a foreign value. -/
class ForeignKind (φ : Type) where
  kind : φ → String

namespace Expr

variable {φ : Type}

/-- Trees that stand as operands without parentheses. -/
def isAtomic : Expr φ → Bool
  | .num _ | .var _ | .apply .. | .unit | .foreign _ => true
  | _ => false

def parenthesized (text : String) : String := "(" ++ text ++ ")"

/-- The text of a tree as an operand. -/
def asOperand (e : Expr φ) (text : String) : String := if e.isAtomic then text else parenthesized text

/-- A text in braces. -/
def braced (text : String) : String := "\x7b " ++ text ++ " \x7d"

variable [ForeignKind φ]

mutual
/-- The text of a tree. -/
def render : Expr φ → String
  | .num text => text
  | .var name => name
  | .assign b x e => x ++ " " ++ b.symbol ++ " " ++ render e
  | .lambda ps e => parenthesized (String.intercalate ", " ps) ++ " -> " ++ asOperand e (render e)
  | .choice bs => braced (String.intercalate ", " (renderBranches bs))
  | .apply f as => asOperand f (render f) ++ parenthesized (String.intercalate ", " (renderList as))
  | .supply as f => String.join ((renderOperands as).map (· ++ ":")) ++ asOperand f (render f)
  | .unary o .before e => o.symbol ++ asOperand e (render e)
  | .unary o .after e => asOperand e (render e) ++ o.symbol
  | .binary o a b => asOperand a (render a) ++ " " ++ o.symbol ++ " " ++ asOperand b (render b)
  | .chain o es => String.intercalate (" " ++ o.toBinary.symbol ++ " ") (renderOperands es)
  | .block es => braced (String.intercalate "; " (renderList es))
  | .unit => "()"
  | .foreign x => "<" ++ ForeignKind.kind x ++ ">"
def renderList : List (Expr φ) → List String
  | [] => []
  | e :: es => render e :: renderList es
def renderOperands : List (Expr φ) → List String
  | [] => []
  | e :: es => asOperand e (render e) :: renderOperands es
def renderBranches : List (Branch (Expr φ)) → List String
  | [] => []
  | .when g a :: bs => (render g ++ " : " ++ render a) :: renderBranches bs
  | .otherwise a :: bs => ("else : " ++ render a) :: renderBranches bs
end

end Expr

end RatCalc
