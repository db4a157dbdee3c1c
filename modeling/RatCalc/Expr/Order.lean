import RatCalc.Expr.Basic

/-!
# The canonical order of operands

Literals come first, ordered by value, the malformed ones after all others by their text; then the variables by name;
then everything else, in which all trees are equal.  A stable sort leaves those in their places.
-/

namespace RatCalc.Expr

variable {φ : Type}

/-- Literals, then variables, then the rest. -/
def rank : Expr φ → Nat
  | .num _ => 0
  | .var _ => 1
  | _ => 2

/-- Literal texts: by value, then the malformed ones by code points. -/
def cmpLiterals (s t : String) : Ordering :=
  match Literal.value? s, Literal.value? t with
  | some x, some y => x.totalCmp y
  | some _, none => .lt
  | none, some _ => .gt
  | none, none => compare s t

/-- The canonical order. -/
def cmp (a b : Expr φ) : Ordering :=
  match a, b with
  | .num s, .num t => cmpLiterals s t
  | .var x, .var y => compare x y
  | _, _ => compare a.rank b.rank

/-- The stable sort under the canonical order. -/
def sort (es : List (Expr φ)) : List (Expr φ) := es.mergeSort fun a b => cmp a b != .gt

end RatCalc.Expr
