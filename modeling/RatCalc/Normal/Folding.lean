import RatCalc.Expr.Order
import RatCalc.Normal.Leveling

/-!
# Folding of constants

In a chain, two or more literals become one if the result is a fraction whose expansion ends; the identity of the
operator is dropped, a factor zero makes a product zero, and `x` cancels against `-1 * x` in a sum.  Between two operands:

| operator | the first rule that fits                                     |
|----------|--------------------------------------------------------------|
| `mod`    | `a mod 1 → 0`                                                |
| `^`      | `a ^ 0 → 1`, `1 ^ a → 1`, `0 ^ a → 0`, `a ^ 1 → a`           |
| `-`      | `a - a → 0`, `a - 0 → a`, `0 - a → -1 * a`                   |
| `/`      | two literals fold, `a / a → 1`, `a / 1 → a`, `a / 0 → ∞`     |

Two literals divide only into a number with a literal: `1 / 3` stays, `-3 / 0` is `-Infinity`.
-/

namespace RatCalc

namespace Expr

variable {φ : Type}

/-! ## chains -/

/-- The literal that two or more literal operands fold into. -/
def foldedLiteral? (op : ChainOp) (es : List (Expr φ)) : Option (Expr φ) :=
  match es.filterMap literal? with
  | x :: y :: rest =>
    let total := (y :: rest).foldl op.toBinary.onNumbers x
    if total.isFinite then ofNumber? total else none
  | _ => none

/-- The operands with their literals folded into one, which is put first. -/
def foldLiterals (op : ChainOp) (es : List (Expr φ)) : List (Expr φ) :=
  match foldedLiteral? op es with
  | some literal => literal :: es.filter (·.literal?.isNone)
  | none => es

/-- `x`, if the tree is the chain `-1 * x`. -/
def negationTarget? : Expr φ → Option (Expr φ)
  | .chain .mul (minusOne :: e :: es) => if minusOne.isLiteral (-1) then some (productOf (e :: es)) else none
  | _ => none

section Cancel

variable [DecidableEq φ]

/-- The operands `before ++ es` without the first of `es` that is the negation of another operand, and without the
first such other. -/
def cancelFirst? (before : List (Expr φ)) : List (Expr φ) → Option (List (Expr φ))
  | [] => none
  | e :: es =>
    match e.negationTarget? with
    | some target =>
      if target ∈ before ++ es then some ((before ++ es).erase target) else cancelFirst? (before ++ [e]) es
    | none => cancelFirst? (before ++ [e]) es

theorem length_cancelFirst? {before es rest : List (Expr φ)} (h : cancelFirst? before es = some rest) :
    rest.length + 2 = before.length + es.length := by
  induction es generalizing before with
  | nil => simp [cancelFirst?] at h
  | cons e es ih =>
    simp only [cancelFirst?] at h
    split at h
    · split at h
      · rename_i mem
        have := List.length_erase_of_mem mem
        have pos := List.length_pos_of_mem mem
        simp only [Option.some.injEq] at h
        subst h
        simp only [List.length_append, List.length_cons] at *
        omega
      · have := ih h
        simp only [List.length_append, List.length_cons, List.length_nil] at *
        omega
    · have := ih h
      simp only [List.length_append, List.length_cons, List.length_nil] at *
      omega

/-- The operands of a sum, with terms and their negations taken out pair by pair until none is left. -/
def cancelNegations (es : List (Expr φ)) : List (Expr φ) :=
  match h : cancelFirst? [] es with
  | some rest =>
    have : rest.length < es.length := by have := length_cancelFirst? h; simp at this; omega
    cancelNegations rest
  | none => es
termination_by es.length

/-- A chain without needless parts: with no operands it is the identity, with one it is that operand. -/
def chainOf (op : ChainOp) : List (Expr φ) → Expr φ
  | [] => .num op.identity
  | [e] => e
  | es => .chain op (sort es)

/-- A chain, folded. -/
def foldChain (op : ChainOp) (es : List (Expr φ)) : Expr φ :=
  let es := foldLiterals op (es.flatMap (splice op))
  match op with
  | .add => chainOf .add (cancelNegations (es.filter (!·.isLiteral 0)))
  | .mul => if es.any (·.isLiteral 0) then .num "0" else chainOf .mul (es.filter (!·.isLiteral 1))

/-! ## two operands -/

/-- A division, folded. -/
def foldDivision (a b : Expr φ) : Expr φ :=
  match a.literal?, b.literal? with
  | some x, some y =>
    let quotient := x.div y
    if quotient.isFinite || y.isZero then (ofNumber? quotient).getD (div a b) else div a b
  | _, _ =>
    if a = b then .num "1"
    else if b.isLiteral 1 then a
    else if b.isLiteral 0 then .num "Infinity"
    else div a b

/-- A power, folded. -/
def foldPower (a b : Expr φ) : Expr φ :=
  if b.isLiteral 0 || a.isLiteral 1 then .num "1"
  else if a.isLiteral 0 then .num "0"
  else if b.isLiteral 1 then a
  else .binary .pow a b

/-- A difference, folded. -/
def foldDifference (a b : Expr φ) : Expr φ :=
  if a = b then .num "0"
  else if b.isLiteral 0 then a
  else if a.isLiteral 0 then .chain .mul [.num "-1", b]
  else .binary .sub a b

/-- The rule of the pass. -/
def foldRule : Expr φ → Expr φ
  | .chain op es => foldChain op es
  | .binary .mod a b => if b.isLiteral 1 then .num "0" else .binary .mod a b
  | .binary .pow a b => foldPower a b
  | .binary .sub a b => foldDifference a b
  | .binary .div a b => foldDivision a b
  | e => e

/-- Constants and identities folded away. -/
def folded (e : Expr φ) : Expr φ := bottomUp foldRule e

end Cancel

end Expr

end RatCalc
