import RatCalc.Expr.Operator
import RatCalc.Number.Decimal
import RatCalc.Number.Literal

/-!
# Expressions

A tree over literals, variables, operators and functions.  Literals are kept as text and may be malformed.  The type `φ`
holds the values that a host puts into a tree and that the calculator does not look into.

* `chain op es` — a sum or product of any number of operands, made by the normaliser;
* `supply bound f` — `f` with its first arguments given;
* `choice bs` — the action of the first branch whose guard holds.
-/

namespace RatCalc

/-- The way an assignment is written; both ways bind the name in the innermost scope. -/
inductive Binding where
  | fresh | again
deriving DecidableEq

def Binding.symbol : Binding → String
  | .fresh => "="
  | .again => ":="

/-- A branch of a choice: an action under a guard, or one that is always taken. -/
inductive Branch (α : Type) where
  | when (guard action : α) | otherwise (action : α)
deriving DecidableEq

inductive Expr (φ : Type) where
  | num (text : String)
  | var (name : String)
  | assign (binding : Binding) (name : String) (value : Expr φ)
  | lambda (params : List String) (body : Expr φ)
  | choice (branches : List (Branch (Expr φ)))
  | apply (callee : Expr φ) (args : List (Expr φ))
  | supply (bound : List (Expr φ)) (callee : Expr φ)
  | unary (op : UnaryOp) (place : Place) (operand : Expr φ)
  | binary (op : BinaryOp) (lhs rhs : Expr φ)
  | chain (op : ChainOp) (operands : List (Expr φ))
  | block (steps : List (Expr φ))
  | unit
  | foreign (value : φ)

namespace Expr

variable {φ : Type}

instance : Inhabited (Expr φ) := ⟨.unit⟩

def mul (a b : Expr φ) : Expr φ := .binary .mul a b
def div (a b : Expr φ) : Expr φ := .binary .div a b

/-- A product of any number of factors; a single one stands for itself. -/
def productOf : List (Expr φ) → Expr φ
  | [e] => e
  | es => .chain .mul es

/-- The literal of an integer. -/
def int (n : Int) : Expr φ := .num (Numeral.text n)

/-! ## equality -/

section Equality

variable [DecidableEq φ]

mutual
/-- Equality of trees, as a test. -/
def beq : Expr φ → Expr φ → Bool
  | .num s, .num t => s == t
  | .var s, .var t => s == t
  | .assign b x e, .assign b' x' e' => b == b' && x == x' && beq e e'
  | .lambda ps e, .lambda ps' e' => ps == ps' && beq e e'
  | .choice bs, .choice bs' => beqBranches bs bs'
  | .apply f as, .apply f' as' => beq f f' && beqList as as'
  | .supply as f, .supply as' f' => beqList as as' && beq f f'
  | .unary o p e, .unary o' p' e' => o == o' && p == p' && beq e e'
  | .binary o a b, .binary o' a' b' => o == o' && beq a a' && beq b b'
  | .chain o es, .chain o' es' => o == o' && beqList es es'
  | .block es, .block es' => beqList es es'
  | .unit, .unit => true
  | .foreign x, .foreign y => decide (x = y)
  | _, _ => false
def beqList : List (Expr φ) → List (Expr φ) → Bool
  | [], [] => true
  | e :: es, e' :: es' => beq e e' && beqList es es'
  | _, _ => false
def beqBranches : List (Branch (Expr φ)) → List (Branch (Expr φ)) → Bool
  | [], [] => true
  | .when g a :: bs, .when g' a' :: bs' => beq g g' && beq a a' && beqBranches bs bs'
  | .otherwise a :: bs, .otherwise a' :: bs' => beq a a' && beqBranches bs bs'
  | _, _ => false
end

mutual
theorem beq_iff : ∀ a b : Expr φ, beq a b = true ↔ a = b
  | .num _, b => by cases b <;> simp [beq]
  | .var _, b => by cases b <;> simp [beq]
  | .assign _ _ e, b => by cases b <;> simp [beq, beq_iff e, and_assoc]
  | .lambda _ e, b => by cases b <;> simp [beq, beq_iff e]
  | .choice bs, b => by cases b <;> simp [beq, beqBranches_iff bs]
  | .apply f as, b => by cases b <;> simp [beq, beq_iff f, beqList_iff as]
  | .supply as f, b => by cases b <;> simp [beq, beq_iff f, beqList_iff as]
  | .unary _ _ e, b => by cases b <;> simp [beq, beq_iff e, and_assoc]
  | .binary _ x y, b => by cases b <;> simp [beq, beq_iff x, beq_iff y, and_assoc]
  | .chain _ es, b => by cases b <;> simp [beq, beqList_iff es]
  | .block es, b => by cases b <;> simp [beq, beqList_iff es]
  | .unit, b => by cases b <;> simp [beq]
  | .foreign _, b => by cases b <;> simp [beq]
theorem beqList_iff : ∀ as bs : List (Expr φ), beqList as bs = true ↔ as = bs
  | [], bs => by cases bs <;> simp [beqList]
  | a :: as, bs => by cases bs <;> simp [beqList, beq_iff a, beqList_iff as]
theorem beqBranches_iff : ∀ as bs : List (Branch (Expr φ)), beqBranches as bs = true ↔ as = bs
  | [], bs => by cases bs <;> simp [beqBranches]
  | .when g a :: as, bs => by
    cases bs with
    | nil => simp [beqBranches]
    | cons b bs => cases b <;> simp [beqBranches, beq_iff g, beq_iff a, beqBranches_iff as]
  | .otherwise a :: as, bs => by
    cases bs with
    | nil => simp [beqBranches]
    | cons b bs => cases b <;> simp [beqBranches, beq_iff a, beqBranches_iff as]
end

instance : DecidableEq (Expr φ) := fun a b => decidable_of_iff (beq a b = true) (beq_iff a b)

end Equality

/-! ## literals -/

/-- The number of a literal that is well formed. -/
def literal? : Expr φ → Option ExtRat
  | .num text => Literal.value? text
  | _ => none

/-- Whether the tree is a literal of the integer `n`. -/
def isLiteral (e : Expr φ) (n : Int) : Bool := e.literal? == some (.ofInt n)

/-- The literal of a number whose expansion ends. -/
def ofNumber? (r : ExtRat) : Option (Expr φ) := r.toExactDecimal?.map .num

mutual
/-- The texts of all literals of a tree, from left to right as they are written; guards stand before their actions. -/
def literals : Expr φ → List String
  | .num text => [text]
  | .var _ | .unit | .foreign _ => []
  | .assign _ _ e | .lambda _ e | .unary _ _ e => literals e
  | .choice bs => literalsOfBranches bs
  | .apply f as => literals f ++ literalsOfList as
  | .supply as f => literalsOfList as ++ literals f
  | .binary _ a b => literals a ++ literals b
  | .chain _ es | .block es => literalsOfList es
def literalsOfList : List (Expr φ) → List String
  | [] => []
  | e :: es => literals e ++ literalsOfList es
def literalsOfBranches : List (Branch (Expr φ)) → List String
  | [] => []
  | .when g a :: bs => literals g ++ literals a ++ literalsOfBranches bs
  | .otherwise a :: bs => literals a ++ literalsOfBranches bs
end

/-- The literals up to and with the first that `stop` accepts, and whether there is one. -/
def literalsUntil (stop : String → Bool) (e : Expr φ) : List String × Bool :=
  let passed := e.literals.takeWhile (!stop ·)
  match e.literals.drop passed.length with
  | [] => (passed, false)
  | text :: _ => (passed ++ [text], true)

/-- The first malformed literal, with its fault. -/
def firstFault? (e : Expr φ) : Option (String × Literal.Fault) :=
  e.literals.findSome? fun text =>
    match Literal.read text with
    | .ok _ => none
    | .error fault => some (text, fault)

end Expr

end RatCalc
