import RatCalc.Expr.Operator
import RatCalc.Number.Literal

/-!
# Errors of evaluation

Each constructor is a cause; `message` is its wording and `category` the coarse group it belongs to.  Trouble with numbers
is no error: a division by zero has a value.
-/

namespace RatCalc

/-- Groups of errors that a host tells apart. -/
inductive ErrorCategory where
  | dispatch | undefinedHandle | malformedLiteral | stackExhaustion
deriving DecidableEq

/-- Why an evaluation ends without a value. -/
inductive EvalError where
  /-- A value of this kind was called. -/
  | notCallable (kind : String) (count : Nat)
  | wrongArgumentCount (function : String) (expected got : Nat)
  /-- Values of these kinds were compared. -/
  | notOrdered (op : BinaryOp) (left right : String)
  | invalidArgument (function reason : String)
  | undefinedVariable (name : String)
  /-- No branch of a choice was taken. -/
  | noBranch (branches : Nat)
  | malformedLiteral (text : String) (fault : Literal.Fault)
  /-- A call would have been nested deeper than allowed. -/
  | tooDeep (depth limit : Nat)
deriving DecidableEq

namespace EvalError

def category : EvalError → ErrorCategory
  | notCallable .. | wrongArgumentCount .. | notOrdered .. | invalidArgument .. => .dispatch
  | undefinedVariable _ | noBranch _ => .undefinedHandle
  | malformedLiteral .. => .malformedLiteral
  | tooDeep .. => .stackExhaustion

/-- A count with its noun, in the plural unless it is one. -/
def counted (n : Nat) (noun : String) : String := Numeral.text n ++ " " ++ noun ++ (if n = 1 then "" else "s")

/-- The wording of an error. -/
def message : EvalError → String
  | notCallable kind n => "Cannot call " ++ kind ++ " with " ++ counted n "argument"
  | wrongArgumentCount f expected got =>
    "Function '" ++ f ++ "' expects " ++ counted expected "argument" ++ ", got " ++ Numeral.text got
  | notOrdered op left right =>
    "Cannot compare " ++ left ++ " " ++ op.symbol ++ " " ++ right ++ ": values are not ordered"
  | invalidArgument f reason => "Invalid argument to '" ++ f ++ "': " ++ reason
  | undefinedVariable x => "Undefined variable '" ++ x ++ "'"
  | noBranch n => "Non-exhaustive piecewise: none of " ++ counted n "case" ++ " matched"
  | malformedLiteral text fault => "Malformed number literal '" ++ text ++ "': " ++ fault.reason
  | tooDeep depth limit =>
    "Stack exhausted at call depth " ++ Numeral.text depth ++ " (limit is " ++ Numeral.text limit ++ ")"

end EvalError

end RatCalc
