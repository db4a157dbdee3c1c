import RatCalc.Number.Power

/-!
# The functions that come with the calculator

* exact: `abs` to `root`;
* through doubles: `sin` to `log`, which is the decimal logarithm;
* on functions: the limits and `compose`.

Only names, arities and the functions of one number are here; the functions that call others need an evaluator.
-/

namespace RatCalc

/-- The numbers of arguments that a function takes. -/
inductive Arity where
  | exactly (n : Nat) | atLeast (n : Nat)
deriving DecidableEq

namespace Arity

def accepts : Arity → Nat → Bool
  | exactly n, count => count == n
  | atLeast n, count => n ≤ count

def minimum : Arity → Nat
  | exactly n | atLeast n => n

end Arity

/-- The side, or both, from which a limit is approached. -/
inductive Approach where
  | left | right | both
deriving DecidableEq

inductive Builtin where
  | abs | sign | floor | ceil | round | numerator | denominator | min | max | sqrt | root
  | sin | cos | tan | asin | acos | atan | exp | ln | log
  | limit (approach : Approach) | compose
deriving DecidableEq

namespace Builtin

def all : List Builtin :=
  [abs, sign, floor, ceil, round, numerator, denominator, min, max, sqrt, root,
   sin, cos, tan, asin, acos, atan, exp, ln, log, limit .both, limit .left, limit .right, compose]

def name : Builtin → String
  | abs => "abs" | sign => "sign" | floor => "floor" | ceil => "ceil" | round => "round"
  | numerator => "numerator" | denominator => "denominator" | min => "min" | max => "max"
  | sqrt => "sqrt" | root => "root"
  | sin => "sin" | cos => "cos" | tan => "tan" | asin => "asin" | acos => "acos" | atan => "atan"
  | exp => "exp" | ln => "ln" | log => "log"
  | limit .both => "limit" | limit .left => "limit_left" | limit .right => "limit_right"
  | compose => "compose"

def ofName? (s : String) : Option Builtin := all.find? (·.name == s)

def arity : Builtin → Arity
  | min | max => .atLeast 1
  | root | limit _ | compose => .exactly 2
  | _ => .exactly 1

/-- A function of doubles, as one of numbers. -/
def throughDouble (f : Float → Float) (r : ExtRat) : ExtRat := .ofFloat (f r.toFloat)

/-- The functions of one number. -/
def onNumber? : Builtin → Option (ExtRat → ExtRat)
  | abs => some .abs
  | sign => some .signum
  | floor => some .floor
  | ceil => some .ceil
  | round => some .round
  | numerator => some fun r => .ofInt r.num
  | denominator => some fun r => .ofInt r.den
  | sqrt => some fun r => r.pow ⟨1, 2⟩
  | sin => some (throughDouble Float.sin)
  | cos => some (throughDouble Float.cos)
  | tan => some (throughDouble Float.tan)
  | asin => some (throughDouble Float.asin)
  | acos => some (throughDouble Float.acos)
  | atan => some (throughDouble Float.atan)
  | exp => some (throughDouble Float.exp)
  | ln => some (throughDouble Float.log)
  | log => some (throughDouble Float.log10)
  | min | max | root | limit _ | compose => none

end Builtin

/-! ## constants -/

namespace ExtRat

/-- The circle constant, cut after 49 places. -/
def pi : ExtRat := Literal.scaled 31415926535897932384626433832795028841971693993751 (-49)

/-- The base of the natural logarithm, cut after 49 places. -/
def euler : ExtRat := Literal.scaled 27182818284590452353602874713526624977572470936999 (-49)

def tau : ExtRat := pi.mul (.ofInt 2)

end ExtRat

end RatCalc
