import RatCalc.Number.Power

/-!
# Operators

Fifteen operators between two operands, three on one, and the two of the fifteen that also form chains of any length.
-/

namespace RatCalc

/-- Operators between two operands; `compose` is the composition of functions. -/
inductive BinaryOp where
  | add | sub | mul | div | mod | pow
  | compose
  | eq | ne | lt | le | gt | ge
  | and | or
deriving DecidableEq

namespace BinaryOp

def symbol : BinaryOp → String
  | add => "+" | sub => "-" | mul => "*" | div => "/" | mod => "mod" | pow => "^"
  | compose => "."
  | eq => "==" | ne => "!=" | lt => "<" | le => "<=" | gt => ">" | ge => ">="
  | and => "and" | or => "or"

def isComparison : BinaryOp → Bool
  | eq | ne | lt | le | gt | ge => true
  | _ => false

/-- All operators. -/
def all : List BinaryOp := [add, sub, mul, div, mod, pow, compose, eq, ne, lt, le, gt, ge, and, or]

def ofSymbol? (s : String) : Option BinaryOp := all.find? (·.symbol == s)

end BinaryOp

/-- Operators on one operand; `percent` takes a hundredth. -/
inductive UnaryOp where
  | plus | minus | percent
deriving DecidableEq

namespace UnaryOp

def symbol : UnaryOp → String
  | plus => "+" | minus => "-" | percent => "%"

def all : List UnaryOp := [plus, minus, percent]

def ofSymbol? (s : String) : Option UnaryOp := all.find? (·.symbol == s)

end UnaryOp

/-- The side of its operand on which a unary operator is written. -/
inductive Place where
  | before | after
deriving DecidableEq

/-- The associative and commutative operators: the ones a chain may have. -/
inductive ChainOp where
  | add | mul
deriving DecidableEq

namespace ChainOp

def toBinary : ChainOp → BinaryOp
  | add => .add
  | mul => .mul

def ofBinary? : BinaryOp → Option ChainOp
  | .add => some add
  | .mul => some mul
  | _ => none

/-- The literal that may be added to a chain without a change: its value when it has no operands. -/
def identity : ChainOp → String
  | add => "0"
  | mul => "1"

end ChainOp

/-! ## numbers as operands -/

/-- The number that an arithmetic operator gives; other operators give the undefined number. -/
def BinaryOp.onNumbers (op : BinaryOp) (a b : ExtRat) : ExtRat :=
  match op with
  | .add => a.add b
  | .sub => a.sub b
  | .mul => a.mul b
  | .div => a.div b
  | .mod => a.mod b
  | .pow => a.pow b
  | _ => .undefined

/-- The number that a unary operator gives. -/
def UnaryOp.onNumber (op : UnaryOp) (a : ExtRat) : ExtRat :=
  match op with
  | .plus => a
  | .minus => a.neg
  | .percent => a.percent

end RatCalc
