import RatCalc.Number.Basic

/-!
# Number literals

    literal  ::=  name  |  [sign] mantissa [('e' | 'E') [sign] digits]
    mantissa ::=  digits ['.' [digits]]  |  '.' digits
    name     ::=  'Infinity' | '+Infinity' | '-Infinity' | 'Undefined'

Digits are the ten ASCII ones.  The exponent is at most `maxExponent` in size.  A text with several faults is refused
for the first of: empty, exponent malformed, exponent out of range, no digits, a character out of place.
-/

namespace RatCalc.Literal

/-- Why a text is not a number. -/
inductive Fault where
  | empty | malformedExponent | exponentRange | noDigits | unexpectedCharacter
deriving DecidableEq

def Fault.reason : Fault → String
  | .empty => "empty literal"
  | .malformedExponent => "malformed exponent"
  | .exponentRange => "exponent out of range"
  | .noDigits => "no digits"
  | .unexpectedCharacter => "unexpected character"

/-- The greatest decimal exponent a literal may have. -/
def maxExponent : Nat := 4096

/-- The value of a digit string, most significant digit first. -/
def digitsValue (cs : List Char) : Nat := cs.foldl (fun n c => 10 * n + (c.toNat - 48)) 0

/-- An optional sign, and whether it was a minus. -/
def takeSign : List Char → Bool × List Char
  | '-' :: cs => (true, cs)
  | '+' :: cs => (false, cs)
  | cs => (false, cs)

def signed (negative : Bool) (n : Nat) : Int := if negative then -(n : Int) else n

/-- A signed 64-bit integer with at least one digit. -/
def readExponent? (cs : List Char) : Option Int :=
  let (negative, digits) := takeSign cs
  if digits.isEmpty || !digits.all Char.isDigit then none
  else
    let n := signed negative (digitsValue digits)
    if -9223372036854775808 ≤ n ∧ n < 9223372036854775808 then some n else none

def isExponentMark (c : Char) : Bool := c == 'e' || c == 'E'

/-- The text before the first exponent mark and the exponent after it, zero if there is none. -/
def splitExponent (cs : List Char) : Except Fault (List Char × Int) :=
  match cs.dropWhile (!isExponentMark ·) with
  | [] => .ok (cs, 0)
  | _ :: tail =>
    match readExponent? tail with
    | some k => .ok (cs.takeWhile (!isExponentMark ·), k)
    | none => .error .malformedExponent

/-- The text before and after the first point. -/
def splitPoint (cs : List Char) : List Char × List Char :=
  (cs.takeWhile (· != '.'), (cs.dropWhile (· != '.')).drop 1)

/-- `n * 10 ^ k` in canonical form. -/
def scaled (n k : Int) : ExtRat :=
  if 0 ≤ k then .ofInt (n * tenPow k.toNat) else .reduce n (tenPow k.natAbs)

/-- The number that an unsigned mantissa with an exponent denotes, under a sign. -/
def readMantissa (negative : Bool) (mantissa : List Char) (k : Int) : Except Fault ExtRat :=
  let (whole, fraction) := splitPoint mantissa
  if whole.isEmpty && fraction.isEmpty then .error .noDigits
  else if !(whole ++ fraction).all Char.isDigit then .error .unexpectedCharacter
  else .ok (scaled (signed negative (digitsValue (whole ++ fraction))) (k - fraction.length))

/-- Read a literal that is not one of the names. -/
def readPlain (cs : List Char) : Except Fault ExtRat :=
  if cs.isEmpty then .error .empty
  else
    let (negative, rest) := takeSign cs
    match splitExponent rest with
    | .error fault => .error fault
    | .ok (mantissa, k) =>
      if maxExponent < k.natAbs then .error .exponentRange else readMantissa negative mantissa k

/-- Read a literal. -/
def read (text : String) : Except Fault ExtRat :=
  if text = "Infinity" ∨ text = "+Infinity" then .ok .infinity
  else if text = "-Infinity" then .ok .negInfinity
  else if text = "Undefined" then .ok .undefined
  else readPlain text.toList

/-- The number a literal denotes, if it denotes one. -/
def value? (text : String) : Option ExtRat := (read text).toOption

/-- What is said of a text that is not a number. -/
def message (text : String) (fault : Fault) : String := "'" ++ text ++ "' is not a number: " ++ fault.reason

end RatCalc.Literal
