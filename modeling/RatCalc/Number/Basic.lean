/-!
# Extended rationals

A number is a pair `num / den` whose sign sits in the numerator.  Denominator zero encodes the three values that are
not fractions, so that division never fails:

| `num` | `den` | value       |
|-------|-------|-------------|
| `0`   | `0`   | `undefined` |
| `1`   | `0`   | `infinity`  |
| `-1`  | `0`   | `-infinity` |

* `Canonical` — lowest terms, with `0/0` allowed: the only form the operations build;
* `reduce`, `ofFraction` — the two ways into canonical form, from a natural and from an integer denominator;
* `cmp?` — the numeric order, in which `undefined` is comparable to nothing; `totalCmp` puts it last.
-/

namespace RatCalc

/-- A fraction, an infinity, or the undefined number. -/
structure ExtRat where
  num : Int
  den : Nat
deriving DecidableEq, Inhabited

namespace ExtRat

/-- Lowest terms.  Denominator zero leaves only `1/0`, `-1/0` and `0/0`. -/
def Canonical (r : ExtRat) : Prop := Nat.gcd r.num.natAbs r.den = 1 ∨ (r.num = 0 ∧ r.den = 0)

instance (r : ExtRat) : Decidable r.Canonical := inferInstanceAs (Decidable (_ ∨ _))

/-! ## construction -/

/-- Cancel the common factor; `0/0` stays as it is, since its greatest common divisor is zero. -/
def reduce (n : Int) (d : Nat) : ExtRat :=
  let g := Nat.gcd n.natAbs d
  ⟨n / (g : Int), d / g⟩

/-- The fraction `n / d` in canonical form, the sign of `d` moved to the numerator. -/
def ofFraction (n d : Int) : ExtRat := if d < 0 then reduce (-n) d.natAbs else reduce n d.natAbs

def ofInt (n : Int) : ExtRat := ⟨n, 1⟩

def zero : ExtRat := ofInt 0
def one : ExtRat := ofInt 1
def undefined : ExtRat := ⟨0, 0⟩
def infinity : ExtRat := ⟨1, 0⟩
def negInfinity : ExtRat := ⟨-1, 0⟩

/-! ## classification -/

def isUndefined (r : ExtRat) : Bool := r.den == 0 && r.num == 0
def isInfinite (r : ExtRat) : Bool := r.den == 0 && r.num != 0
def isFinite (r : ExtRat) : Bool := r.den != 0
def isZero (r : ExtRat) : Bool := r.num == 0 && r.den != 0
def isOne (r : ExtRat) : Bool := r.num == 1 && r.den == 1
def isInteger (r : ExtRat) : Bool := r.den == 1
def isNegative (r : ExtRat) : Bool := decide (r.num < 0)

/-! ## arithmetic -/

def neg (r : ExtRat) : ExtRat := ⟨-r.num, r.den⟩

def abs (r : ExtRat) : ExtRat := ⟨r.num.natAbs, r.den⟩

/-- `-1`, `0` or `1`; the undefined number has no sign and is its own. -/
def signum (r : ExtRat) : ExtRat := if r.isUndefined then undefined else ofInt r.num.sign

/-- Numerator and denominator exchanged, so `0` becomes `infinity`. -/
def recip (r : ExtRat) : ExtRat := ofFraction r.den r.num

/-- The sum.  Equal denominators are kept, which makes `∞ + ∞ = ∞` and `∞ - ∞` undefined. -/
def add (a b : ExtRat) : ExtRat :=
  if a.isUndefined || b.isUndefined then undefined
  else if a.den = b.den then reduce (a.num + b.num) a.den
  else reduce (a.num * b.den + b.num * a.den) (a.den * b.den)

def sub (a b : ExtRat) : ExtRat := a.add b.neg

def mul (a b : ExtRat) : ExtRat := reduce (a.num * b.num) (a.den * b.den)

def div (a b : ExtRat) : ExtRat := a.mul b.recip

/-- One hundredth. -/
def percent (r : ExtRat) : ExtRat := r.mul ⟨1, 100⟩

/-! ## rounding -/

/-- The greatest integer below a fraction; other numbers are their own floor. -/
def floor (r : ExtRat) : ExtRat := if r.isFinite then ofInt (r.num / (r.den : Int)) else r

def ceil (r : ExtRat) : ExtRat := r.neg.floor.neg

/-- The nearest integer, a half going away from zero. -/
def round (r : ExtRat) : ExtRat :=
  if !r.isFinite then r
  else if r.isNegative then (r.neg.add ⟨1, 2⟩).floor.neg
  else (r.add ⟨1, 2⟩).floor

/-- `a - b * ⌊a / b⌋`, which has the sign of `b`; undefined unless both are fractions and `b` is not zero. -/
def mod (a b : ExtRat) : ExtRat :=
  if !a.isFinite || !b.isFinite || b.isZero then undefined
  else a.sub (b.mul (a.div b).floor)

/-! ## order -/

/-- The numeric order; nothing compares with the undefined number. -/
def cmp? (a b : ExtRat) : Option Ordering :=
  if a.isUndefined || b.isUndefined then none
  else match a.isInfinite, b.isInfinite with
    | true, true => some (compare a.num b.num)
    | true, false => some (if a.isNegative then .lt else .gt)
    | false, true => some (if b.isNegative then .gt else .lt)
    | false, false => some (compare (a.num * b.den) (b.num * a.den))

/-- The numeric order with the undefined number put after `infinity`. -/
def totalCmp (a b : ExtRat) : Ordering :=
  match a.isUndefined, b.isUndefined with
  | true, true => .eq
  | true, false => .gt
  | false, true => .lt
  | false, false => (a.cmp? b).getD .eq

/-! ## text -/

/-- The name of a number that is not a fraction. -/
def specialName (r : ExtRat) : Option String :=
  if r.den ≠ 0 then none
  else if r.num = 0 then some "Undefined"
  else if r.num < 0 then some "-Infinity"
  else some "Infinity"

end ExtRat

/-- The powers of ten, by which the places of a decimal are shifted. -/
def tenPow (k : Nat) : Nat := Nat.pow 10 k

/-- The decimal numeral of an integer, as characters. -/
def Numeral.chars (n : Int) : List Char :=
  if n < 0 then '-' :: Nat.toDigits 10 n.natAbs else Nat.toDigits 10 n.natAbs

/-- The decimal numeral of an integer. -/
def Numeral.text (n : Int) : String := String.ofList (Numeral.chars n)

/-- `n`, `n/d`, or the name of a number that is not a fraction. -/
def ExtRat.render (r : ExtRat) : String :=
  match r.specialName with
  | some name => name
  | none => if r.den = 1 then Numeral.text r.num else Numeral.text r.num ++ "/" ++ Numeral.text r.den

end RatCalc
