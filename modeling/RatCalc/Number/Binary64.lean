import RatCalc.Number.Decimal
import RatCalc.Number.Literal

/-!
# Numbers and doubles

The elementary functions run on doubles.  A number becomes the double nearest to its expansion cut after `doublePlaces`
places; a double becomes the shortest decimal that rounds to it.

* `Double.ofBits?` — a finite double as sign and `m * 2 ^ q`;
* `Double.shortest` — the decimal with the fewest digits in the rounding interval of `m * 2 ^ q`; of two with equally
  many the nearer, and at a tie the greater.
-/

namespace RatCalc

/-- Places kept when a number becomes a double. -/
def doublePlaces : Nat := 30

/-- A finite positive double `m * 2 ^ q`.  Below a power of two the next double is only half as far away. -/
structure Double where
  m : Nat
  q : Int
  narrowBelow : Bool

namespace Double

/-- Sign and magnitude of a double given by its bits, if it is finite. -/
def ofBits? (bits : Nat) : Option (Bool × Double) :=
  let negative : Bool := bits / Nat.pow 2 63 == 1
  let field : Nat := bits / Nat.pow 2 52 % 2048
  let fraction : Nat := bits % Nat.pow 2 52
  if field = 2047 then none
  else if field = 0 then some (negative, ⟨fraction, -1074, false⟩)
  else some (negative, ⟨Nat.pow 2 52 + fraction, (field : Int) - 1075, fraction = 0 && field > 1⟩)

/-- `b ^ e` as a fraction of natural numbers. -/
def powFraction (b : Nat) (e : Int) : Nat × Nat := (Nat.pow b e.toNat, Nat.pow b (-e).toNat)

/-- Whether `k * 10 ^ p` rounds to the double: halfway points belong to the even mantissa. -/
def rounds (x : Double) (k : Nat) (p : Int) : Bool :=
  let (a, b) := powFraction 2 (x.q - 2)
  let (c, d) := powFraction 10 p
  let low := (if x.narrowBelow then 4 * x.m - 1 else 4 * x.m - 2) * a * d
  let high := (4 * x.m + 2) * a * d
  let point := k * c * b
  if x.m % 2 = 0 then low ≤ point && point ≤ high else low < point && point < high

/-- The neighbour of the double among the multiples of `10 ^ p` that rounds to it, the nearer one if both do. -/
def onGrid? (x : Double) (p : Int) : Option Nat :=
  let (a, b) := powFraction 2 x.q
  let (c, d) := powFraction 10 p
  let n := x.m * a * d
  let unit := c * b
  let k := n / unit
  match x.rounds k p, x.rounds (k + 1) p with
  | true, true => some (if 2 * (n % unit) < unit then k else k + 1)
  | true, false => some k
  | false, true => some (k + 1)
  | false, false => none

/-- The first grid with a hit, going down from `10 ^ p`; the exact value if none of `fuel` grids has one. -/
def search (x : Double) : Nat → Int → ExtRat
  | 0, _ => let (a, b) := powFraction 2 x.q; .reduce (x.m * a) b
  | fuel + 1, p =>
    match x.onGrid? p with
    | some k => Literal.scaled k p
    | none => x.search fuel (p - 1)

/-- The shortest decimal that rounds to a positive double.  Seventeen digits always suffice; the search starts at a
power of ten above the double, found from the bit length with `30103 / 100000` a little above `log 2 / log 10`. -/
def shortest (x : Double) : ExtRat :=
  x.search 22 (((x.m.log2 + 1 : Int) + x.q) * 30103 / 100000 + 1)

end Double

namespace ExtRat

/-- The shortest decimal of a double; infinities and not-a-number keep their meaning, and zero has no sign. -/
def ofFloat (x : Float) : ExtRat :=
  if x.isNaN then undefined
  else match Double.ofBits? x.toBits.toNat with
    | none => if x > 0 then infinity else negInfinity
    | some (negative, d) =>
      if d.m = 0 then zero else if negative then d.shortest.neg else d.shortest

/-- The double nearest to the expansion cut after `doublePlaces` places.  A negative number that is cut to nothing
becomes the negative zero. -/
def toFloat (r : ExtRat) : Float :=
  if r.isUndefined then 0.0 / 0.0
  else if r.isInfinite then (if r.isNegative then -(1.0 / 0.0) else 1.0 / 0.0)
  else
    let cut := Float.ofScientific (r.num.natAbs * tenPow doublePlaces / r.den) true doublePlaces
    if r.isNegative then -cut else cut

end ExtRat

end RatCalc
