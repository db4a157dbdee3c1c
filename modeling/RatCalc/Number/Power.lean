import RatCalc.Number.Binary64

/-!
# Powers and roots of numbers

Integer powers are exact.  The power `p/q` is the root of degree `q` of the power `p`; roots of perfect powers are
exact, other roots are cut after `rootPlaces` places, and degrees above `maxRootDegree` go through doubles.
-/

namespace RatCalc

/-- Places kept of a root that is not exact. -/
def rootPlaces : Nat := 40

/-- The greatest degree whose root is taken by Newton's iteration. -/
def maxRootDegree : Nat := 64

namespace ExtRat

/-- Natural powers, numerator and denominator apart; undefined for exponents of more than 64 bits. -/
def powNat (r : ExtRat) (e : Nat) : ExtRat :=
  if e < Nat.pow 2 64 then reduce (raise r.num e) (raise r.den e).toNat else undefined

/-- Integer powers; a negative power is the reciprocal of the positive one. -/
def powInt (r : ExtRat) (e : Int) : ExtRat := if e < 0 then (r.powNat e.natAbs).recip else r.powNat e.natAbs

/-- The root of a positive fraction: exact for perfect powers, else cut after `rootPlaces` places. -/
def rootOfPositive (r : ExtRat) (degree : Nat) : ExtRat :=
  let p := floorRoot degree r.num.natAbs
  let q := floorRoot degree r.den
  if Nat.pow p degree = r.num.natAbs ∧ Nat.pow q degree = r.den then reduce p q
  else ((Decimal.root? r.num.natAbs r.den degree rootPlaces).bind Literal.value?).getD undefined

/-- The root of a positive fraction of a degree too high for Newton's iteration. -/
def rootByDouble (r : ExtRat) (degree : Nat) : ExtRat := ofFloat (Float.pow r.toFloat (1.0 / Float.ofNat degree))

/-- The root of a given degree.  Odd roots of negative fractions are negative, even ones undefined. -/
def nthRoot (r : ExtRat) (degree : Nat) : ExtRat :=
  if degree = 0 ∨ r.isUndefined then undefined
  else if degree = 1 ∨ r.isZero then r
  else if r.isNegative ∧ degree % 2 = 0 then undefined
  else if r.isInfinite then r
  else
    let root := if maxRootDegree < degree then r.abs.rootByDouble degree else r.abs.rootOfPositive degree
    if r.isNegative then root.neg else root

/-- The power `a ^ b`.  Exponent zero gives one, whatever the base. -/
def pow (a b : ExtRat) : ExtRat :=
  if b.isZero then one
  else if a.isUndefined || !b.isFinite then undefined
  else if b.isInteger then a.powInt b.num
  else if b.den ≤ maxRootDegree then (a.powInt b.num).nthRoot b.den
  else ofFloat (Float.pow a.toFloat b.toFloat)

end ExtRat

end RatCalc
