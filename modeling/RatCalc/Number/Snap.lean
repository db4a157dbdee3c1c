import RatCalc.Number.Decimal
import RatCalc.Number.Literal

/-!
# Snapping to a near decimal

A value computed close to a short decimal shows a long run of zeros or nines in its expansion (`1.9999997`).  It is cut
where the first such run starts, and rounded up there if the run is one of nines.  Zeros that lead the expansion of a
value below one are no run.
-/

namespace RatCalc

/-- Places in which a run is looked for. -/
def snapPlaces : Nat := 20

/-- The shortest run that counts. -/
def minRun : Nat := 4

namespace ExtRat

/-- Whether the digits start with a run of `c`. -/
def startsRun (c : Char) (cs : List Char) : Bool := minRun ≤ cs.length && (cs.take minRun).all (· == c)

/-- Where the first run starts, and whether it is one of nines. -/
def findRun? : List Char → Option (Nat × Bool)
  | [] => none
  | c :: cs =>
    if startsRun '0' (c :: cs) then some (0, false)
    else if startsRun '9' (c :: cs) then some (0, true)
    else (findRun? cs).map fun (i, nines) => (i + 1, nines)

/-- The first `snapPlaces` places of a fraction that is not negative. -/
def snapDigits (r : ExtRat) : List Char := Decimal.places (r.num % r.den) r.den snapPlaces

/-- The place at which a fraction that is not negative is cut, and whether it is then rounded up. -/
def snapPoint? (r : ExtRat) : Option (Nat × Bool) :=
  let digits := r.snapDigits
  let leading := if r.num < r.den then (digits.takeWhile (· == '0')).length else 0
  (findRun? (digits.drop leading)).map fun (i, nines) => (leading + i, nines)

/-- A fraction that is not negative, cut after `k` places and perhaps raised by one unit of the last. -/
def cutAt (r : ExtRat) (k : Nat) (up : Bool) : ExtRat :=
  reduce (r.num * tenPow k / r.den + (if up then 1 else 0)) (tenPow k)

/-- The decimal that a value is close to, if its expansion shows one, and else the value. -/
def snap (r : ExtRat) : ExtRat :=
  if !r.isFinite then r
  else match r.abs.snapPoint? with
    | none => r
    | some (k, up) => if r.isNegative then (r.abs.cutAt k up).neg else r.abs.cutAt k up

end ExtRat

end RatCalc
