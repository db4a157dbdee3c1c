import RatCalc.Number.Basic
import RatCalc.Number.Root

/-!
# Decimal text of a quotient

The quotients are of integers, with division toward zero; the callers inside the library pass a positive divisor.

* `truncated n d k` — `n / d` cut after exactly `k` places;
* `terminating? n d` — all places of `n / d`, when there are finitely many;
* `root? n d degree k` — the root of `n / d`, cut after `k` places.
-/

namespace RatCalc.Decimal

/-- Zeros put in front of a numeral up to a width. -/
def padded (width : Nat) (cs : List Char) : List Char := List.replicate (width - cs.length) '0' ++ cs

/-- The `k` places after the point of the quotient whose remainder is `rem`. -/
def places (rem d : Int) (k : Nat) : List Char := padded k (Numeral.chars ((rem * tenPow k).tdiv d))

/-- The characters of `n / d` cut after `k` places; with no places there is no point either. -/
def truncatedChars (n d : Int) (k : Nat) : List Char :=
  let magnitude : Int := n.natAbs
  let whole := Numeral.chars (magnitude.tdiv d)
  let body := if k = 0 then whole else whole ++ '.' :: places (magnitude.tmod d) d k
  if n < 0 then '-' :: body else body

/-- `n / d` cut after exactly `k` places. -/
def truncated (n d : Int) (k : Nat) : String := String.ofList (truncatedChars n d k)

/-- How often `p` divides `n`, and what is left of `n` then.  Nothing is taken out of zero. -/
def takeOut (p n : Nat) : Nat × Nat :=
  if 1 < p ∧ n ≠ 0 ∧ n % p = 0 then
    let (k, rest) := takeOut p (n / p)
    (k + 1, rest)
  else (0, n)
termination_by n
decreasing_by exact Nat.div_lt_self (by omega) (by omega)

/-- The number of places after which `1 / d` ends: none if `d` has a prime factor besides 2 and 5. -/
def placesNeeded? (d : Nat) : Option Nat :=
  let (twos, rest) := takeOut 2 d
  let (fives, rest) := takeOut 5 rest
  if rest = 1 then some (max twos fives) else none

/-- All places of `n / d`, if the expansion ends and the divisor is positive. -/
def terminating? (n d : Int) : Option String :=
  if d ≤ 0 then none else (placesNeeded? d.toNat).map (truncated n d)

/-- Counts of places and degrees are 32-bit. -/
def countLimit : Nat := Nat.pow 2 32

/-- The root of degree `degree` of `n / d`, cut after `k` places; none when `k * degree` is out of range. -/
def root? (n d : Int) (degree k : Nat) : Option String :=
  if k < countLimit ∧ k * degree < countLimit then
    let scaled := (n * tenPow (k * degree)).tdiv d
    some (truncated (floorRootInt degree scaled) (tenPow k) k)
  else none

end RatCalc.Decimal

namespace RatCalc.ExtRat

/-- The expansion cut after `k` places, or the name of a number that has none. -/
def toDecimal (r : ExtRat) (k : Nat) : String := r.specialName.getD (Decimal.truncated r.num r.den k)

/-- The whole expansion, if it ends, or the name of a number that has none. -/
def toExactDecimal? (r : ExtRat) : Option String :=
  match r.specialName with
  | some name => some name
  | none => Decimal.terminating? r.num r.den

end RatCalc.ExtRat
