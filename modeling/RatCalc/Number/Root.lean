/-!
# Integer roots and powers

* `raise b e` — `b` to the power `e` by squaring, for exponents far beyond what fits a counter;
* `floorRoot k n` — the greatest `r` with `r ^ k ≤ n`, by Newton's iteration from a power of two above the root.
-/

namespace RatCalc

/-- `acc * square ^ e`: a factor for each binary digit of `e` that is one, lowest first, and a squaring between two digits
but none after the last. -/
def raiseFrom (acc square : Int) (e : Nat) : Int :=
  if e = 0 then acc
  else
    let acc := if e % 2 = 1 then acc * square else acc
    if e / 2 = 0 then acc else raiseFrom acc (square * square) (e / 2)
termination_by e
decreasing_by omega

/-- The power by squaring. -/
def raise (b : Int) (e : Nat) : Int := raiseFrom 1 b e

/-- Newton's step for the root of degree `k` of `n`, with both quotients rounded down. -/
def newtonStep (k n x : Nat) : Nat := ((k - 1) * x + n / Nat.pow x (k - 1)) / k

/-- Iterate from `x` for as long as the step makes the iterate smaller. -/
def newtonDescend (k n x : Nat) : Nat :=
  let y := newtonStep k n x
  if y < x then newtonDescend k n y else x
termination_by x

/-- A power of two above the root of degree `k` of `n`: its exponent is the bit length of `n` over `k`, rounded up. -/
def rootStart (k n : Nat) : Nat := Nat.pow 2 ((n.log2 + 1 + (k - 1)) / k)

/-- The greatest `r` with `r ^ k ≤ n`; degrees zero and one give `n` back. -/
def floorRoot (k n : Nat) : Nat := if k ≤ 1 ∨ n < 2 then n else newtonDescend k n (rootStart k n)

/-- The floor root carried over to the integers, where it leaves everything below two alone. -/
def floorRootInt (k : Nat) (n : Int) : Int := if n < 2 then n else floorRoot k n.toNat

end RatCalc
