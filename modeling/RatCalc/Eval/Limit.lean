import RatCalc.Eval.Machine
import RatCalc.Number.Snap

/-!
# Limits by probing

The limit of `f` at a point where `f` has a finite value is that value.  Elsewhere `f` is probed at distances from the
point that shrink tenfold, starting with a hundredth.  While the steps between the results shrink, the results converge,
and the last one is snapped to the decimal that it is close to.  A step that is no smaller than the one before means that
the results run away, to the infinity on that step's side.  From both sides a limit exists if the two are equal fractions.

The calls of `f` are made by the argument `call`.
-/

namespace RatCalc.Limit

/-- Probes on each side. -/
def probes : Nat := 5

def firstGap : ExtRat := ⟨1, 100⟩

def shrink : ExtRat := ⟨1, 10⟩

variable {φ : Type} [Foreign φ] (call : Value φ → List (Value φ) → Eval φ (Value φ))

/-- The number that `f` returns at `x`. -/
def probe (f : Value φ) (x : ExtRat) : Eval φ ExtRat := do
  match ← call f [.number x] with
  | .number y => return y
  | other => Eval.fail (.invalidArgument "limit" ("probe returned " ++ other.kind ++ ", expected a number"))

/-- What is known after a probe: the result, and the size of the step to it if it was not the first. -/
structure Trend where
  value : ExtRat
  step? : Option ExtRat

/-- The limit, if a result after `trend` settles it, and else the trend with the new result. -/
def judge (trend : Option Trend) (y : ExtRat) : Except ExtRat Trend :=
  if !y.isFinite then .error y
  else match trend with
    | none => .ok ⟨y, none⟩
    | some ⟨previous, lastStep?⟩ =>
      let step := (y.sub previous).abs
      if step.isZero then .error y.snap
      else match lastStep? with
        | some lastStep =>
          if step.totalCmp lastStep != .lt then
            .error (if y.totalCmp previous == .gt then .infinity else .negInfinity)
          else .ok ⟨y, some step⟩
        | none => .ok ⟨y, some step⟩

/-- The limit from one side with `n` probes left, the next at distance `gap`; `place` finds the point at a distance. -/
def approach (f : Value φ) (place : ExtRat → ExtRat) : Nat → ExtRat → Option Trend → Eval φ ExtRat
  | 0, _, none => return .undefined
  | 0, _, some trend => return trend.value.snap
  | n + 1, gap, trend => do
    let y ← probe call f (place gap)
    Eval.note (.probe gap y)
    match judge trend y with
    | .error settled => return settled
    | .ok trend => approach f place n (gap.mul shrink) (some trend)

def fromLeft (f : Value φ) (point : ExtRat) : Eval φ ExtRat := approach call f point.sub probes firstGap none

def fromRight (f : Value φ) (point : ExtRat) : Eval φ ExtRat := approach call f point.add probes firstGap none

/-- The limit of `f` at a point.  A result at the point that is no number, or a fraction, is returned as it is. -/
def limit (f : Value φ) (point : ExtRat) (side : Approach) : Eval φ (Value φ) := do
  let direct ← call f [.number point]
  let settled := match direct with
    | .number y => y.isFinite
    | _ => true
  if settled then return direct
  match side with
  | .left => return .number (← fromLeft call f point)
  | .right => return .number (← fromRight call f point)
  | .both => do
    let left ← fromLeft call f point
    let right ← fromRight call f point
    return .number (if left.isFinite && left == right then left else .undefined)

end RatCalc.Limit
