import RatCalc.Normal.Rounds

/-!
# Settings of the evaluator
-/

namespace RatCalc

/-- Nested calls that are allowed, unless said otherwise.  Calls in tail position do not nest. -/
def defaultMaxDepth : Nat := 48

/-- What a closure sees of the scope it was made in. -/
inductive Capture where
  /-- The scope itself, with the bindings made later. -/
  | live
  /-- A copy of the bindings at the time. -/
  | snapshot
deriving DecidableEq

structure Config where
  capture : Capture := .live
  maxDepth : Nat := defaultMaxDepth
  /-- Whether expressions are normalised before they run. -/
  normalizes : Bool := true
  maxRounds : Nat := defaultMaxRounds
deriving DecidableEq

end RatCalc
