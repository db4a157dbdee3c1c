import RatCalc.Event

/-!
# Rounds of passes

A round runs the passes of a pipeline once.  Normalising repeats rounds until one leaves the tree as it is, and gives up
after a fixed number of them.

* `Pipeline.round` — one round; `Pipeline.trail` — the tree after each of its passes;
* `Pipeline.normalize` — the last tree; `Pipeline.normalizeEvents` — what the log says on the way to it.
-/

namespace RatCalc

/-- Rounds before normalising gives up, unless said otherwise. -/
def defaultMaxRounds : Nat := 16

/-- Passes in the order they run, and the number of rounds. -/
structure Pipeline where
  passes : List Pass := Pass.all
  maxRounds : Nat := defaultMaxRounds

namespace Pipeline

/-- The pipeline with another limit; there is always at least one round. -/
def withMaxRounds (p : Pipeline) (n : Nat) : Pipeline := { p with maxRounds := max n 1 }

variable {φ : Type} [DecidableEq φ]

/-- One round. -/
def round (p : Pipeline) (e : Expr φ) : Expr φ := p.passes.foldl (fun tree pass => pass.apply tree) e

/-- The passes in turn, each with the tree it makes of the one before. -/
def trail : List Pass → Expr φ → List (Pass × Expr φ)
  | [], _ => []
  | pass :: passes, e => (pass, pass.apply e) :: trail passes (pass.apply e)

/-- Whether each pass changed the tree. -/
def passEvents : List Pass → Expr φ → List (Event φ)
  | [], _ => []
  | pass :: passes, e =>
    let next := pass.apply e
    .pass pass (next != e) :: passEvents passes next

/-- The log of one round. -/
def roundEvents (p : Pipeline) (e : Expr φ) : List (Event φ) := passEvents p.passes e

/-- At most `n` rounds, ending early with one that changes nothing. -/
def iterate (p : Pipeline) : Nat → Expr φ → Expr φ
  | 0, e => e
  | n + 1, e =>
    let next := p.round e
    if next = e then next else p.iterate n next

/-- The tree after the last round. -/
def normalize (p : Pipeline) (e : Expr φ) : Expr φ := p.iterate p.maxRounds e

/-- The log of at most `n` rounds, the first of which is numbered `k`. -/
def iterateEvents (p : Pipeline) : Nat → Nat → Expr φ → List (Event φ)
  | 0, _, _ => [.roundsSpent p.maxRounds]
  | n + 1, k, e =>
    let next := p.round e
    p.roundEvents e ++
      if next = e then [.fixpoint k] else .round k next :: p.iterateEvents n (k + 1) next

/-- The log of normalising. -/
def normalizeEvents (p : Pipeline) (e : Expr φ) : List (Event φ) := p.iterateEvents p.maxRounds 1 e

end Pipeline

end RatCalc
