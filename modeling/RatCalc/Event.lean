import RatCalc.Expr.Printer
import RatCalc.Normal.Pass

/-!
# The log

What the normaliser and the evaluator note about their work, as values; the text of a note is made when it is shown.
-/

namespace RatCalc

/-- How much a note matters. -/
inductive Level where
  | warn | debug | trace
deriving DecidableEq

namespace Level

def name : Level → String
  | warn => "WARN" | debug => "DEBUG" | trace => "TRACE"

/-- Zero for what matters most. -/
def rank : Level → Nat
  | warn => 0 | debug => 1 | trace => 2

/-- Whether a note of level `l` is shown to a reader who asked for `asked`. -/
def shownAt (l asked : Level) : Bool := l.rank ≤ asked.rank

end Level

/-- A note in the log. -/
inductive Event (φ : Type) where
  | pass (pass : Pass) (changed : Bool)
  | fixpoint (round : Nat)
  | round (round : Nat) (tree : Expr φ)
  | roundsSpent (limit : Nat)
  | evaluating (tree : Expr φ)
  | tailCall (kind : String) (count : Nat)
  | tooDeep (depth limit : Nat)
  | probe (gap result : ExtRat)

namespace Event

variable {φ : Type}

def level : Event φ → Level
  | pass .. | tailCall .. | probe .. => .trace
  | fixpoint _ | round .. | evaluating _ => .debug
  | roundsSpent _ | tooDeep .. => .warn

/-- The text of a note. -/
def message [ForeignKind φ] : Event φ → String
  | pass p changed => p.name ++ (if changed then ": changed" else ": unchanged")
  | fixpoint n => "rewrite reached a fixpoint after " ++ Numeral.text n ++ " round(s)"
  | round n tree => "rewrite round " ++ Numeral.text n ++ ": " ++ tree.render
  | roundsSpent n => "rewrite stopped after " ++ Numeral.text n ++ " rounds without reaching a fixpoint"
  | evaluating tree => "evaluating " ++ tree.render
  | tailCall kind n => "tail call into " ++ kind ++ " with " ++ Numeral.text n ++ " argument(s)"
  | tooDeep d limit => "call depth " ++ Numeral.text d ++ " exceeds the limit of " ++ Numeral.text limit
  | probe gap y => "limit probe at gap " ++ gap.render ++ ": " ++ y.render

end Event

end RatCalc
