import RatCalc.Value.Basic

/-!
# Tokens

Values for hosts that need no more than labelled text.

* `inert` — no operation at all;
* `atom` — a string: `+` joins two of them, and two of them are ordered;
* `probe` — answers every operation that can be overridden, with a text or an error that shows how it was asked.

A token that comes with the host's tree has a handle, and is the same as those with that handle; one made by an operation
has none, and is the same as no other.
-/

namespace RatCalc

namespace Token

inductive Kind where
  | inert | atom | probe
deriving DecidableEq

def Kind.name : Kind → String
  | inert => "opaque"
  | atom => "atom"
  | probe => "probe"

def Kind.ofName? (s : String) : Option Kind := [inert, atom, probe].find? (·.name == s)

end Token

structure Token where
  handle : Option String := none
  kind : Token.Kind
  text : String
deriving DecidableEq

namespace Token

def same (a b : Token) : Bool := a.handle.isSome && a.handle == b.handle

def render (t : Token) : String :=
  match t.kind with
  | .probe => "[" ++ t.text ++ "]"
  | _ => t.text

/-- An operation answered by a new token. -/
def made (kind : Kind) (text : String) : Option (Except EvalError (Value Token)) :=
  some (.ok (.foreign { kind := kind, text := text }))

/-- An operation answered by an error of the probe. -/
def refused (reason : String) : Option (Except EvalError (Value Token)) :=
  some (.error (.invalidArgument "probe" reason))

/-- Two texts in the order of the operands they come from. -/
def inOrder (own : String) (side : Side) (sep other : String) : String :=
  match side with
  | .left => own ++ sep ++ other
  | .right => other ++ sep ++ own

/-- Arithmetic: atoms join, probes scale, refuse to divide, and leave the unit as remainder. -/
def binary (t : Token) (op : BinaryOp) (v : Value Token) (side : Side) : Option (Except EvalError (Value Token)) :=
  match t.kind, op, v with
  | .atom, .add, .foreign ⟨_, .atom, text⟩ => made .atom (inOrder t.text side "" text)
  | .probe, .mul, .number n => made .probe (inOrder t.text side "*" n.render)
  | .probe, .div, _ =>
    match side with
    | .left => refused "division left"
    | .right => refused "division right"
  | .probe, .mod, _ => some (.ok .unit)
  | _, _, _ => none

def unary (t : Token) (op : UnaryOp) : Option (Except EvalError (Value Token)) :=
  match t.kind, op with
  | .probe, .minus => made .probe ("-" ++ t.text)
  | .probe, .percent => refused "percent"
  | _, _ => none

/-- Atoms by their texts, probes against numbers by the length of theirs. -/
def cmp? (t : Token) (v : Value Token) : Option Ordering :=
  match t.kind, v with
  | .atom, .foreign ⟨_, .atom, text⟩ => some (Ord.compare t.text text)
  | .probe, .number n => (ExtRat.ofInt t.text.length).cmp? n
  | _, _ => none

/-- A probe returns a single argument. -/
def call (t : Token) (args : List (Value Token)) : Option (Except EvalError (Value Token)) :=
  match t.kind, args with
  | .probe, [v] => some (.ok v)
  | .probe, _ :: _ => refused ("too many: " ++ Numeral.text args.length)
  | _, _ => none

def isTruthy (t : Token) : Bool :=
  match t.kind with
  | .probe => !t.text.isEmpty
  | _ => true

instance : Foreign Token where
  kind t := t.kind.name
  render := render
  same := same
  binary := binary
  unary := unary
  compare := cmp?
  call := call
  isTruthy := isTruthy

end Token

end RatCalc
