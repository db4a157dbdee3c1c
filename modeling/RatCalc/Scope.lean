import RatCalc.Value.Basic

/-!
# Scopes

A scope has bindings and perhaps a parent.  All scopes live in one store and are known by their number there; a scope is
made after its parent, so the parent's number is the smaller one.

* `Store.chain s i` — scope `i` and its ancestors, innermost first: all that lookups see;
* `get?`, `contains`, `visible` — the first binding of a name along the chain, whether there is one, and all bindings of
  the chain as one scope;
* `push`, `define` — a new scope, and a binding in an existing one.
-/

namespace RatCalc

/-- Names and their values, each name at most once. -/
abbrev Bindings (φ : Type) := List (String × Value φ)

namespace Bindings

variable {φ : Type}

/-- Bind a name, in place of its earlier binding if there is one. -/
def insert (name : String) (v : Value φ) : Bindings φ → Bindings φ
  | [] => [(name, v)]
  | (x, w) :: rest => if x = name then (name, v) :: rest else (x, w) :: insert name v rest

/-- Bind several names, one after the other. -/
def insertAll (news old : Bindings φ) : Bindings φ := news.foldl (fun bs (x, v) => insert x v bs) old

end Bindings

structure Scope (φ : Type) where
  bindings : Bindings φ := []
  parent : Option ScopeId := none

/-- All scopes made so far. -/
structure Store (φ : Type) where
  scopes : Array (Scope φ) := #[]

namespace Store

variable {φ : Type}

instance : Inhabited (Store φ) := ⟨{}⟩

/-- A scope and its ancestors, innermost first. -/
def chain (s : Store φ) (i : ScopeId) : List (Scope φ) :=
  match s.scopes[i]? with
  | none => []
  | some scope =>
    match scope.parent with
    | none => [scope]
    | some p => if p < i then scope :: s.chain p else [scope]
termination_by i

/-- The innermost binding of a name. -/
def get? (s : Store φ) (i : ScopeId) (name : String) : Option (Value φ) :=
  (s.chain i).findSome? (·.bindings.lookup name)

/-- Whether a name is bound in a scope or an ancestor of it. -/
def contains (s : Store φ) (i : ScopeId) (name : String) : Bool :=
  (s.chain i).any fun scope => scope.bindings.any (·.1 == name)

/-- All visible bindings, inner ones in place of outer ones. -/
def visible (s : Store φ) (i : ScopeId) : Bindings φ :=
  (s.chain i).foldr (fun scope outer => Bindings.insertAll scope.bindings outer) []

/-- The number of the next scope. -/
def next (s : Store φ) : ScopeId := s.scopes.size

/-- Make a scope; its number is the `next` of the store before. -/
def push (s : Store φ) (scope : Scope φ) : Store φ := ⟨s.scopes.push scope⟩

/-- Make a root scope. -/
def root (s : Store φ) : Store φ := s.push {}

/-- Make an empty scope under a parent. -/
def child (s : Store φ) (parent : ScopeId) : Store φ := s.push { parent := some parent }

/-- Make a root scope with the bindings that a scope sees now. -/
def flatten (s : Store φ) (i : ScopeId) : Store φ := s.push { bindings := s.visible i }

/-- Bind a name in a scope. -/
def define (s : Store φ) (i : ScopeId) (name : String) (v : Value φ) : Store φ :=
  ⟨s.scopes.modify i fun scope => { scope with bindings := Bindings.insert name v scope.bindings }⟩

end Store

end RatCalc
