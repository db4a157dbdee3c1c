import RatCalc.Eval.Standard

/-!
# Evaluation of expressions

By recursion on the tree.  Names resolve in the scopes, then in the host's definitions, then in the standard table.  A
call is made by the argument `call`, except in tail position.

* `eval` — the value of a tree;
* `evalTail` — the same, but a call in tail position is handed back unmade, as a `Step.tail`.
-/

namespace RatCalc

/-- What evaluations share: the settings, and the definitions of the host. -/
structure Context (φ : Type) where
  config : Config := {}
  lookup : String → Option (Value φ) := fun _ => none

/-- A value, or a call that remains to be made. -/
inductive Step (φ : Type) where
  | done (value : Value φ)
  | tail (callee : Value φ) (args : List (Value φ))

variable {φ : Type} [Foreign φ] (cx : Context φ) (call : Value φ → List (Value φ) → Eval φ (Value φ))

/-- The value of a name. -/
def resolve (scope : ScopeId) (name : String) : Eval φ (Value φ) := do
  match (← Eval.get? scope name).or ((cx.lookup name).or (standard? name)) with
  | some v => return v
  | none => Eval.fail (.undefinedVariable name)

/-- A function with its names resolved in the scope, or in a copy of what the scope shows now. -/
def close (scope : ScopeId) (params : List String) (body : Expr φ) : Eval φ (Value φ) :=
  match cx.config.capture with
  | .live => return .closure params body scope
  | .snapshot => do return .closure params body (← Eval.pushScope fun s => { bindings := s.visible scope })

/-- The number of a literal. -/
def evalLiteral (text : String) : Eval φ (Value φ) :=
  match Literal.read text with
  | .ok r => return .number r
  | .error fault => Eval.fail (.malformedLiteral text fault)

/-- Whether the left operand already decides. -/
def decides (op : BinaryOp) (v : Value φ) : Bool :=
  match op with
  | .and | .or => v.takesLeft op
  | _ => false

mutual
/-- The value of a tree in a scope. -/
def eval (scope : ScopeId) : Expr φ → Eval φ (Value φ)
  | .num text => evalLiteral text
  | .var name => resolve cx scope name
  | .assign _ name e => do
    let v ← eval scope e
    Eval.define scope name v
    return v
  | .lambda params body => close cx scope params body
  | .choice bs => evalChoice scope bs.length bs
  | .apply f as => do
    let callee ← eval scope f
    let args ← evalList scope as
    call callee args
  | .supply as f => do
    let bound ← evalList scope as
    let callee ← eval scope f
    return .supplied bound callee
  | .unary op _ e => do
    let v ← eval scope e
    Eval.ofExcept (v.unary op)
  | .binary op a b => do
    let left ← eval scope a
    if decides op left then return left
    let right ← eval scope b
    Eval.ofExcept (left.binary op right)
  | .chain op es => evalChain scope op es
  | .block es => evalBlock scope es
  | .unit => return .unit
  | .foreign x => return .foreign x
/-- The values of several trees, from left to right. -/
def evalList (scope : ScopeId) : List (Expr φ) → Eval φ (List (Value φ))
  | [] => return []
  | e :: es => do
    let v ← eval scope e
    let vs ← evalList scope es
    return v :: vs
/-- A chain from left to right; without operands it is the identity of its operator. -/
def evalChain (scope : ScopeId) (op : ChainOp) : List (Expr φ) → Eval φ (Value φ)
  | [] => evalLiteral op.identity
  | e :: es => do
    let v ← eval scope e
    evalChainFrom scope op v es
/-- The rest of a chain whose value so far is given. -/
def evalChainFrom (scope : ScopeId) (op : ChainOp) (acc : Value φ) : List (Expr φ) → Eval φ (Value φ)
  | [] => return acc
  | e :: es => do
    let v ← eval scope e
    let acc ← Eval.ofExcept (acc.binary op.toBinary v)
    evalChainFrom scope op acc es
/-- The value of the last step, after all others; without steps the unit. -/
def evalBlock (scope : ScopeId) : List (Expr φ) → Eval φ (Value φ)
  | [] => return .unit
  | [e] => eval scope e
  | e :: es => do
    let _ ← eval scope e
    evalBlock scope es
/-- The action of the first branch that is taken; `n` is the number of all branches. -/
def evalChoice (scope : ScopeId) (n : Nat) : List (Branch (Expr φ)) → Eval φ (Value φ)
  | [] => Eval.fail (.noBranch n)
  | .otherwise a :: _ => eval scope a
  | .when g a :: bs => do
    let v ← eval scope g
    if v.isTruthy then eval scope a else evalChoice scope n bs
end

mutual
/-- The value of a tree in tail position, or the call that gives it. -/
def evalTail (scope : ScopeId) : Expr φ → Eval φ (Step φ)
  | .apply f as => do
    let callee ← eval cx call scope f
    let args ← evalList cx call scope as
    return .tail callee args
  | .choice bs => evalTailChoice scope bs.length bs
  | .block es => evalTailBlock scope es
  | e => do return .done (← eval cx call scope e)
def evalTailBlock (scope : ScopeId) : List (Expr φ) → Eval φ (Step φ)
  | [] => return .done .unit
  | [e] => evalTail scope e
  | e :: es => do
    let _ ← eval cx call scope e
    evalTailBlock scope es
def evalTailChoice (scope : ScopeId) (n : Nat) : List (Branch (Expr φ)) → Eval φ (Step φ)
  | [] => Eval.fail (.noBranch n)
  | .otherwise a :: _ => evalTail scope a
  | .when g a :: bs => do
    let v ← eval cx call scope g
    if v.isTruthy then evalTail scope a else evalTailChoice scope n bs
end

end RatCalc
