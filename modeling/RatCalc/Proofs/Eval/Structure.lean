import RatCalc.Proofs.Eval.Normalizing
import RatCalc.Proofs.Normal.Contents
import RatCalc.Proofs.Normal.Structure

/-!
# Evaluation after a structural pass

A tree of arithmetic whose literals are well formed and whose variables stand for numbers always evaluates to a number,
finite or not.  The structural passes keep that number.

* `Context.extended` — the numbers that names stand for, as extended rationals;
* `eval_of_number` — the number of a tree is what evaluation gives;
* `Context.Numeric` — the trees that have a number, `Context.exists_number`;
* `Interpreter.evaluate_structural` — evaluation before and after a structural pass.
-/

namespace RatCalc

open Extended RatCalc.Expr

variable {φ : Type}

/-! ## the numbers of names -/

namespace Context

variable (cx : Context φ) (scope : ScopeId) (s : Store φ)

/-- The extended rationals that names stand for. -/
def extended (name : String) : Option Extended :=
  match cx.names scope s name with
  | some (.number r) => some r.denote
  | _ => none

variable {cx scope s}

theorem names_of_extended (hcanon : cx.CanonicalNames scope s) {name : String} {x : Extended}
    (h : cx.extended scope s name = some x) : cx.names scope s name = some (.number x.form) := by
  unfold extended at h
  split at h
  · rename_i r hr
    cases h
    rw [hr, ExtRat.form_denote (hcanon hr)]
  · cases h

end Context

/-! ## numbers are what evaluation gives -/

section Evaluation

variable {cx : Context φ} {call : Value φ → List (Value φ) → Eval φ (Value φ)} {scope : ScopeId}
  {env : String → Option Extended} {m : Machine φ}

theorem evalLiteral_of_number {text : String} {x : Extended} (h : number env (.num text : Expr φ) = some x)
    (m : Machine φ) : evalLiteral text m = .ok (.number x.form) m := by
  obtain ⟨r, hr, rfl⟩ := Option.map_eq_some_iff.1 h
  rw [ExtRat.form_denote (Literal.canonical_value? hr)]
  exact evalLiteral_of_read (Literal.value?_eq_some_iff.1 hr) m

variable [Foreign φ]

theorem evalChainFrom_of_number {op : ChainOp} {es : List (Expr φ)}
    (hes : ∀ e ∈ es, ∀ x, number env e = some x → eval cx call scope e m = .ok (.number x.form) m)
    {x y : Extended} (hy : op.gather (es.map (number env)) = some y) :
    evalChainFrom cx call scope op (.number x.form) es m = .ok (.number (op.toBinary.onExtended x y).form) m := by
  induction es generalizing x y with
  | nil =>
    cases hy
    rw [op.onExtended_comm, op.neutral_onExtended, evalChainFrom]
    rfl
  | cons e es ih =>
    obtain ⟨u, v, hu, hv, rfl⟩ := Option.map₂_eq_some_iff.1 hy
    have hop : op.toBinary.isArithmetic = true := by cases op <;> rfl
    rw [evalChainFrom]
    refine (Eval.bind_of_ok (hes e (by simp) u hu)).trans ?_
    rw [binary_numbers hop, ← BinaryOp.form_onExtended, ← op.onExtended_assoc]
    exact ih (fun e' he' => hes e' (by simp [he'])) hv

theorem evalChain_of_number {op : ChainOp} {es : List (Expr φ)}
    (hes : ∀ e ∈ es, ∀ x, number env e = some x → eval cx call scope e m = .ok (.number x.form) m)
    {y : Extended} (hy : op.gather (es.map (number env)) = some y) :
    evalChain cx call scope op es m = .ok (.number y.form) m := by
  cases es with
  | nil =>
    cases hy
    have hid : number env (.num op.identity : Expr φ) = some (fraction op.neutral) :=
      number_num (by cases op <;> decide)
    rw [evalChain]
    exact evalLiteral_of_number hid m
  | cons e es =>
    obtain ⟨u, v, hu, hv, rfl⟩ := Option.map₂_eq_some_iff.1 hy
    rw [evalChain]
    refine (Eval.bind_of_ok (hes e (by simp) u hu)).trans ?_
    exact evalChainFrom_of_number (fun e' he' => hes e' (by simp [he'])) hv

/-- **Numbers are what evaluation gives**, and the machine stays as it is. -/
theorem eval_of_number (hcanon : cx.CanonicalNames scope m.store) {e : Expr φ} {x : Extended}
    (hx : number (cx.extended scope m.store) e = some x) : eval cx call scope e m = .ok (.number x.form) m := by
  induction e using childInduction generalizing x with
  | step e ih =>
    cases e with
    | num text =>
      rw [eval]
      exact evalLiteral_of_number hx m
    | var name =>
      rw [number] at hx
      rw [eval, resolve_eq, Context.names_of_extended hcanon hx]
    | unary op p e =>
      obtain ⟨u, hu, rfl⟩ := Option.map_eq_some_iff.1 hx
      rw [eval_unary (ih e (by simp [children]) hu), op.form_onExtended]
    | binary op a b =>
      rw [number, Option.ite_none_right_eq_some] at hx
      obtain ⟨hop, hx⟩ := hx
      obtain ⟨u, v, hu, hv, rfl⟩ := Option.map₂_eq_some_iff.1 hx
      rw [eval_binary hop (ih a (by simp [children]) hu) (ih b (by simp [children]) hv), op.form_onExtended]
    | chain op es =>
      rw [number_chain] at hx
      rw [eval]
      exact evalChain_of_number (fun e he x => ih e he (x := x)) hx
    | _ => simp [number] at hx

end Evaluation

/-! ## trees with a number -/

namespace ChainOp

/-- A chain of operands with numbers has a number. -/
theorem exists_gather (op : ChainOp) {xs : List (Option Extended)} (h : ∀ x ∈ xs, ∃ u, x = some u) :
    ∃ u, op.gather xs = some u := by
  induction xs with
  | nil => exact ⟨_, rfl⟩
  | cons x xs ih =>
    obtain ⟨u, rfl⟩ := h x (by simp)
    obtain ⟨v, hv⟩ := ih fun y hy => h y (by simp [hy])
    exact ⟨op.toBinary.onExtended u v, by rw [op.gather_cons, hv]; rfl⟩

end ChainOp

namespace Context

variable (cx : Context φ) (scope : ScopeId) (s : Store φ)

/-- The nodes of arithmetic in which literals are well formed and variables stand for numbers. -/
def NumericNode : Expr φ → Prop
  | .num text => Literal.WellFormed text
  | .var name => ∃ r, cx.names scope s name = some (.number r)
  | e => e.ArithmeticNode

/-- Arithmetic in which literals are well formed and variables stand for numbers, whatever the numbers are. -/
def Numeric (e : Expr φ) : Prop := ∀ t : Expr φ, t.Within e → cx.NumericNode scope s t

variable {cx scope s}

theorem numeric_iff {e : Expr φ} :
    cx.Numeric scope s e ↔ cx.NumericNode scope s e ∧ ∀ c ∈ e.children, cx.Numeric scope s c := forall_within_iff

@[simp] theorem numeric_num {text : String} : cx.Numeric scope s (.num text) ↔ Literal.WellFormed text := by
  rw [numeric_iff]
  simp [NumericNode, children]

@[simp] theorem numeric_var {name : String} :
    cx.Numeric scope s (.var name) ↔ ∃ r, cx.names scope s name = some (.number r) := by
  rw [numeric_iff]
  simp [NumericNode, children]

@[simp] theorem numeric_unary {op : UnaryOp} {p : Place} {e : Expr φ} :
    cx.Numeric scope s (.unary op p e) ↔ cx.Numeric scope s e := by
  rw [numeric_iff]
  simp [NumericNode, ArithmeticNode, children]

@[simp] theorem numeric_binary {op : BinaryOp} {a b : Expr φ} :
    cx.Numeric scope s (.binary op a b) ↔
      op.isArithmetic = true ∧ cx.Numeric scope s a ∧ cx.Numeric scope s b := by
  rw [numeric_iff]
  simp [NumericNode, ArithmeticNode, children]

@[simp] theorem numeric_chain {op : ChainOp} {es : List (Expr φ)} :
    cx.Numeric scope s (.chain op es) ↔ ∀ e ∈ es, cx.Numeric scope s e := by
  rw [numeric_iff]
  simp [NumericNode, ArithmeticNode, children]

/-- Such arithmetic has a number. -/
theorem exists_number {e : Expr φ} (h : cx.Numeric scope s e) : ∃ x, number (cx.extended scope s) e = some x := by
  induction e using childInduction with
  | step e ih =>
    obtain ⟨hnode, hchildren⟩ := numeric_iff.1 h
    have hchild : ∀ c ∈ e.children, ∃ x, number (cx.extended scope s) c = some x := fun c hc => ih c hc (hchildren c hc)
    cases e with
    | num text =>
      obtain ⟨r, hr⟩ := hnode
      exact ⟨r.denote, by rw [number, Literal.value?_eq_some_iff.2 hr, Option.map_some]⟩
    | var name =>
      obtain ⟨r, hr⟩ := hnode
      exact ⟨r.denote, by rw [number, extended, hr]⟩
    | unary op p e =>
      obtain ⟨x, hx⟩ := hchild e (by simp [children])
      exact ⟨op.onExtended x, by rw [number, hx, Option.map_some]⟩
    | binary op a b =>
      obtain ⟨x, hx⟩ := hchild a (by simp [children])
      obtain ⟨y, hy⟩ := hchild b (by simp [children])
      exact ⟨op.onExtended x y, by rw [number_binary hnode, hx, hy]; rfl⟩
    | chain op es =>
      rw [number_chain]
      exact op.exists_gather fun x hx => by
        obtain ⟨c, hc, rfl⟩ := List.mem_map.1 hx
        exact hchild c hc
    | _ => cases hnode

end Context

namespace Interpreter

variable [Foreign φ] [DecidableEq φ] {i : Interpreter φ} {m : Machine φ}

/-- **Structural passes are exact on all numbers.**  Arithmetic over well-formed literals and variables that stand for
numbers evaluates to a number, which may be an infinity or the undefined number, and binds nothing.  After a structural
pass it evaluates to the very same number. -/
theorem evaluate_structural {p : Pass} (hp : p.IsStructural) {e : Expr φ}
    (hbind : i.context.CanonicalBindings i.top m.store) (he : i.context.Numeric i.top m.store e) (fuel : ℕ) :
    ∃ r : ExtRat, r.Canonical ∧ i.evaluate fuel e m = .ok (.number r) (entry m e) ∧
      i.evaluate fuel (p.apply e) m = .ok (.number r) (entry m (p.apply e)) := by
  obtain ⟨x, hx⟩ := Context.exists_number he
  have hx' : number (i.context.extended i.top m.store) (p.apply e) = some x := by rw [Pass.number_apply hp, hx]
  refine ⟨x.form, canonical_form x, ?_, ?_⟩
  · exact eval_of_number (m := entry m e) hbind.names hx
  · exact eval_of_number (m := entry m (p.apply e)) hbind.names hx'

end Interpreter

/-! ## an example -/

/-- `(2 - x) + ((-x)% + Infinity + 1)`, with a product of nothing for the one -/
def Expr.unboundedSum : Expr Empty :=
  .binary .add (.binary .sub (.num "2") (.var "x"))
    (.chain .add [.unary .percent .after (.unary .minus .before (.var "x")), .num "Infinity", .chain .mul []])

/-- A machine with one scope. -/
def Machine.ofBindings (bs : Bindings φ) : Machine φ := { store := ⟨#[{ bindings := bs }]⟩ }

theorem Machine.get?_ofBindings (bs : Bindings φ) (name : String) :
    (Machine.ofBindings bs).store.get? 0 name = bs.lookup name := by
  have hscope : (Machine.ofBindings bs).store.scopes[0]? = some { bindings := bs } := rfl
  rw [Store.get?, Store.chain_eq _ hscope, List.findSome?_cons]
  cases bs.lookup name <;> rfl

theorem Context.names_ofBindings {bs : Bindings φ} {name : String} {v : Value φ} (h : bs.lookup name = some v) :
    Context.names {} 0 (Machine.ofBindings bs).store name = some v := by
  rw [Context.names, Machine.get?_ofBindings, h, Option.some_or]

/-- A machine whose only scope binds `x` to minus infinity. -/
def Machine.bindingNegInfinity : Machine Empty := .ofBindings [("x", .number .negInfinity)]

theorem Machine.canonicalBindings_bindingNegInfinity :
    Context.CanonicalBindings {} 0 Machine.bindingNegInfinity.store := by
  intro name r h
  rw [Machine.bindingNegInfinity, Machine.get?_ofBindings, Bindings.lookup_cons_eq] at h
  split at h
  · cases h
    decide
  · cases h

theorem Context.names_bindingNegInfinity :
    Context.names {} 0 Machine.bindingNegInfinity.store "x" = some (.number .negInfinity) := Context.names_ofBindings rfl

theorem Context.numeric_unboundedSum : Context.Numeric {} 0 Machine.bindingNegInfinity.store unboundedSum := by
  have hx : ∃ r, Context.names {} 0 Machine.bindingNegInfinity.store "x" = some (.number r) :=
    ⟨_, Context.names_bindingNegInfinity⟩
  have h2 : Literal.WellFormed "2" := ⟨_, Literal.value?_eq_some_iff.1 (by decide : _ = some ⟨2, 1⟩)⟩
  have hinf : Literal.WellFormed "Infinity" := ⟨_, Literal.value?_eq_some_iff.1 (by decide : _ = some .infinity)⟩
  simp [unboundedSum, BinaryOp.isArithmetic, hx, h2, hinf]

theorem Interpreter.evaluate_structural_unboundedSum :
    let i : Interpreter Empty := { top := 0 }
    let m := Machine.bindingNegInfinity
    i.context.CanonicalBindings i.top m.store ∧ i.context.Numeric i.top m.store unboundedSum ∧
      ∀ p ∈ [Pass.negation, .leveling, .ordering], p.IsStructural ∧
        i.evaluate 0 unboundedSum m = .ok (.number .infinity) (entry m unboundedSum) ∧
        i.evaluate 0 (p.apply unboundedSum) m = .ok (.number .infinity) (entry m (p.apply unboundedSum)) := by
  intro i m
  have hbind : i.context.CanonicalBindings i.top m.store := Machine.canonicalBindings_bindingNegInfinity
  have hnumeric : i.context.Numeric i.top m.store unboundedSum := Context.numeric_unboundedSum
  have hx : i.context.extended i.top m.store "x" = some negInfinity := by
    rw [Context.extended, Context.names_bindingNegInfinity]
    rfl
  have h2 : Literal.value? "2" = some (fraction 2).form := by decide
  have hinf : Literal.value? "Infinity" = some infinity.form := by decide
  have hsum : number (i.context.extended i.top m.store) unboundedSum = some infinity := by
    simp [unboundedSum, number, numbers, BinaryOp.isArithmetic, h2, hinf, hx, denote_form, ChainOp.gather,
      ChainOp.combine, ChainOp.toBinary, ChainOp.neutral, BinaryOp.onExtended_add, BinaryOp.onExtended_sub,
      UnaryOp.onExtended_minus, UnaryOp.onExtended_percent, Extended.add, Extended.neg, Extended.percent]
  refine ⟨hbind, hnumeric, ?_⟩
  intro p hmem
  have hp : p.IsStructural := by simpa [Pass.IsStructural] using hmem
  obtain ⟨r, -, hbefore, hafter⟩ := evaluate_structural hp hbind hnumeric 0
  have hr : i.evaluate 0 unboundedSum m = .ok (.number .infinity) (entry m unboundedSum) :=
    eval_of_number (m := entry m unboundedSum) hbind.names hsum
  rw [hr] at hbefore
  cases hbefore
  exact ⟨hp, hr, hafter⟩

end RatCalc
