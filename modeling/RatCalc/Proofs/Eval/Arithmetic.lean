import RatCalc.Session
import RatCalc.Proofs.Normal.Meaning

/-!
# Evaluation of finite arithmetic

Arithmetic that has a value evaluates to it and leaves the machine alone; arithmetic that evaluates to fractions
everywhere, with tame powers and remainders, has a value.

* `Context.names`, `Context.fractions` — what names stand for, and the fractions among that;
* `eval_of_value` — the value is what evaluation gives;
* `Arithmetic` — trees of literals, variables and operators between numbers;
* `Interpreter.FiniteTree` — every node gives a finite number, with tame powers and remainders;
* `Interpreter.exists_value`, `Interpreter.finiteTree_of_value` — these are the trees of arithmetic with a value.
-/

namespace RatCalc

open Extended RatCalc.Expr

variable {φ : Type}

/-! ## arithmetic -/

namespace Expr

/-- The nodes of arithmetic. -/
def ArithmeticNode : Expr φ → Prop
  | .num _ | .var _ | .unary _ _ _ | .chain _ _ => True
  | .binary op _ _ => op.isArithmetic = true
  | _ => False

/-- A tree of literals, variables and operators between numbers. -/
def Arithmetic (e : Expr φ) : Prop := ∀ s : Expr φ, s.Within e → s.ArithmeticNode

/-- What has a value is arithmetic. -/
theorem arithmetic_of_value {env : String → Option ℚ} {e : Expr φ} {q : ℚ} (hq : value env e = some q) : e.Arithmetic := by
  induction e using childInduction generalizing q with
  | step e ih =>
    have hnode : e.ArithmeticNode := by
      cases e with
      | binary op a b =>
        obtain ⟨x, y, -, -, hxy⟩ := value_binary_iff.1 hq
        exact BinaryOp.isArithmetic_of_onFractions? hxy
      | num | var | unary | chain => trivial
      | _ => simp [value] at hq
    refine forall_within_iff.2 ⟨hnode, ?_⟩
    intro c hc
    obtain ⟨x, hx⟩ := exists_value_of_mem_children hq hc
    exact ih c hc hx

end Expr

/-! ## names and literals -/

/-- The rest of a computation whose first part succeeds. -/
theorem Eval.bind_of_ok {α β : Type} {x : Eval φ α} {f : α → Eval φ β} {m m' : Machine φ} {a : α}
    (h : x m = .ok a m') : (x >>= f) m = f a m' := by
  show Eval.bind x f m = f a m'
  rw [Eval.bind, h]

/-- A computation succeeds in two parts. -/
theorem Eval.bind_eq_ok_iff {α β : Type} {x : Eval φ α} {f : α → Eval φ β} {m m' : Machine φ} {b : β} :
    (x >>= f) m = .ok b m' ↔ ∃ a m₁, x m = .ok a m₁ ∧ f a m₁ = .ok b m' := by
  constructor
  · intro h
    have h : Eval.bind x f m = .ok b m' := h
    unfold Eval.bind at h
    cases hx : x m with
    | ok a m₁ =>
      rw [hx] at h
      exact ⟨a, m₁, rfl, h⟩
    | error e m₁ =>
      rw [hx] at h
      cases h
    | outOfFuel =>
      rw [hx] at h
      cases h
  · rintro ⟨a, m₁, hx, hf⟩
    rw [Eval.bind_of_ok hx, hf]

namespace Context

variable (cx : Context φ) (scope : ScopeId) (s : Store φ)

/-- What a name stands for. -/
def names (name : String) : Option (Value φ) := (s.get? scope name).or ((cx.lookup name).or (standard? name))

/-- The fractions that names stand for. -/
def fractions (name : String) : Option ℚ :=
  match cx.names scope s name with
  | some (.number r) => r.fraction?
  | _ => none

/-- All numbers that names stand for are canonical. -/
def CanonicalNames : Prop := ∀ ⦃name r⦄, cx.names scope s name = some (.number r) → r.Canonical

end Context

variable {cx : Context φ} {scope : ScopeId}

theorem resolve_eq (name : String) (m : Machine φ) :
    resolve cx scope name m =
      match cx.names scope m.store name with
      | some v => .ok v m
      | none => .error (.undefinedVariable name) m := by
  have hget : Eval.get? scope name m = .ok (m.store.get? scope name) m := rfl
  refine (Eval.bind_of_ok hget).trans ?_
  rw [Context.names]
  cases (m.store.get? scope name).or ((cx.lookup name).or (standard? name)) <;> rfl

theorem evalLiteral_of_read {text : String} {r : ExtRat} (h : Literal.read text = .ok r) (m : Machine φ) :
    evalLiteral text m = .ok (.number r) m := by
  rw [evalLiteral, h]
  rfl

/-- A literal of a fraction evaluates to it. -/
theorem evalLiteral_of_value {env : String → Option ℚ} {text : String} {q : ℚ}
    (h : value env (.num text : Expr φ) = some q) (m : Machine φ) :
    evalLiteral text m = .ok (.number (fraction q).form) m := by
  rw [value, Option.bind_eq_some_iff] at h
  obtain ⟨r, hr, hq⟩ := h
  obtain rfl := ExtRat.eq_form_of_fraction? (Literal.canonical_value? hr) hq
  exact evalLiteral_of_read (Literal.value?_eq_some_iff.1 hr) m

theorem Context.names_of_fractions {s : Store φ} {name : String} {q : ℚ} (hcanon : cx.CanonicalNames scope s)
    (h : cx.fractions scope s name = some q) : cx.names scope s name = some (.number (fraction q).form) := by
  unfold fractions at h
  split at h
  · rename_i r hr
    rw [hr, ExtRat.eq_form_of_fraction? (hcanon hr) h]
  · cases h

/-! ## operators -/

variable [Foreign φ] {call : Value φ → List (Value φ) → Eval φ (Value φ)}

theorem binary_numbers {op : BinaryOp} (hop : op.isArithmetic = true) (x y : ExtRat) :
    Value.binary op (.number x) (.number y : Value φ) = .ok (.number (op.onNumbers x y)) := by
  cases op <;> first | rfl | cases hop

theorem decides_of_isArithmetic {op : BinaryOp} (hop : op.isArithmetic = true) (v : Value φ) : decides op v = false := by
  cases op <;> first | rfl | cases hop

/-- Two numbers under an operator of arithmetic. -/
theorem eval_binary {op : BinaryOp} (hop : op.isArithmetic = true) {a b : Expr φ} {m : Machine φ} {x y : ExtRat}
    (ha : eval cx call scope a m = .ok (.number x) m) (hb : eval cx call scope b m = .ok (.number y) m) :
    eval cx call scope (.binary op a b) m = .ok (.number (op.onNumbers x y)) m := by
  rw [eval]
  refine (Eval.bind_of_ok ha).trans ?_
  rw [decides_of_isArithmetic hop]
  refine (Eval.bind_of_ok hb).trans ?_
  rw [binary_numbers hop]
  rfl

theorem eval_unary {op : UnaryOp} {p : Place} {e : Expr φ} {m : Machine φ} {x : ExtRat}
    (he : eval cx call scope e m = .ok (.number x) m) :
    eval cx call scope (.unary op p e) m = .ok (.number (op.onNumber x)) m := by
  rw [eval]
  exact Eval.bind_of_ok he

/-! ## what has a value evaluates to it -/

variable {env : String → Option ℚ} {m : Machine φ}

theorem evalChainFrom_of_value {op : ChainOp} {es : List (Expr φ)}
    (hes : ∀ e ∈ es, ∀ q, value env e = some q → eval cx call scope e m = .ok (.number (fraction q).form) m)
    {p q : ℚ} (hq : chainValue env op es = some q) :
    evalChainFrom cx call scope op (.number (fraction p).form) es m =
      .ok (.number (fraction (op.onFractions p q)).form) m := by
  induction es generalizing p q with
  | nil =>
    cases hq
    rw [op.onFractions_neutral, evalChainFrom]
    rfl
  | cons e es ih =>
    obtain ⟨x, y, hx, hy, rfl⟩ := chainValue_cons_iff.1 hq
    have hop : op.toBinary.isArithmetic = true := by cases op <;> rfl
    rw [evalChainFrom]
    refine (Eval.bind_of_ok (hes e (by simp) x hx)).trans ?_
    rw [binary_numbers hop, op.onNumbers_form]
    have hrest := ih (fun e' he' => hes e' (by simp [he'])) (p := op.onFractions p x) hy
    rw [op.onFractions_assoc] at hrest
    exact hrest

theorem evalChain_of_value {op : ChainOp} {es : List (Expr φ)}
    (hes : ∀ e ∈ es, ∀ q, value env e = some q → eval cx call scope e m = .ok (.number (fraction q).form) m)
    {q : ℚ} (hq : chainValue env op es = some q) :
    evalChain cx call scope op es m = .ok (.number (fraction q).form) m := by
  cases es with
  | nil =>
    cases hq
    have hid : value env (.num op.identity : Expr φ) = some op.neutral := value_identity op
    rw [evalChain]
    exact evalLiteral_of_value hid m
  | cons e es =>
    obtain ⟨x, y, hx, hy, rfl⟩ := chainValue_cons_iff.1 hq
    rw [evalChain]
    refine (Eval.bind_of_ok (hes e (by simp) x hx)).trans ?_
    exact evalChainFrom_of_value (fun e' he' => hes e' (by simp [he'])) hy

/-- Values over names that stand for their fractions are what evaluation gives. -/
theorem eval_of_names (hnames : ∀ x q, env x = some q → cx.names scope m.store x = some (.number (fraction q).form))
    {e : Expr φ} {q : ℚ} (hq : value env e = some q) :
    eval cx call scope e m = .ok (.number (fraction q).form) m := by
  induction e using childInduction generalizing q with
  | step e ih =>
    cases e with
    | num text =>
      rw [eval]
      exact evalLiteral_of_value hq m
    | var name =>
      rw [eval]
      rw [value] at hq
      rw [resolve_eq, hnames name q hq]
    | unary op p e =>
      obtain ⟨x, hx, rfl⟩ := value_unary_iff.1 hq
      rw [eval_unary (ih e (by simp [children]) hx), op.onNumber_form]
    | binary op a b =>
      obtain ⟨x, y, hx, hy, hxy⟩ := value_binary_iff.1 hq
      have ha := ih a (by simp [children]) hx
      have hb := ih b (by simp [children]) hy
      rw [eval_binary (BinaryOp.isArithmetic_of_onFractions? hxy) ha hb, BinaryOp.onNumbers_form hxy]
    | chain op es =>
      rw [value] at hq
      rw [eval]
      exact evalChain_of_value (fun e he q => ih e he (q := q)) hq
    | _ => simp [value] at hq

/-- **Values are what evaluation gives**, and the machine stays as it is. -/
theorem eval_of_value (hcanon : cx.CanonicalNames scope m.store) {e : Expr φ} {q : ℚ}
    (hq : value (cx.fractions scope m.store) e = some q) :
    eval cx call scope e m = .ok (.number (fraction q).form) m :=
  eval_of_names (fun _ _ => Context.names_of_fractions hcanon) hq

/-! ## what is finite has a value -/

namespace Interpreter

variable (i : Interpreter φ) (fuel : ℕ)

/-- The machine in which a tree is evaluated at the top. -/
def entry (m : Machine φ) (e : Expr φ) : Machine φ := { m.note (.evaluating e) with depth := 0 }

theorem evaluate_eq (m : Machine φ) (e : Expr φ) :
    i.evaluate fuel e m = eval i.context (callValue i.context fuel) i.top e (entry m e) := rfl

/-- Without malformed literals, a run that normalises evaluates the normal form. -/
theorem run_eq [DecidableEq φ] (hnormal : i.context.config.normalizes = true) {e : Expr φ} (hfault : e.firstFault? = none)
    (m : Machine φ) :
    i.run fuel e m = i.evaluate fuel (i.pipeline.normalize e) (m.noteAll (i.pipeline.normalizeEvents e)) := by
  rw [run, hfault]
  dsimp only
  rw [if_pos hnormal]
  rfl

/-- Evaluated from the machine, the tree gives the number. -/
def Yields (m : Machine φ) (e : Expr φ) (r : ExtRat) : Prop := ∃ m', i.evaluate fuel e m = .ok (.number r) m'

/-- A node that gives a finite number.  Moreover a power has a nonzero base and an integer exponent, and a remainder is not
by one. -/
def FiniteNode (m : Machine φ) (e : Expr φ) : Prop :=
  (∃ r, i.Yields fuel m e r ∧ r.isFinite = true) ∧
    match e with
    | .binary .pow a b =>
      (∃ r, i.Yields fuel m a r ∧ r.isZero = false) ∧ ∃ r, i.Yields fuel m b r ∧ r.isInteger = true
    | .binary .mod _ b => ∃ r, i.Yields fuel m b r ∧ r.isOne = false
    | _ => True

/-- Arithmetic whose nodes all are finite. -/
def FiniteTree (m : Machine φ) (e : Expr φ) : Prop := ∀ s : Expr φ, s.Within e → i.FiniteNode fuel m s

variable {i fuel} {q : ℚ} {r : ExtRat} {e : Expr φ}

theorem evaluate_of_value (hcanon : i.context.CanonicalNames i.top m.store)
    (hq : value (i.context.fractions i.top m.store) e = some q) :
    i.evaluate fuel e m = .ok (.number (fraction q).form) (entry m e) :=
  eval_of_value (m := entry m e) hcanon hq

/-- A tree with a value gives no other number. -/
theorem eq_form_of_yields (hcanon : i.context.CanonicalNames i.top m.store)
    (hq : value (i.context.fractions i.top m.store) e = some q) (h : i.Yields fuel m e r) : r = (fraction q).form := by
  obtain ⟨m', h⟩ := h
  rw [evaluate_of_value hcanon hq] at h
  cases h
  rfl

theorem read_of_yields {text : String} (h : i.Yields fuel m (.num text) r) : Literal.read text = .ok r := by
  obtain ⟨m', h⟩ := h
  rw [evaluate, eval, evalLiteral] at h
  cases hread : Literal.read text with
  | error fault =>
    rw [hread] at h
    cases h
  | ok r' =>
    rw [hread] at h
    cases h
    rfl

theorem names_of_yields {name : String} (h : i.Yields fuel m (.var name) r) :
    i.context.names i.top m.store name = some (.number r) := by
  obtain ⟨m', h⟩ := h
  rw [evaluate_eq, eval, resolve_eq] at h
  cases hname : i.context.names i.top (entry m (.var name)).store name with
  | none =>
    rw [hname] at h
    cases h
  | some v =>
    rw [hname] at h
    cases h
    exact hname

theorem exists_value_binary {op : BinaryOp} {a b : Expr φ} {x y : ℚ} (hcanon : i.context.CanonicalNames i.top m.store)
    (hop : op.isArithmetic = true) (hx : value (i.context.fractions i.top m.store) a = some x)
    (hy : value (i.context.fractions i.top m.store) b = some y) (hfin : i.FiniteNode fuel m (.binary op a b)) :
    ∃ q, value (i.context.fractions i.top m.store) (.binary op a b) = some q := by
  obtain ⟨⟨r, ⟨m', hr⟩, hr'⟩, htame⟩ := hfin
  have ha : eval i.context (callValue i.context fuel) i.top a (entry m (.binary op a b)) = _ :=
    eval_of_value (m := entry m (.binary op a b)) hcanon hx
  have hb : eval i.context (callValue i.context fuel) i.top b (entry m (.binary op a b)) = _ :=
    eval_of_value (m := entry m (.binary op a b)) hcanon hy
  rw [evaluate_eq, eval_binary hop ha hb] at hr
  cases hr
  have hpow : op = .pow → x ≠ 0 ∧ y.den = 1 := by
    rintro rfl
    obtain ⟨⟨r, hr, hr0⟩, r', hr', hr1⟩ := htame
    rw [eq_form_of_yields hcanon hx hr, ExtRat.isZero_form] at hr0
    rw [eq_form_of_yields hcanon hy hr'] at hr1
    exact ⟨of_decide_eq_false hr0, by simpa [ExtRat.isInteger, form] using hr1⟩
  have hmod : op = .mod → y ≠ 1 := by
    rintro rfl
    obtain ⟨r, hr, hr1⟩ := htame
    rw [eq_form_of_yields hcanon hy hr, ExtRat.isOne_form] at hr1
    exact of_decide_eq_false hr1
  obtain ⟨q, hq⟩ := BinaryOp.exists_onFractions? hop hr' hpow hmod
  exact ⟨q, value_binary_iff.2 ⟨x, y, hx, hy, hq⟩⟩

/-- **Finite arithmetic has a value.** -/
theorem exists_value (hcanon : i.context.CanonicalNames i.top m.store) (harith : e.Arithmetic)
    (hfin : i.FiniteTree fuel m e) : ∃ q, value (i.context.fractions i.top m.store) e = some q := by
  induction e using childInduction with
  | step e ih =>
    have hchild : ∀ c ∈ e.children, ∃ q, value (i.context.fractions i.top m.store) c = some q := by
      intro c hc
      exact ih c hc (fun s hs => harith s (.child hc hs)) (fun s hs => hfin s (.child hc hs))
    have hnode := harith e .refl
    obtain ⟨⟨r, hr, hr'⟩, -⟩ := hfin e .refl
    cases e with
    | num text =>
      have hvalue := Literal.value?_eq_some_iff.2 (read_of_yields hr)
      obtain ⟨q, rfl⟩ := (ExtRat.isFinite_iff (Literal.canonical_value? hvalue)).1 hr'
      exact ⟨q, by rw [value, hvalue, Option.bind_some, ExtRat.fraction?_form]⟩
    | var name =>
      have hname := names_of_yields hr
      obtain ⟨q, rfl⟩ := (ExtRat.isFinite_iff (hcanon hname)).1 hr'
      exact ⟨q, by rw [value, Context.fractions, hname]; exact ExtRat.fraction?_form q⟩
    | unary op p e =>
      obtain ⟨x, hx⟩ := hchild e (by simp [children])
      exact ⟨_, value_unary_iff.2 ⟨x, hx, rfl⟩⟩
    | binary op a b =>
      obtain ⟨x, hx⟩ := hchild a (by simp [children])
      obtain ⟨y, hy⟩ := hchild b (by simp [children])
      exact exists_value_binary hcanon hnode hx hy (hfin _ .refl)
    | chain op es =>
      rw [value]
      exact exists_chainValue hchild
    | _ => cases hnode

theorem finiteNode_of_value (hcanon : i.context.CanonicalNames i.top m.store)
    (hq : value (i.context.fractions i.top m.store) e = some q) : i.FiniteNode fuel m e := by
  have hyields : ∀ {e q}, value (i.context.fractions i.top m.store) e = some q →
      i.Yields fuel m e (fraction q).form := by
    intro e q h
    exact ⟨_, evaluate_of_value hcanon h⟩
  refine ⟨⟨_, hyields hq, ExtRat.isFinite_form q⟩, ?_⟩
  split
  · obtain ⟨x, y, hx, hy, hxy⟩ := value_binary_iff.1 hq
    rw [BinaryOp.onFractions?, Option.ite_none_right_eq_some] at hxy
    obtain ⟨⟨hx0, hy1, -⟩, -⟩ := hxy
    refine ⟨⟨_, hyields hx, ?_⟩, _, hyields hy, ?_⟩
    · rw [ExtRat.isZero_form]
      exact decide_eq_false hx0
    · simp [ExtRat.isInteger, form, hy1]
  · obtain ⟨x, y, hx, hy, hxy⟩ := value_binary_iff.1 hq
    rw [BinaryOp.onFractions?, Option.ite_none_left_eq_some, not_or] at hxy
    obtain ⟨⟨-, hy1⟩, -⟩ := hxy
    refine ⟨_, hyields hy, ?_⟩
    rw [ExtRat.isOne_form]
    exact decide_eq_false hy1
  · trivial

/-- And only finite arithmetic does. -/
theorem finiteTree_of_value (hcanon : i.context.CanonicalNames i.top m.store)
    (hq : value (i.context.fractions i.top m.store) e = some q) : i.FiniteTree fuel m e := by
  induction e using childInduction generalizing q with
  | step e ih =>
    refine forall_within_iff.2 ⟨finiteNode_of_value hcanon hq, ?_⟩
    intro c hc
    obtain ⟨x, hx⟩ := exists_value_of_mem_children hq hc
    exact ih c hc hx

end Interpreter

end RatCalc
