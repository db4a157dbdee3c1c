import RatCalc.Proofs.Eval.Arithmetic
import RatCalc.Proofs.Normal.Soundness
import RatCalc.Proofs.Scope

/-!
# Evaluation after normalising

A program is arithmetic, or a block whose steps are arithmetic or assign arithmetic to a name.  Normalising goes through
blocks and assignments to the arithmetic in them and keeps its values, so a program whose arithmetic is finite where it
runs gives the same value and the same store before and after.

* `Expr.steps`, `Expr.assigned` — the steps of a program, and the arithmetic of a step;
* `Interpreter.FiniteSteps` — the arithmetic of every step is finite where the step runs;
* `Interpreter.evaluate_normalize` — evaluation before and after normalising.
-/

namespace RatCalc

open Extended RatCalc.Expr

variable {φ : Type}

/-! ## programs under the passes -/

namespace Expr

/-- The steps of a block; any other tree is its own only step. -/
def steps : Expr φ → List (Expr φ)
  | .block es => es
  | e => [e]

/-- What an assignment assigns; any other tree stands for itself. -/
def assigned : Expr φ → Expr φ
  | .assign _ _ e => e
  | e => e

end Expr

section Passes

variable [DecidableEq φ]

theorem Pass.apply_assign (p : Pass) (b : Binding) (x : String) (e : Expr φ) :
    p.apply (.assign b x e) = .assign b x (p.apply e) := by
  rw [apply_eq_bottomUp, apply_eq_bottomUp, bottomUp_eq]
  cases p <;> rfl

theorem Pass.apply_block (p : Pass) (es : List (Expr φ)) : p.apply (.block es) = .block (es.map p.apply) := by
  have hmap : (p.apply : Expr φ → Expr φ) = bottomUp p.rule := funext p.apply_eq_bottomUp
  rw [hmap, bottomUp_eq]
  cases p <;> rfl

namespace Pipeline

variable (p : Pipeline)

theorem round_assign (b : Binding) (x : String) (e : Expr φ) : p.round (.assign b x e) = .assign b x (p.round e) := by
  unfold round
  induction p.passes generalizing e with
  | nil => rfl
  | cons pass ps ih => rw [List.foldl_cons, pass.apply_assign, ih, List.foldl_cons]

theorem round_block (es : List (Expr φ)) : p.round (.block es) = .block (es.map p.round) := by
  unfold round
  induction p.passes generalizing es with
  | nil => simp
  | cons pass ps ih => rw [List.foldl_cons, pass.apply_block, ih, List.map_map]; rfl

theorem iterate_round_assign (n : ℕ) (b : Binding) (x : String) (e : Expr φ) :
    p.round^[n] (.assign b x e) = .assign b x (p.round^[n] e) := by
  induction n generalizing e with
  | zero => rfl
  | succ n ih => rw [Function.iterate_succ_apply, round_assign, ih, Function.iterate_succ_apply]

theorem iterate_round_block (n : ℕ) (es : List (Expr φ)) :
    p.round^[n] (.block es) = .block (es.map p.round^[n]) := by
  induction n generalizing es with
  | zero => simp
  | succ n ih => rw [Function.iterate_succ_apply, round_block, ih, List.map_map]; rfl

end Pipeline

end Passes

/-! ## canonical numbers in scope -/

theorem canonical_standard? {name : String} {r : ExtRat} (h : (standard? name : Option (Value φ)) = some (.number r)) :
    r.Canonical := by
  rcases Option.or_eq_some_iff.1 h with hc | ⟨-, hb⟩
  · obtain ⟨as, bs, hmem, -⟩ := List.lookup_eq_some_iff.1 hc
    have hin : (name, Value.number r) ∈ (constants : List (String × Value φ)) := by rw [hmem]; simp
    simp only [constants, List.mem_cons, Prod.mk.injEq, Value.number.injEq, reduceCtorEq, and_false, List.not_mem_nil,
      or_false] at hin
    rcases hin with ⟨-, rfl⟩ | ⟨-, rfl⟩ | ⟨-, rfl⟩ | ⟨-, rfl⟩ | ⟨-, rfl⟩
    · rw [ExtRat.pi, Literal.scaled_form]
      exact canonical_form _
    · rw [ExtRat.euler, Literal.scaled_form]
      exact canonical_form _
    · exact ExtRat.canonical_reduce _ _
    · decide
    · decide
  · obtain ⟨b, -, hb⟩ := Option.map_eq_some_iff.1 hb
    cases hb

namespace Context

variable (cx : Context φ) (scope : ScopeId)

/-- All numbers that a scope or the host binds are canonical. -/
def CanonicalBindings (s : Store φ) : Prop :=
  ∀ ⦃name r⦄, (s.get? scope name).or (cx.lookup name) = some (.number r) → r.Canonical

variable {cx scope} {s : Store φ}

theorem CanonicalBindings.names (h : cx.CanonicalBindings scope s) : cx.CanonicalNames scope s := by
  intro name r hr
  rw [Context.names, ← Option.or_assoc] at hr
  rcases Option.or_eq_some_iff.1 hr with hb | ⟨-, hs⟩
  · exact h hb
  · exact canonical_standard? hs

theorem CanonicalBindings.define (h : cx.CanonicalBindings scope s) (x : String) (q : ℚ) :
    cx.CanonicalBindings scope (s.define scope x (.number (fraction q).form)) := by
  intro name r hr
  rcases Nat.lt_or_ge scope s.next with hlt | hge
  · rw [s.get?_define _ _ hlt] at hr
    split at hr
    · cases hr
      exact canonical_form _
    · exact h hr
  · rw [s.define_of_le _ _ hge] at hr
    exact h hr

end Context

/-! ## steps -/

namespace Expr

/-- The store after a step with the given value. -/
def storeAfter (scope : ScopeId) (v : Value φ) (s : Store φ) : Expr φ → Store φ
  | .assign _ x _ => s.define scope x v
  | _ => s

theorem canonicalBindings_storeAfter {cx : Context φ} {scope : ScopeId} {s : Store φ} (h : cx.CanonicalBindings scope s)
    (q : ℚ) (e : Expr φ) : cx.CanonicalBindings scope (e.storeAfter scope (.number (fraction q).form) s) := by
  unfold storeAfter
  split
  · exact h.define _ q
  · exact h

/-- A tree with a value is its own arithmetic, and binds nothing. -/
theorem step_of_value {env : String → Option ℚ} {e : Expr φ} {q : ℚ} (h : value env e = some q) :
    e.assigned = e ∧ ∀ scope v s, e.storeAfter scope v s = s := by
  cases e with
  | assign b x e => simp [value] at h
  | _ => exact ⟨rfl, fun scope v s => rfl⟩

/-- Rounds keep the value of a step and what it does to the store. -/
theorem assigned_iterate_round [DecidableEq φ] {env : String → Option ℚ} {e : Expr φ} {q : ℚ}
    (h : value env e.assigned = some q) (p : Pipeline) (n : ℕ) :
    value env (p.round^[n] e).assigned = some q ∧
      ∀ scope v s, (p.round^[n] e).storeAfter scope v s = e.storeAfter scope v s := by
  have hself : ∀ {e : Expr φ}, value env e = some q → value env (p.round^[n] e).assigned = some q ∧
      ∀ scope v s, (p.round^[n] e).storeAfter scope v s = e.storeAfter scope v s := by
    intro e he
    have hround := p.keeps_iterate_round n he
    obtain ⟨-, hafter⟩ := step_of_value he
    obtain ⟨hassigned, hafter'⟩ := step_of_value hround
    refine ⟨by rwa [hassigned], ?_⟩
    intro scope v s
    rw [hafter, hafter']
  cases e with
  | assign b x e =>
    rw [p.iterate_round_assign]
    exact ⟨p.keeps_iterate_round n h, fun scope v s => rfl⟩
  | _ => exact hself h

end Expr

section Steps

variable [Foreign φ] {cx : Context φ} {call : Value φ → List (Value φ) → Eval φ (Value φ)} {scope : ScopeId}

theorem eval_step {m : Machine φ} (hcanon : cx.CanonicalNames scope m.store) {e : Expr φ} {q : ℚ}
    (hq : value (cx.fractions scope m.store) e.assigned = some q) :
    eval cx call scope e m =
      .ok (.number (fraction q).form)
        { m with store := e.storeAfter scope (.number (fraction q).form) m.store } := by
  cases e with
  | assign b x e =>
    rw [eval]
    exact (Eval.bind_of_ok (eval_of_value hcanon hq)).trans rfl
  | _ => exact eval_of_value hcanon hq

/-- A step before others, when it succeeds. -/
theorem evalBlock_cons {e : Expr φ} {es : List (Expr φ)} (hes : es ≠ []) {m m' : Machine φ} {v : Value φ}
    (h : eval cx call scope e m = .ok v m') :
    evalBlock cx call scope (e :: es) m = evalBlock cx call scope es m' := by
  obtain ⟨e₂, es, rfl⟩ := List.exists_cons_of_ne_nil hes
  exact Eval.bind_of_ok h

theorem eval_eq_evalBlock_steps (e : Expr φ) : eval cx call scope e = evalBlock cx call scope e.steps := by
  unfold steps
  split
  · rw [eval]
  · rw [evalBlock]

theorem eval_iterate_round [DecidableEq φ] (p : Pipeline) (n : ℕ) (e : Expr φ) :
    eval cx call scope (p.round^[n] e) = evalBlock cx call scope (e.steps.map p.round^[n]) := by
  unfold steps
  split
  · rw [p.iterate_round_block, eval]
  · rw [List.map_cons, List.map_nil, evalBlock]

end Steps

namespace Interpreter

variable [Foreign φ] (i : Interpreter φ) (fuel : ℕ)

/-- The arithmetic of each step is finite where the step runs. -/
def FiniteSteps : List (Expr φ) → Machine φ → Prop
  | [], _ => True
  | e :: es, m => i.FiniteTree fuel m e.assigned ∧ ∀ v m', i.evaluate fuel e m = .ok v m' → FiniteSteps es m'

variable {i fuel} [DecidableEq φ]

variable {m : Machine φ}

/-- **Steps.**  A step of finite arithmetic gives the same value and store before and after any number of rounds. -/
theorem eval_step_iterate_round (p : Pipeline) (n : ℕ) {e : Expr φ} (hbind : i.context.CanonicalBindings i.top m.store)
    (harith : e.assigned.Arithmetic) (hfin : i.FiniteTree fuel m e.assigned) :
    ∃ v s, i.context.CanonicalBindings i.top s ∧ ∀ m₁ : Machine φ, m₁.store = m.store →
      eval i.context (callValue i.context fuel) i.top e m₁ = .ok v { m₁ with store := s } ∧
      eval i.context (callValue i.context fuel) i.top (p.round^[n] e) m₁ = .ok v { m₁ with store := s } := by
  obtain ⟨q, hq⟩ := exists_value hbind.names harith hfin
  obtain ⟨hq', hafter⟩ := assigned_iterate_round hq p n
  refine ⟨.number (fraction q).form, _, canonicalBindings_storeAfter hbind q e, ?_⟩
  intro m₁ hm₁
  rw [← hm₁] at hbind hq hq' ⊢
  refine ⟨eval_step hbind.names hq, ?_⟩
  rw [← hafter]
  exact eval_step hbind.names hq'

/-- **Blocks.**  And so do the steps of a block, one after the other. -/
theorem evalBlock_iterate_round (p : Pipeline) (n : ℕ) {es : List (Expr φ)}
    (hbind : i.context.CanonicalBindings i.top m.store) (harith : ∀ e ∈ es, e.assigned.Arithmetic)
    (hfin : i.FiniteSteps fuel es m) :
    ∃ v s, ∀ m₁ : Machine φ, m₁.store = m.store →
      evalBlock i.context (callValue i.context fuel) i.top es m₁ = .ok v { m₁ with store := s } ∧
      evalBlock i.context (callValue i.context fuel) i.top (es.map p.round^[n]) m₁ = .ok v { m₁ with store := s } := by
  -- by the steps, with the machine after the first one for the rest
  induction es generalizing m with
  | nil =>
    refine ⟨.unit, m.store, ?_⟩
    intro m₁ hm₁
    rw [List.map_nil, evalBlock, ← hm₁]
    exact ⟨rfl, rfl⟩
  | cons e es ih =>
    obtain ⟨hfin, hrest⟩ := hfin
    obtain ⟨v, s, hbind', hstep⟩ := eval_step_iterate_round p n hbind (harith e (by simp)) hfin
    by_cases hes : es = []
    · subst hes
      refine ⟨v, s, ?_⟩
      intro m₁ hm₁
      rw [List.map_cons, List.map_nil, evalBlock, evalBlock]
      exact hstep m₁ hm₁
    · have hrun : i.evaluate fuel e m = .ok v { entry m e with store := s } := (hstep (entry m e) rfl).1
      obtain ⟨w, t, hwt⟩ := ih hbind' (fun e' he' => harith e' (by simp [he'])) (hrest _ _ hrun)
      refine ⟨w, t, ?_⟩
      intro m₁ hm₁
      obtain ⟨h1, h2⟩ := hstep m₁ hm₁
      rw [List.map_cons, evalBlock_cons hes h1, evalBlock_cons (by simpa using hes) h2]
      exact hwt _ rfl

/-- **Normalising keeps the meaning of finite arithmetic.**  Let the arithmetic of a program be finite where it runs.  If
evaluating the program gives a value, then evaluating its normal form from the same machine gives the same value and leaves
the same bindings, however many rounds are allowed. -/
theorem evaluate_normalize {p : Expr φ} {m' : Machine φ} {v : Value φ}
    (hbind : i.context.CanonicalBindings i.top m.store) (harith : ∀ e ∈ p.steps, e.assigned.Arithmetic)
    (hfin : i.FiniteSteps fuel p.steps m) (hrun : i.evaluate fuel p m = .ok v m') (k : ℕ) :
    ∃ m'', i.evaluate fuel ((Pipeline.withMaxRounds {} k).normalize p) m = .ok v m'' ∧ m''.store = m'.store := by
  obtain ⟨n, hn⟩ := (Pipeline.withMaxRounds {} k).exists_iterate_eq (max k 1) p
  have hnormal : (Pipeline.withMaxRounds {} k).normalize p = (Pipeline.withMaxRounds {} k).round^[n] p := hn
  obtain ⟨w, s, hvs⟩ := evalBlock_iterate_round (Pipeline.withMaxRounds {} k) n hbind harith hfin
  rw [evaluate_eq, eval_eq_evalBlock_steps, (hvs (entry m p) rfl).1] at hrun
  cases hrun
  rw [evaluate_eq, hnormal, eval_iterate_round, (hvs (entry m _) rfl).2]
  exact ⟨_, rfl, rfl⟩

end Interpreter

/-! ## an example -/

/-- A host without values of its own. -/
instance : Foreign Empty where
  kind := nofun
  render := nofun
  same := nofun

/-- `x = 1.5 - y` -/
def Expr.assignDifference : Expr Empty := .assign .fresh "x" (.binary .sub (.num "1.5") (.var "y"))

/-- `x% / (2 * 3 ^ -2 * (7 mod 4))` -/
def Expr.divideByChain : Expr Empty :=
  .binary .div (.unary .percent .after (.var "x"))
    (.chain .mul [.num "2", .binary .pow (.num "3") (.num "-2"), .binary .mod (.num "7") (.num "4")])

/-- A machine whose only scope binds `y` to one half. -/
def Machine.bindingHalf : Machine Empty := { store := ⟨#[{ bindings := [("y", .number ⟨1, 2⟩)] }]⟩ }

theorem Machine.get?_bindingHalf (name : String) :
    Machine.bindingHalf.store.get? 0 name = if name = "y" then some (.number ⟨1, 2⟩) else none := by
  have hscope : Machine.bindingHalf.store.scopes[0]? = some { bindings := [("y", .number ⟨1, 2⟩)] } := rfl
  rw [Store.get?, Store.chain_eq _ hscope, List.findSome?_cons, Bindings.lookup_cons_eq]
  by_cases h : name = "y" <;> simp [h]

theorem Machine.canonicalBindings_bindingHalf : Context.CanonicalBindings {} 0 Machine.bindingHalf.store := by
  intro name r h
  rw [Machine.get?_bindingHalf] at h
  split at h
  · cases h
    decide
  · cases h

theorem Expr.value_assignDifference {env : String → Option ℚ} (h : env "y" = some (1 / 2)) :
    value env assignDifference.assigned = some 1 := by
  have hnum : Literal.value? "1.5" = some ⟨3, 2⟩ := by decide
  norm_num [assignDifference, assigned, value, hnum, h, ExtRat.fraction?, BinaryOp.onFractions?]

theorem Expr.value_divideByChain {env : String → Option ℚ} (h : env "x" = some 1) :
    value env divideByChain.assigned = some (3 / 200) := by
  have h2 : Literal.value? "2" = some ⟨2, 1⟩ := by decide
  have h3 : Literal.value? "3" = some ⟨3, 1⟩ := by decide
  have h2' : Literal.value? "-2" = some ⟨-2, 1⟩ := by decide
  have h7 : Literal.value? "7" = some ⟨7, 1⟩ := by decide
  have h4 : Literal.value? "4" = some ⟨4, 1⟩ := by decide
  norm_num [divideByChain, assigned, value, chainValue, h, h2, h3, h2', h7, h4, ExtRat.fraction?, BinaryOp.onFractions?,
    UnaryOp.onFraction, ChainOp.onFractions, ChainOp.neutral]

theorem Interpreter.evaluate_normalize_divideByChain :
    let i : Interpreter Empty := { top := 0 }
    let m := Machine.bindingHalf
    let p : Expr Empty := .block [assignDifference, divideByChain]
    i.context.CanonicalBindings i.top m.store ∧ (∀ e ∈ p.steps, e.assigned.Arithmetic) ∧ i.FiniteSteps 0 p.steps m ∧
      ∃ m' m'', i.evaluate 0 p m = .ok (.number ⟨3, 200⟩) m' ∧
        i.evaluate 0 ((Pipeline.withMaxRounds {} 1).normalize p) m = .ok (.number ⟨3, 200⟩) m'' ∧
        m''.store = m'.store := by
  intro i m p
  have hbind : i.context.CanonicalBindings i.top m.store := Machine.canonicalBindings_bindingHalf
  have hy : i.context.fractions i.top m.store "y" = some (1 / 2) := by
    norm_num [Context.fractions, Context.names, i, m, Machine.get?_bindingHalf, ExtRat.fraction?]
  have h1 := value_assignDifference hy
  -- the store of the second step binds `x` too
  have hbind' := hbind.define "x" 1
  have hx : i.context.fractions i.top (m.store.define i.top "x" (.number (fraction 1).form)) "x" = some 1 := by
    rw [Context.fractions, Context.names, m.store.get?_define _ _ (by decide), if_pos rfl]
    exact ExtRat.fraction?_form 1
  have h2 := value_divideByChain hx
  have hstep1 : ∀ m₁ : Machine Empty, m₁.store = m.store →
      eval i.context (callValue i.context 0) i.top assignDifference m₁ =
        .ok (.number (fraction 1).form) { m₁ with store := m.store.define i.top "x" (.number (fraction 1).form) } := by
    intro m₁ hm₁
    rw [← hm₁] at hbind h1 ⊢
    exact eval_step hbind.names h1
  have hstep2 : ∀ m₁ : Machine Empty, m₁.store = m.store.define i.top "x" (.number (fraction 1).form) →
      eval i.context (callValue i.context 0) i.top divideByChain m₁ = .ok (.number (fraction (3 / 200)).form) m₁ := by
    intro m₁ hm₁
    rw [← hm₁] at hbind' h2
    exact eval_step hbind'.names h2
  have harith : ∀ e ∈ p.steps, e.assigned.Arithmetic := by
    intro e he
    rcases List.mem_pair.1 he with rfl | rfl
    · exact arithmetic_of_value h1
    · exact arithmetic_of_value h2
  have hfin : i.FiniteSteps 0 p.steps m := by
    refine ⟨finiteTree_of_value hbind.names h1, ?_⟩
    intro v m' hv
    refine ⟨?_, fun _ _ _ => trivial⟩
    rw [evaluate_eq, hstep1 (entry m assignDifference) rfl] at hv
    cases hv
    exact finiteTree_of_value hbind'.names h2
  have hform : (fraction (3 / 200)).form = ⟨3, 200⟩ := by decide +kernel
  have hblock : evalBlock i.context (callValue i.context 0) i.top [assignDifference, divideByChain] (entry m p) = _ :=
    (evalBlock_cons (List.cons_ne_nil _ _) (hstep1 (entry m p) rfl)).trans
      (hstep2 { entry m p with store := m.store.define i.top "x" (.number (fraction 1).form) } rfl)
  rw [hform] at hblock
  have hrun : i.evaluate 0 p m = _ := (congrFun (eval_eq_evalBlock_steps p) (entry m p)).trans hblock
  obtain ⟨m'', hnormal, hstore⟩ := evaluate_normalize hbind harith hfin hrun 1
  exact ⟨hbind, harith, hfin, _, m'', hrun, hnormal, hstore⟩

end RatCalc
