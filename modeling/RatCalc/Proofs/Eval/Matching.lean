import RatCalc.Proofs.Session
import RatCalc.Proofs.Normal.Contents
import RatCalc.Proofs.Value.Stores

/-!
# Matched runs

Two runs of one tree go through the same steps if the scopes that they look at show values that are alike.  The scopes
need not have the same numbers, and of those that nobody looks at nothing is asked.

Which scopes of the runs belong together may change while new ones are made, so the relations between scopes, and
between the values that refer to them, are indexed by the number of scopes that the first run has by then.

* `Matching` — the stores, scopes, literals, names and errors that the runs may have at the same moment;
* `Matching.Lawful` — definitions and new scopes keep stores matched, and matched scopes show values that are alike;
* `Matching.Mirrors` — from matched machines, the second evaluation ends as the first does;
* `mirrors_eval`, `mirrors_callValue`, `mirrors_perform` — evaluations, calls and operations mirror themselves.
-/

set_option linter.unusedSectionVars false

namespace RatCalc

variable {φ α β : Type}

/-- How two runs are compared. -/
structure Matching (φ : Type) where
  /-- The stores that the runs may have at the same moment. -/
  Stores : Store φ → Store φ → Prop
  /-- The scopes in which they may evaluate. -/
  Scopes : ℕ → ScopeId → ScopeId → Prop
  /-- The scopes that their closures may have. -/
  Captures : ℕ → ScopeId → ScopeId → Prop
  /-- The literals that they may come across. -/
  Literals : String → Prop
  /-- The names that they may bind in a scope of the first. -/
  Names : ScopeId → String → Prop
  /-- The errors with which both may end. -/
  Errors : EvalError → Prop

namespace Matching

section

variable (c : Matching φ)

/-- The bodies that closures may have. -/
def Bodies (e : Expr φ) : Prop := ∀ text ∈ e.literals, c.Literals text

/-- The values that the runs may have at the same moment. -/
abbrev Values (k : ℕ) : Value φ → Value φ → Prop := Value.Alike (c.Captures k) c.Bodies

abbrev Lists (k : ℕ) : List (Value φ) → List (Value φ) → Prop := List.Forall₂ (c.Values k)

/-- The steps of a call with which they may end. -/
inductive Steps (k : ℕ) : Step φ → Step φ → Prop
  | done {v v' : Value φ} (hv : c.Values k v v') : Steps k (.done v) (.done v')
  | tail {f f' : Value φ} {args args' : List (Value φ)} (hf : c.Values k f f') (hargs : c.Lists k args args') :
      Steps k (.tail f args) (.tail f' args')

/-- What a matching must satisfy. -/
structure Lawful [Foreign φ] (cx : Context φ) : Prop where
  scopes_mono : ∀ {k k' i i'}, k ≤ k' → c.Scopes k i i' → c.Scopes k' i i'
  captures_mono : ∀ {k k' i i'}, k ≤ k' → c.Captures k i i' → c.Captures k' i i'
  /-- Live closures have the scope in which they are made. -/
  captures_of_live : cx.config.capture = .live → ∀ {k i i'}, c.Scopes k i i' → c.Captures k i i'
  chains : ∀ {s s' i i'}, c.Stores s s' → c.Scopes s.next i i' → s.ChainsAlike (c.Captures s.next) c.Bodies s' i i'
  define : ∀ {s s' i i' x v v'}, c.Stores s s' → c.Scopes s.next i i' → c.Names i x → c.Values s.next v v' →
    c.Stores (s.define i x v) (s'.define i' x v')
  push : ∀ {s s' scope scope'}, c.Stores s s' → scope.Alike (c.Captures s.next) c.Bodies scope' →
    c.Stores (s.push scope) (s'.push scope')
  /-- A new scope may be evaluated in, captured and written. -/
  fresh : ∀ {s s'}, c.Stores s s' → c.Scopes (s.next + 1) s.next s'.next ∧ c.Captures (s.next + 1) s.next s'.next ∧
    ∀ x, c.Names s.next x
  literals : ∀ text, Literal.WellFormed text → c.Literals text
  errors : ∀ e : EvalError, ¬ e.IsMalformed → c.Errors e
  errors_of_literals : ∀ {text fault}, c.Literals text → Literal.read text = .error fault →
    c.Errors (.malformedLiteral text fault)
  host : ∀ {s s'}, c.Stores s s' → Foreign.Respects φ (c.Captures s.next) c.Bodies c.Errors
  lookup : ∀ {s s' x v}, c.Stores s s' → cx.lookup x = some v → c.Values s.next v v

/-- The machines that the runs may have at the same moment. -/
structure Machines (m m' : Machine φ) : Prop where
  depth : m.depth = m'.depth
  stores : c.Stores m.store m'.store

/-- The endings of compared runs, from `k` scopes on. -/
inductive Ends (R : ℕ → α → α → Prop) (k : ℕ) : Outcome φ α → Outcome φ α → Prop
  | ok {a a' : α} {m m' : Machine φ} (hk : k ≤ m.store.next) (h : R m.store.next a a') (hm : c.Machines m m') :
      Ends R k (.ok a m) (.ok a' m')
  | error {e : EvalError} {m m' : Machine φ} (hk : k ≤ m.store.next) (he : c.Errors e) (hm : c.Machines m m') :
      Ends R k (.error e m) (.error e m')
  | spent : Ends R k .outOfFuel .outOfFuel

/-- From matched machines with `k` scopes or more, the second evaluation ends as the first does. -/
def Mirrors (R : ℕ → α → α → Prop) (k : ℕ) (x y : Eval φ α) : Prop :=
  ∀ ⦃m m'⦄, k ≤ m.store.next → c.Machines m m' → c.Ends R m.store.next (x m) (y m')

/-- Two ways to make calls mirror each other. -/
def CallsMirror (call call' : Value φ → List (Value φ) → Eval φ (Value φ)) : Prop :=
  ∀ ⦃k f f' args args'⦄, c.Values k f f' → c.Lists k args args' → c.Mirrors c.Values k (call f args) (call' f' args')

end

variable {c : Matching φ} {R : ℕ → α → α → Prop} {R' : ℕ → β → β → Prop} {k k' : ℕ}

theorem Ends.from_le {o o' : Outcome φ α} (h : c.Ends R k' o o') (hk : k ≤ k') : c.Ends R k o o' := by
  cases h with
  | ok hk' h hm => exact .ok (hk.trans hk') h hm
  | error hk' he hm => exact .error (hk.trans hk') he hm
  | spent => exact .spent

theorem Ends.onMachine {o o' : Outcome φ α} (h : c.Ends R k o o') (d : ℕ) :
    c.Ends R k (o.onMachine ({ · with depth := d })) (o'.onMachine ({ · with depth := d })) := by
  cases h with
  | ok hk h hm => exact .ok hk h ⟨rfl, hm.stores⟩
  | error hk he hm => exact .error hk he ⟨rfl, hm.stores⟩
  | spent => exact .spent

/-- What a run that mirrors itself keeps and gives. -/
theorem Mirrors.self {x : Eval φ α} (h : c.Mirrors R k x x) {m : Machine φ} (hk : k ≤ m.store.next)
    (hm : c.Machines m m) :
    (∀ m', (x m).machine? = some m' → m.store.next ≤ m'.store.next ∧ c.Machines m' m') ∧
      (∀ a m', x m = .ok a m' → R m'.store.next a a) ∧ ∀ e m', x m = .error e m' → c.Errors e := by
  have hends := h hk hm
  generalize x m = o at hends ⊢
  cases o with
  | ok a m₁ =>
    cases hends with
    | ok hk₁ ha hm₁ => simp [Outcome.machine?, hk₁, ha, hm₁]
  | error e m₁ =>
    cases hends with
    | error hk₁ he hm₁ => simp [Outcome.machine?, hk₁, he, hm₁]
  | outOfFuel => simp [Outcome.machine?]

/-! ## steps -/

theorem Mirrors.bind {x y : Eval φ α} {f g : α → Eval φ β} (hx : c.Mirrors R k x y)
    (hf : ∀ k' a a', k ≤ k' → R k' a a' → c.Mirrors R' k' (f a) (g a')) : c.Mirrors R' k (x >>= f) (y >>= g) := by
  intro m m' hk hm
  show c.Ends R' m.store.next (Eval.bind x f m) (Eval.bind y g m')
  unfold Eval.bind
  have hxy := hx hk hm
  generalize x m = o at hxy
  generalize y m' = o' at hxy
  cases hxy with
  | ok hk₁ h hm₁ => exact (hf _ _ _ (hk.trans hk₁) h le_rfl hm₁).from_le hk₁
  | error hk₁ he hm₁ => exact .error hk₁ he hm₁
  | spent => exact .spent

theorem Mirrors.ite {p p' : Prop} [Decidable p] [Decidable p'] (hp : p ↔ p') {x y z w : Eval φ α}
    (hx : c.Mirrors R k x y) (hz : c.Mirrors R k z w) : c.Mirrors R k (if p then x else z) (if p' then y else w) := by
  by_cases h : p
  · rw [if_pos h, if_pos (hp.1 h)]
    exact hx
  · rw [if_neg h, if_neg (hp.not.1 h)]
    exact hz

theorem mirrors_pure {a a' : α} (h : ∀ k', k ≤ k' → R k' a a') : c.Mirrors R k (pure a) (pure a') :=
  fun m _ hk hm => .ok le_rfl (h m.store.next hk) hm

theorem mirrors_same (a : α) : c.Mirrors (fun _ => Eq) k (pure a) (pure a) := mirrors_pure fun _ _ => rfl

theorem mirrors_fail {e : EvalError} (he : c.Errors e) : c.Mirrors R k (Eval.fail e) (Eval.fail e) :=
  fun _ _ _ hm => .error le_rfl he hm

theorem mirrors_ofExcept {r r' : Except EvalError α}
    (h : ∀ s s', c.Stores s s' → k ≤ s.next → SameResult (R s.next) c.Errors r r') :
    c.Mirrors R k (Eval.ofExcept r) (Eval.ofExcept r') := by
  intro m m' hk hm
  have hr := h _ _ hm.stores hk
  clear h
  cases hr with
  | ok h => exact .ok le_rfl h hm
  | error he => exact .error le_rfl he hm

/-- The logs may differ. -/
theorem mirrors_note (event event' : Event φ) : c.Mirrors (fun _ => Eq) k (Eval.note event) (Eval.note event') :=
  fun _ _ _ hm => .ok le_rfl rfl ⟨hm.depth, hm.stores⟩

theorem mirrors_noteAll (events events' : List (Event φ)) :
    c.Mirrors (fun _ => Eq) k (Eval.noteAll events) (Eval.noteAll events') :=
  fun _ _ _ hm => .ok le_rfl rfl ⟨hm.depth, hm.stores⟩

variable [Foreign φ] {cx : Context φ} (hc : c.Lawful cx)
include hc

theorem Lawful.values_mono (hk : k ≤ k') {v v' : Value φ} (h : c.Values k v v') : c.Values k' v v' :=
  h.mono (fun _ _ => hc.captures_mono hk) fun _ => id

theorem Lawful.lists_mono (hk : k ≤ k') {vs vs' : List (Value φ)} (h : c.Lists k vs vs') : c.Lists k' vs vs' :=
  List.Forall₂.imp (fun _ _ => hc.values_mono hk) h

theorem mirrors_value {v v' : Value φ} (h : c.Values k v v') : c.Mirrors c.Values k (pure v) (pure v') :=
  mirrors_pure fun _ hk => hc.values_mono hk h

theorem mirrors_done {v v' : Value φ} (h : c.Values k v v') :
    c.Mirrors c.Steps k (pure (.done v)) (pure (.done v')) :=
  mirrors_pure fun _ hk => .done (hc.values_mono hk h)

theorem mirrors_tail {f f' : Value φ} {args args' : List (Value φ)} (hf : c.Values k f f')
    (hargs : c.Lists k args args') : c.Mirrors c.Steps k (pure (.tail f args)) (pure (.tail f' args')) :=
  mirrors_pure fun _ hk => .tail (hc.values_mono hk hf) (hc.lists_mono hk hargs)

theorem mirrors_unary (op : UnaryOp) {v v' : Value φ} (hv : c.Values k v v') :
    c.Mirrors c.Values k (Eval.ofExcept (v.unary op)) (Eval.ofExcept (v'.unary op)) :=
  mirrors_ofExcept fun _ _ hs hk => Value.alike_unary (hc.host hs) op (hc.values_mono hk hv)

theorem mirrors_binary (op : BinaryOp) {v v' w w' : Value φ} (hv : c.Values k v v') (hw : c.Values k w w') :
    c.Mirrors c.Values k (Eval.ofExcept (v.binary op w)) (Eval.ofExcept (v'.binary op w')) :=
  mirrors_ofExcept fun _ _ hs hk =>
    Value.alike_binary hc.errors (hc.host hs) op (hc.values_mono hk hv) (hc.values_mono hk hw)

/-! ## scopes -/

theorem mirrors_get? {i i' : ScopeId} (hi : c.Scopes k i i') (x : String) :
    c.Mirrors (fun k => Option.Rel (c.Values k)) k (Eval.get? i x) (Eval.get? i' x) :=
  fun _ _ hk hm => .ok le_rfl ((hc.chains hm.stores (hc.scopes_mono hk hi)).get? x) hm

theorem mirrors_define {i i' : ScopeId} (hi : c.Scopes k i i') {x : String} (hx : c.Names i x) {v v' : Value φ}
    (hv : c.Values k v v') : c.Mirrors (fun _ => Eq) k (Eval.define i x v) (Eval.define i' x v') := by
  intro m m' hk hm
  have hstores := hc.define hm.stores (hc.scopes_mono hk hi) hx (hc.values_mono hk hv)
  exact .ok (m.store.next_define x v i).ge rfl ⟨hm.depth, hstores⟩

/-- A new scope may be used for everything. -/
theorem mirrors_pushScope {make make' : Store φ → Scope φ}
    (h : ∀ s s', c.Stores s s' → k ≤ s.next → (make s).Alike (c.Captures s.next) c.Bodies (make' s')) :
    c.Mirrors (fun k i i' => c.Scopes k i i' ∧ c.Captures k i i' ∧ ∀ x, c.Names i x) k (Eval.pushScope make)
      (Eval.pushScope make') := by
  intro m m' hk hm
  have hnext := m.store.next_push (make m.store)
  refine .ok (hnext.ge.trans' (Nat.le_succ _)) ?_ ⟨hm.depth, hc.push hm.stores (h _ _ hm.stores hk)⟩
  show c.Scopes (m.store.push (make m.store)).next m.store.next m'.store.next ∧ _
  rw [hnext]
  exact hc.fresh hm.stores

section Calls

variable {call call' : Value φ → List (Value φ) → Eval φ (Value φ)} {i i' : ScopeId}

/-! ## limits and built-in functions -/

section Functions

variable (hcall : c.CallsMirror call call')
include hcall

theorem mirrors_probe {f f' : Value φ} (hf : c.Values k f f') (x : ExtRat) :
    c.Mirrors (fun _ => Eq) k (Limit.probe call f x) (Limit.probe call' f' x) := by
  refine (hcall hf (.cons (.number x) .nil)).bind ?_
  intro k' v v' hk hv
  have hkind := hv.kind_eq
  cases hv with
  | number y => exact mirrors_same y
  | _ =>
    dsimp only
    rw [hkind]
    exact mirrors_fail (hc.errors _ id)

theorem mirrors_approach {f f' : Value φ} (hf : c.Values k f f') (place : ExtRat → ExtRat) (n : ℕ) (gap : ExtRat)
    (trend : Option Limit.Trend) : c.Mirrors (fun _ => Eq) k (Limit.approach call f place n gap trend)
      (Limit.approach call' f' place n gap trend) := by
  induction n generalizing k gap trend with
  | zero => cases trend <;> exact mirrors_same _
  | succ n ih =>
    rw [Limit.approach, Limit.approach]
    refine (mirrors_probe hc hcall hf _).bind ?_
    rintro k₁ y _ hk₁ rfl
    refine (mirrors_note _ _).bind ?_
    rintro k₂ _ _ hk₂ rfl
    cases Limit.judge trend y with
    | error settled => exact mirrors_same _
    | ok trend => exact ih (hc.values_mono (hk₁.trans hk₂) hf) _ _

theorem mirrors_limit {f f' : Value φ} (hf : c.Values k f f') (point : ExtRat) (side : Approach) :
    c.Mirrors c.Values k (Limit.limit call f point side) (Limit.limit call' f' point side) := by
  refine (hcall hf (.cons (.number point) .nil)).bind ?_
  intro k₁ v v' hk₁ hv
  have hf₁ := hc.values_mono hk₁ hf
  refine Mirrors.ite (by cases hv <;> rfl) (mirrors_value hc hv) ?_
  have hnumber : ∀ {k₂} (y : ExtRat), c.Mirrors c.Values k₂ (pure (.number y)) (pure (.number y)) :=
    fun y => mirrors_value hc (.number y)
  cases side with
  | left =>
    refine (mirrors_approach hc hcall hf₁ _ _ _ _).bind ?_
    rintro k₂ y _ - rfl
    exact hnumber y
  | right =>
    refine (mirrors_approach hc hcall hf₁ _ _ _ _).bind ?_
    rintro k₂ y _ - rfl
    exact hnumber y
  | both =>
    refine (mirrors_approach hc hcall hf₁ _ _ _ _).bind ?_
    rintro k₂ y _ hk₂ rfl
    refine (mirrors_approach hc hcall (hc.values_mono hk₂ hf₁) _ _ _ _).bind ?_
    rintro k₃ z _ - rfl
    exact hnumber _

theorem mirrors_run (b : Builtin) {args args' : List (Value φ)} (hargs : c.Lists k args args') :
    c.Mirrors c.Values k (b.run call args) (b.run call' args') := by
  have hextremum : ∀ (b : Builtin) keep, c.Mirrors c.Values k (Eval.ofExcept (b.extremum keep none args))
      (Eval.ofExcept (b.extremum keep none args')) := fun b keep =>
    mirrors_ofExcept fun _ _ _ hk => Builtin.alike_extremum hc.errors b keep none (hc.lists_mono hk hargs)
  have hwrong : ∀ b : Builtin, c.Mirrors c.Values k
      (Eval.fail (.wrongArgumentCount b.name b.arity.minimum args.length))
      (Eval.fail (.wrongArgumentCount b.name b.arity.minimum args'.length)) := by
    intro b
    rw [hargs.length_eq]
    exact mirrors_fail (hc.errors _ id)
  -- the arguments are split as far as the function looks at them
  cases hargs with
  | nil => cases b <;> exact hwrong _
  | cons hv hvs =>
    cases hvs with
    | nil =>
      have hmap : ∀ (b : Builtin) f, c.Mirrors c.Values k (Eval.ofExcept (b.mapNumber f _))
          (Eval.ofExcept (b.mapNumber f _)) := fun b f =>
        mirrors_ofExcept fun _ _ _ hk => Builtin.alike_mapNumber hc.errors b f (hc.values_mono hk hv)
      cases b with
      | min => exact hextremum .min .lt
      | max => exact hextremum .max .gt
      | root | limit | compose => exact hwrong _
      | _ => exact hmap _ _
    | cons hw hws =>
      cases hws with
      | nil =>
        cases b with
        | min => exact hextremum .min .lt
        | max => exact hextremum .max .gt
        | root =>
          exact mirrors_ofExcept fun _ _ _ hk =>
            Builtin.alike_rootOf hc.errors (hc.values_mono hk hv) (hc.values_mono hk hw)
        | compose => exact mirrors_binary hc .compose hv hw
        | limit side =>
          have hpoint : c.Mirrors (fun _ => Eq) k (Eval.ofExcept ((Builtin.limit side).numeric _))
              (Eval.ofExcept ((Builtin.limit side).numeric _)) :=
            mirrors_ofExcept fun _ _ _ hk => Builtin.alike_numeric hc.errors _ (hc.values_mono hk hw)
          refine hpoint.bind ?_
          rintro k₁ point _ hk₁ rfl
          cases point with
          | none => exact mirrors_value hc .unit
          | some point => exact mirrors_limit hc hcall (hc.values_mono hk₁ hv) point side
        | _ => exact hwrong _
      | cons hu hus =>
        cases b with
        | min => exact hextremum .min .lt
        | max => exact hextremum .max .gt
        | _ => exact hwrong _

end Functions

/-! ## names and literals -/

theorem mirrors_resolve (hi : c.Scopes k i i') (x : String) :
    c.Mirrors c.Values k (resolve cx i x) (resolve cx i' x) := by
  refine (mirrors_get? hc hi x).bind ?_
  intro k₁ found found' _ hfound
  cases hfound with
  | some hv => exact mirrors_value hc hv
  | none =>
    intro m m' _ hm
    cases hlookup : cx.lookup x with
    | some v => exact .ok le_rfl (hc.lookup hm.stores hlookup) hm
    | none =>
      cases hstandard : (standard? x : Option (Value φ)) with
      | some v => exact .ok le_rfl (Value.alike_of_closures_eq_nil (Value.closures_standard? hstandard)) hm
      | none => exact .error le_rfl (hc.errors _ id) hm

theorem mirrors_close (hi : c.Scopes k i i') (params : List String) {body : Expr φ} (hbody : c.Bodies body) :
    c.Mirrors c.Values k (close cx i params body) (close cx i' params body) := by
  unfold close
  cases hcapture : cx.config.capture with
  | live => exact mirrors_value hc (.closure hbody (hc.captures_of_live hcapture hi))
  | snapshot =>
    refine (mirrors_pushScope hc ?_).bind ?_
    · exact fun s s' hs hk => ⟨(hc.chains hs (hc.scopes_mono hk hi)).visible, .none⟩
    · rintro k' j j' - ⟨-, hj, -⟩
      exact mirrors_value hc (.closure hbody hj)

theorem mirrors_evalLiteral {text : String} (h : c.Literals text) :
    c.Mirrors c.Values k (evalLiteral text) (evalLiteral text) := by
  unfold evalLiteral
  cases hread : Literal.read text with
  | ok r => exact mirrors_value hc (.number r)
  | error fault => exact mirrors_fail (hc.errors_of_literals h hread)

/-! ## trees -/

section Trees

variable (hcall : c.CallsMirror call call')
include hcall

mutual
/-- **Evaluations mirror themselves if their calls do.** -/
theorem mirrors_eval : ∀ (e : Expr φ) {k : ℕ}, c.Scopes k i i' → e.Confined c.Literals (c.Names i) →
    c.Mirrors c.Values k (eval cx call i e) (eval cx call' i' e)
  | .num text, k, _, h => by
    rw [eval, eval]
    exact mirrors_evalLiteral hc (Expr.confined_num.1 h)
  | .var x, k, hi, _ => by
    rw [eval, eval]
    exact mirrors_resolve hc hi x
  | .assign _ x e, k, hi, h => by
    obtain ⟨hx, he⟩ := Expr.confined_assign.1 h
    rw [eval, eval]
    refine (mirrors_eval e hi he).bind ?_
    intro k₁ v v' hk₁ hv
    refine (mirrors_define hc (hc.scopes_mono hk₁ hi) hx hv).bind ?_
    intro k₂ _ _ hk₂ _
    exact mirrors_value hc (hc.values_mono hk₂ hv)
  | .lambda params body, k, hi, h => by
    rw [eval, eval]
    exact mirrors_close hc hi params (Expr.confined_lambda.1 h)
  | .choice bs, k, hi, h => by
    rw [eval, eval]
    exact mirrors_evalChoice bs.length bs hi (Expr.confined_choice.1 h)
  | .apply f as, k, hi, h => by
    obtain ⟨hf, has⟩ := Expr.confined_apply.1 h
    rw [eval, eval]
    refine (mirrors_eval f hi hf).bind ?_
    intro k₁ v v' hk₁ hv
    refine (mirrors_evalList as (hc.scopes_mono hk₁ hi) has).bind ?_
    intro k₂ args args' hk₂ hargs
    exact hcall (hc.values_mono hk₂ hv) hargs
  | .supply as f, k, hi, h => by
    obtain ⟨has, hf⟩ := Expr.confined_supply.1 h
    rw [eval, eval]
    refine (mirrors_evalList as hi has).bind ?_
    intro k₁ bound bound' hk₁ hbound
    refine (mirrors_eval f (hc.scopes_mono hk₁ hi) hf).bind ?_
    intro k₂ v v' hk₂ hv
    exact mirrors_value hc (.supplied (hc.lists_mono hk₂ hbound) hv)
  | .unary op _ e, k, hi, h => by
    rw [eval, eval]
    refine (mirrors_eval e hi (Expr.confined_unary.1 h)).bind ?_
    intro k₁ v v' _ hv
    exact mirrors_unary hc op hv
  | .binary op a b, k, hi, h => by
    obtain ⟨ha, hb⟩ := Expr.confined_binary.1 h
    rw [eval, eval]
    refine (mirrors_eval a hi ha).bind ?_
    intro k₁ v v' hk₁ hv
    refine Mirrors.ite (by rw [hv.decides_eq op]) (mirrors_value hc hv) ?_
    refine (mirrors_eval b (hc.scopes_mono hk₁ hi) hb).bind ?_
    intro k₂ w w' hk₂ hw
    exact mirrors_binary hc op (hc.values_mono hk₂ hv) hw
  | .chain op es, k, hi, h => by
    rw [eval, eval]
    exact mirrors_evalChain op es hi (Expr.confined_chain.1 h)
  | .block es, k, hi, h => by
    rw [eval, eval]
    exact mirrors_evalBlock es hi (Expr.confined_block.1 h)
  | .unit, k, _, _ => by
    rw [eval, eval]
    exact mirrors_value hc .unit
  | .foreign x, k, _, _ => by
    rw [eval, eval]
    exact mirrors_value hc (.foreign x)
theorem mirrors_evalList : ∀ (es : List (Expr φ)) {k : ℕ}, c.Scopes k i i' →
    (∀ e ∈ es, e.Confined c.Literals (c.Names i)) →
      c.Mirrors c.Lists k (evalList cx call i es) (evalList cx call' i' es)
  | [], k, _, _ => by
    rw [evalList, evalList]
    exact mirrors_pure fun _ _ => .nil
  | e :: es, k, hi, h => by
    obtain ⟨he, hes⟩ := List.forall_mem_cons.1 h
    rw [evalList, evalList]
    refine (mirrors_eval e hi he).bind ?_
    intro k₁ v v' hk₁ hv
    refine (mirrors_evalList es (hc.scopes_mono hk₁ hi) hes).bind ?_
    intro k₂ vs vs' hk₂ hvs
    exact mirrors_pure fun _ hk₃ => .cons (hc.values_mono (hk₂.trans hk₃) hv) (hc.lists_mono hk₃ hvs)
theorem mirrors_evalChain (op : ChainOp) : ∀ (es : List (Expr φ)) {k : ℕ}, c.Scopes k i i' →
    (∀ e ∈ es, e.Confined c.Literals (c.Names i)) →
      c.Mirrors c.Values k (evalChain cx call i op es) (evalChain cx call' i' op es)
  | [], k, _, _ => by
    have hidentity : Literal.WellFormed op.identity := by
      cases op with
      | add => exact ⟨⟨0, 1⟩, by decide⟩
      | mul => exact ⟨⟨1, 1⟩, by decide⟩
    rw [evalChain, evalChain]
    exact mirrors_evalLiteral hc (hc.literals _ hidentity)
  | e :: es, k, hi, h => by
    obtain ⟨he, hes⟩ := List.forall_mem_cons.1 h
    rw [evalChain, evalChain]
    refine (mirrors_eval e hi he).bind ?_
    intro k₁ v v' hk₁ hv
    exact mirrors_evalChainFrom op hv es (hc.scopes_mono hk₁ hi) hes
theorem mirrors_evalChainFrom (op : ChainOp) {acc acc' : Value φ} {k : ℕ} (hacc : c.Values k acc acc') :
    ∀ es : List (Expr φ), c.Scopes k i i' → (∀ e ∈ es, e.Confined c.Literals (c.Names i)) →
      c.Mirrors c.Values k (evalChainFrom cx call i op acc es) (evalChainFrom cx call' i' op acc' es)
  | [], _, _ => by
    rw [evalChainFrom, evalChainFrom]
    exact mirrors_value hc hacc
  | e :: es, hi, h => by
    obtain ⟨he, hes⟩ := List.forall_mem_cons.1 h
    rw [evalChainFrom, evalChainFrom]
    refine (mirrors_eval e hi he).bind ?_
    intro k₁ v v' hk₁ hv
    refine (mirrors_binary hc op.toBinary (hc.values_mono hk₁ hacc) hv).bind ?_
    intro k₂ acc acc' hk₂ hacc
    exact mirrors_evalChainFrom op hacc es (hc.scopes_mono (hk₁.trans hk₂) hi) hes
theorem mirrors_evalBlock : ∀ (es : List (Expr φ)) {k : ℕ}, c.Scopes k i i' →
    (∀ e ∈ es, e.Confined c.Literals (c.Names i)) →
      c.Mirrors c.Values k (evalBlock cx call i es) (evalBlock cx call' i' es)
  | [], k, _, _ => by
    rw [evalBlock, evalBlock]
    exact mirrors_value hc .unit
  | [e], k, hi, h => by
    rw [evalBlock, evalBlock]
    exact mirrors_eval e hi (h e (by simp))
  | e :: e' :: es, k, hi, h => by
    obtain ⟨he, hes⟩ := List.forall_mem_cons.1 h
    refine (mirrors_eval e hi he).bind ?_
    intro k₁ _ _ hk₁ _
    exact mirrors_evalBlock (e' :: es) (hc.scopes_mono hk₁ hi) hes
theorem mirrors_evalChoice (n : ℕ) : ∀ (bs : List (Branch (Expr φ))) {k : ℕ}, c.Scopes k i i' →
    (∀ e ∈ bs.flatMap Branch.trees, e.Confined c.Literals (c.Names i)) →
      c.Mirrors c.Values k (evalChoice cx call i n bs) (evalChoice cx call' i' n bs)
  | [], k, _, _ => by
    rw [evalChoice, evalChoice]
    exact mirrors_fail (hc.errors _ id)
  | .otherwise a :: bs, k, hi, h => by
    rw [evalChoice, evalChoice]
    exact mirrors_eval a hi (h a (by simp [Branch.trees]))
  | .when g a :: bs, k, hi, h => by
    rw [evalChoice, evalChoice]
    refine (mirrors_eval g hi (h g (by simp [Branch.trees]))).bind ?_
    intro k₁ v v' hk₁ hv
    have hi₁ := hc.scopes_mono hk₁ hi
    refine Mirrors.ite (by rw [hv.isTruthy_eq]) (mirrors_eval a hi₁ (h a (by simp [Branch.trees]))) ?_
    exact mirrors_evalChoice n bs hi₁ fun e he => h e (List.mem_append_right _ he)
end

mutual
theorem mirrors_evalTail : ∀ (e : Expr φ) {k : ℕ}, c.Scopes k i i' → e.Confined c.Literals (c.Names i) →
    c.Mirrors c.Steps k (evalTail cx call i e) (evalTail cx call' i' e)
  | .apply f as, k, hi, h => by
    obtain ⟨hf, has⟩ := Expr.confined_apply.1 h
    rw [evalTail, evalTail]
    refine (mirrors_eval hc hcall f hi hf).bind ?_
    intro k₁ v v' hk₁ hv
    refine (mirrors_evalList hc hcall as (hc.scopes_mono hk₁ hi) has).bind ?_
    intro k₂ args args' hk₂ hargs
    exact mirrors_tail hc (hc.values_mono hk₂ hv) hargs
  | .choice bs, k, hi, h => by
    rw [evalTail, evalTail]
    exact mirrors_evalTailChoice bs.length bs hi (Expr.confined_choice.1 h)
  | .block es, k, hi, h => by
    rw [evalTail, evalTail]
    exact mirrors_evalTailBlock es hi (Expr.confined_block.1 h)
  | .num _, k, hi, h | .var _, k, hi, h | .assign _ _ _, k, hi, h | .lambda _ _, k, hi, h | .supply _ _, k, hi, h
  | .unary _ _ _, k, hi, h | .binary _ _ _, k, hi, h | .chain _ _, k, hi, h | .unit, k, hi, h
  | .foreign _, k, hi, h => (mirrors_eval hc hcall _ hi h).bind fun _ _ _ _ hv => mirrors_done hc hv
theorem mirrors_evalTailBlock : ∀ (es : List (Expr φ)) {k : ℕ}, c.Scopes k i i' →
    (∀ e ∈ es, e.Confined c.Literals (c.Names i)) →
      c.Mirrors c.Steps k (evalTailBlock cx call i es) (evalTailBlock cx call' i' es)
  | [], k, _, _ => by
    rw [evalTailBlock, evalTailBlock]
    exact mirrors_done hc .unit
  | [e], k, hi, h => by
    rw [evalTailBlock, evalTailBlock]
    exact mirrors_evalTail e hi (h e (by simp))
  | e :: e' :: es, k, hi, h => by
    obtain ⟨he, hes⟩ := List.forall_mem_cons.1 h
    refine (mirrors_eval hc hcall e hi he).bind ?_
    intro k₁ _ _ hk₁ _
    exact mirrors_evalTailBlock (e' :: es) (hc.scopes_mono hk₁ hi) hes
theorem mirrors_evalTailChoice (n : ℕ) : ∀ (bs : List (Branch (Expr φ))) {k : ℕ}, c.Scopes k i i' →
    (∀ e ∈ bs.flatMap Branch.trees, e.Confined c.Literals (c.Names i)) →
      c.Mirrors c.Steps k (evalTailChoice cx call i n bs) (evalTailChoice cx call' i' n bs)
  | [], k, _, _ => by
    rw [evalTailChoice, evalTailChoice]
    exact mirrors_fail (hc.errors _ id)
  | .otherwise a :: bs, k, hi, h => by
    rw [evalTailChoice, evalTailChoice]
    exact mirrors_evalTail a hi (h a (by simp [Branch.trees]))
  | .when g a :: bs, k, hi, h => by
    rw [evalTailChoice, evalTailChoice]
    refine (mirrors_eval hc hcall g hi (h g (by simp [Branch.trees]))).bind ?_
    intro k₁ v v' hk₁ hv
    have hi₁ := hc.scopes_mono hk₁ hi
    refine Mirrors.ite (by rw [hv.isTruthy_eq]) (mirrors_evalTail a hi₁ (h a (by simp [Branch.trees]))) ?_
    exact mirrors_evalTailChoice n bs hi₁ fun e he => h e (List.mem_append_right _ he)
end

/-! ## steps of a call -/

theorem mirrors_pointwise {v v' : Value φ} (hv : c.Values k v v') {args args' : List (Value φ)}
    (hargs : c.Lists k args args') : c.Mirrors c.Values k (pointwise call v args) (pointwise call' v' args') :=
  Mirrors.ite (by rw [hv.isFunction_eq]) (hcall hv hargs) (mirrors_value hc hv)

/-- **Steps of a call mirror each other if the calls nested in them do.** -/
theorem mirrors_callStep {f f' : Value φ} (hf : c.Values k f f') {args args' : List (Value φ)}
    (hargs : c.Lists k args args') : c.Mirrors c.Steps k (callStep cx call f args) (callStep cx call' f' args') := by
  cases hf with
  | unit => exact mirrors_done hc .unit
  | number r =>
    unfold callStep
    rw [hargs.length_eq]
    exact mirrors_fail (hc.errors _ id)
  | foreign x =>
    intro m m' hk hm
    have hresult := (hc.host hm.stores).call x (hc.lists_mono hk hargs)
    unfold callStep
    rw [hargs.length_eq]
    dsimp only
    generalize Foreign.call x args = result at hresult ⊢
    generalize Foreign.call x args' = result' at hresult ⊢
    cases hresult with
    | none => exact .error le_rfl (hc.errors _ id) hm
    | some hresult =>
      cases hresult with
      | ok hv => exact .ok le_rfl (.done hv) hm
      | error he => exact .error le_rfl he hm
  | @closure params body j j' hbody hj =>
    unfold callStep
    rw [hargs.length_eq]
    refine Mirrors.ite Iff.rfl (mirrors_fail (hc.errors _ id)) ?_
    refine (mirrors_pushScope hc ?_).bind ?_
    · intro s s' _ hk
      exact ⟨Bindings.alike_frame params (hc.lists_mono hk hargs), .some (hc.captures_mono hk hj)⟩
    · rintro k₁ inner inner' - ⟨hinner, -, hnames⟩
      exact mirrors_evalTail hc hcall body hinner ⟨hbody, fun x _ => hnames x⟩
  | builtin b =>
    refine (mirrors_run hc hcall b hargs).bind ?_
    exact fun _ _ _ _ hv => mirrors_done hc hv
  | @supplied bound bound' f f' hbound hf => exact mirrors_tail hc hf (List.rel_append hbound hargs)
  | composed hf hg =>
    refine (hcall hg hargs).bind ?_
    intro k₁ v v' hk₁ hv
    exact mirrors_tail hc (hc.values_mono hk₁ hf) (.cons hv .nil)
  | @lifted op f f' g g' hf hg =>
    refine (mirrors_pointwise hc hcall hf hargs).bind ?_
    intro k₁ v v' hk₁ hv
    refine (mirrors_pointwise hc hcall (hc.values_mono hk₁ hg) (hc.lists_mono hk₁ hargs)).bind ?_
    intro k₂ w w' hk₂ hw
    refine (mirrors_binary hc op (hc.values_mono hk₂ hv) hw).bind ?_
    exact fun _ _ _ _ hv => mirrors_done hc hv
  | @liftedUnary op f f' hf =>
    refine (mirrors_pointwise hc hcall hf hargs).bind ?_
    intro k₁ v v' _ hv
    refine (mirrors_unary hc op hv).bind ?_
    exact fun _ _ _ _ hv => mirrors_done hc hv

end Trees

/-! ## calls -/

theorem mirrors_goOn {loop loop' : Value φ → List (Value φ) → Eval φ (Value φ)} (hloop : c.CallsMirror loop loop')
    {step step' : Step φ} (h : c.Steps k step step') : c.Mirrors c.Values k (step.goOn loop) (step'.goOn loop') := by
  cases h with
  | done hv => exact mirrors_value hc hv
  | tail hf hargs =>
    refine (mirrors_note _ _).bind ?_
    intro k₁ _ _ hk₁ _
    exact hloop (hc.values_mono hk₁ hf) (hc.lists_mono hk₁ hargs)

theorem mirrors_enter {loop loop' : Value φ → List (Value φ) → Eval φ (Value φ)} (hloop : c.CallsMirror loop loop') :
    c.CallsMirror (enter cx loop) (enter cx loop') := by
  intro k f f' args args' hf hargs m m' hk hm
  rcases Nat.lt_or_ge cx.config.maxDepth (m.depth + 1) with hlt | hle
  · rw [enter_of_lt hlt, enter_of_lt (hm.depth ▸ hlt), ← hm.depth]
    exact .error le_rfl (hc.errors _ id) ⟨hm.depth, hm.stores⟩
  · rw [enter_of_le hle, enter_of_le (hm.depth ▸ hle), ← hm.depth]
    have hinner := hloop hf hargs
    have hends := @hinner { m with depth := m.depth + 1 } { m' with depth := m.depth + 1 } hk ⟨rfl, hm.stores⟩
    exact hends.onMachine m.depth

theorem mirrors_bounce (n : ℕ) : c.CallsMirror (bounce cx n) (bounce cx n) := by
  induction n with
  | zero => exact fun _ _ _ _ _ _ _ _ _ _ _ => .spent
  | succ n ih =>
    intro k f f' args args' hf hargs
    rw [bounce_succ, bounce_succ]
    refine (mirrors_callStep hc (mirrors_enter hc ih) hf hargs).bind ?_
    exact fun _ _ _ _ hstep => mirrors_goOn hc ih hstep

/-- **Calls mirror themselves.** -/
theorem mirrors_callValue (n : ℕ) : c.CallsMirror (callValue cx n) (callValue cx n) :=
  mirrors_enter hc (mirrors_bounce hc n)

end Calls

end Matching

/-! ## operations -/

/-- The values that a host hands over in an operation. -/
def Operation.values : Operation φ → List (Value φ)
  | .call f args => f :: args
  | .limit f _ _ => [f]
  | .define _ v => [v]
  | .run _ | .evaluate _ | .binding _ => []

section Operations

variable [Foreign φ] {c : Matching φ} {i : Interpreter φ} (hc : c.Lawful i.context) {k : ℕ}
include hc

namespace Matching

theorem mirrors_evaluate (hi : c.Scopes k i.top i.top) (n : ℕ) {e : Expr φ}
    (he : e.Confined c.Literals (c.Names i.top)) : c.Mirrors c.Values k (i.evaluate n e) (i.evaluate n e) := by
  intro m m' hk hm
  have htree := mirrors_eval hc (mirrors_callValue hc n) e hi he
  have hends := @htree { m.note (.evaluating e) with depth := 0 } { m'.note (.evaluating e) with depth := 0 }
  exact hends hk ⟨rfl, hm.stores⟩

variable [DecidableEq φ]

theorem mirrors_runTree (hi : c.Scopes k i.top i.top) (n : ℕ) {e : Expr φ}
    (he : e.Confined c.Literals (c.Names i.top)) : c.Mirrors c.Values k (i.run n e) (i.run n e) := by
  unfold Interpreter.run
  cases hfault : e.firstFault? with
  | some fault =>
    obtain ⟨before, after, hliterals, -, hread⟩ := Expr.of_firstFault? hfault
    exact mirrors_fail (hc.errors_of_literals (he.1 _ (by simp [hliterals])) hread)
  | none =>
    refine Mirrors.ite Iff.rfl ?_ (mirrors_evaluate hc hi n he)
    refine (mirrors_noteAll _ _).bind ?_
    intro k₁ _ _ hk₁ _
    exact mirrors_evaluate hc (hc.scopes_mono hk₁ hi) n (he.normalize hc.literals i.pipeline)

/-- The operations that an interpreter may be asked for on both sides, those with values apart. -/
def Admits (c : Matching φ) (i : Interpreter φ) : Operation φ → Prop
  | .run e | .evaluate e => e.Confined c.Literals (c.Names i.top)
  | .define x _ => c.Names i.top x
  | .call _ _ | .limit _ _ _ | .binding _ => True

/-- **Operations mirror themselves.** -/
theorem mirrors_perform (hi : c.Scopes k i.top i.top) (n : ℕ) {op : Operation φ} (hop : c.Admits i op)
    (hvalues : ∀ v ∈ op.values, c.Values k v v) :
    c.Mirrors (fun k => Option.Rel (c.Values k)) k (i.perform n op) (i.perform n op) := by
  have hsome : ∀ k₁ v v', k ≤ k₁ → c.Values k₁ v v' →
      c.Mirrors (fun k => Option.Rel (c.Values k)) k₁ (pure (some v)) (pure (some v')) :=
    fun _ _ _ _ hv => mirrors_pure fun _ hk => .some (hc.values_mono hk hv)
  cases op with
  | run e => exact (mirrors_runTree hc hi n hop).bind hsome
  | evaluate e => exact (mirrors_evaluate hc hi n hop).bind hsome
  | call f args =>
    obtain ⟨hf, hargs⟩ := List.forall_mem_cons.1 hvalues
    exact (mirrors_callValue hc n hf (List.forall₂_same.2 hargs)).bind hsome
  | limit f point side =>
    have hf := hvalues f (List.mem_singleton_self f)
    exact (mirrors_limit hc (mirrors_callValue hc n) hf point side).bind hsome
  | define x v =>
    refine (mirrors_define hc hi hop (hvalues v (List.mem_singleton_self v))).bind ?_
    exact fun _ _ _ _ _ => mirrors_pure fun _ _ => .none
  | binding x => exact mirrors_get? hc hi x

end Matching

end Operations

end RatCalc
