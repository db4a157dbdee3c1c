import RatCalc.Proofs.Eval.Frame
import RatCalc.Proofs.Eval.Renumbering

/-!
# Malformed literals

A run looks at all literals of a tree before anything else, and refuses the tree for the first that is no number.  What
it accepts comes across no malformed literal later: the literals that normalising brings in are numbers, and so are those
in the functions that earlier runs have left behind.

* `Closure.WellFormed`, `Store.Provides` — functions that a host has from before;
* `Foreign.NeverMalformed` — hosts that bring in no malformed literal;
* `Interpreter.Runs` — one run after the other;
* `Interpreter.ReportsFirst`, `Interpreter.reportsFirst_of_runs` — what is reported, and when.
-/

namespace RatCalc

variable {φ : Type}

/-! ## hosts -/

/-- A closure over one of the given scopes, with numbers for literals. -/
def Closure.WellFormed (own : ScopeId → Prop) (closure : Closure φ) : Prop :=
  own closure.scope ∧ ∀ text ∈ closure.body.literals, Literal.WellFormed text

/-- The given scopes exist, and lead to no other scopes and to no malformed literal. -/
def Store.Provides (own : ScopeId → Prop) (s : Store φ) : Prop :=
  ∀ j, own j → ∃ scope, s.scopes[j]? = some scope ∧
    (∀ b ∈ scope.bindings, ∀ closure ∈ b.2.closures, closure.WellFormed own) ∧ ∀ p ∈ scope.parent, own p

/-- What a host may return, given some values: an error that is no malformed literal, or a value whose closures are of
those it was given, or its own. -/
def Foreign.Returns (own : ScopeId → Prop) (given : List (Value φ)) : Except EvalError (Value φ) → Prop
  | .ok v => ∀ closure ∈ v.closures, (∃ w ∈ given, closure ∈ w.closures) ∨ closure.WellFormed own
  | .error e => ¬ e.IsMalformed

/-- Hosts that never return a malformed literal, neither as an error nor in a function. -/
structure Foreign.NeverMalformed (φ : Type) [Foreign φ] (own : ScopeId → Prop) : Prop where
  binary : ∀ {x : φ} {op v side r}, Foreign.binary x op v side = some r → Returns own [v] r
  unary : ∀ {x : φ} {op r}, Foreign.unary x op = some r → Returns own [] r
  call : ∀ {x : φ} {args r}, Foreign.call x args = some r → Returns own args r

/-- Tokens have no functions of their own, and their errors are about arguments. -/
theorem Token.neverMalformed (own : ScopeId → Prop) : Foreign.NeverMalformed Token own := by
  have hvalue : ∀ {given : List (Value Token)} {v : Value Token}, v.closures = [] →
      Foreign.Returns own given (.ok v) := by
    intro given v hv closure hclosure
    rw [hv] at hclosure
    cases hclosure
  refine ⟨?_, ?_, ?_⟩
  · intro x op v side r hr
    replace hr : binary x op v side = some r := hr
    unfold binary at hr
    split at hr
    · cases hr; exact hvalue rfl
    · cases hr; exact hvalue rfl
    · split at hr <;> cases hr <;> exact id
    · cases hr; exact hvalue rfl
    · cases hr
  · intro x op r hr
    replace hr : unary x op = some r := hr
    unfold unary at hr
    split at hr
    · cases hr; exact hvalue rfl
    · cases hr; exact id
    · cases hr
  · intro x args r hr
    replace hr : call x args = some r := hr
    unfold call at hr
    split at hr
    · cases hr
      exact fun closure hclosure => .inl ⟨_, List.mem_singleton_self _, hclosure⟩
    · cases hr; exact id
    · cases hr

namespace Renumbering

/-- Runs without malformed literals: the scopes from `top` on, and those that a host has from before. -/
def clean (top : ScopeId) (own : ScopeId → Prop) : Renumbering where
  n := top + 1
  n' := top + 1
  current j := j = top ∨ own j
  captured j := j = top ∨ own j
  literals := Literal.WellFormed
  errors e := ¬ e.IsMalformed

variable {own : ScopeId → Prop} {top : ScopeId}

theorem clean_values_iff {k : ℕ} {v : Value φ} : (clean top own).matching.Values k v v ↔
    ∀ closure ∈ v.closures, (∀ text ∈ closure.body.literals, Literal.WellFormed text) ∧
      (closure.scope < top + 1 → closure.scope = top ∨ own closure.scope) ∧ closure.scope < k := values_self_iff rfl

theorem clean_values_of_wellFormed (hown : ∀ j, own j → j < top) {k : ℕ} (hk : top < k) {v : Value φ}
    (h : ∀ closure ∈ v.closures, closure.WellFormed own) : (clean top own).matching.Values k v v :=
  clean_values_iff.2 fun closure hclosure =>
    ⟨(h closure hclosure).2, fun _ => .inr (h closure hclosure).1, (hown _ (h closure hclosure).1).trans hk⟩

/-- The results of a host under this invariant. -/
theorem clean_of_returns (hown : ∀ j, own j → j < top) {k : ℕ} (hk : top < k) {given : List (Value φ)}
    (hgiven : ∀ v ∈ given, (clean top own).matching.Values k v v) {r : Except EvalError (Value φ)}
    (h : Foreign.Returns own given r) :
    SameResult ((clean top own).matching.Values k) (clean top own).errors r r := by
  cases r with
  | error e => exact .error h
  | ok v =>
    refine .ok (clean_values_iff.2 fun closure hclosure => ?_)
    rcases h closure hclosure with ⟨w, hw, hmem⟩ | hwell
    · exact clean_values_iff.1 (hgiven w hw) closure hmem
    · exact ⟨hwell.2, fun _ => .inr hwell.1, (hown _ hwell.1).trans hk⟩

theorem fits_clean [Foreign φ] {cx : Context φ} (hhost : Foreign.NeverMalformed φ own) (hown : ∀ j, own j → j < top)
    (hlookup : ∀ x, cx.lookup x = none) : (clean top own).Fits cx where
  le := le_rfl
  current_of_captured := id
  captured_of_live _ := id
  literals _ := id
  errors _ := id
  errors_of_literals htext hread := absurd htext (Literal.not_wellFormed_of_read hread)
  host k hk := by
    refine Foreign.respects_of_self (fun _ _ h => (paired_self_iff.1 h).1.symm) ?_ ?_ ?_
    · intro x op v side r hv hr
      exact clean_of_returns hown hk (List.forall_mem_singleton.2 hv) (hhost.binary hr)
    · intro x op r hr
      exact clean_of_returns hown hk (List.forall_mem_nil _) (hhost.unary hr)
    · intro x args r hargs hr
      exact clean_of_returns hown hk (List.forall₂_same.1 hargs) (hhost.call hr)
  lookup {x v} hv := by
    rw [hlookup x] at hv
    cases hv

end Renumbering

/-! ## sessions of runs -/

namespace Interpreter

variable [Foreign φ] [DecidableEq φ]

/-- One run after the other leads from one machine to another. -/
inductive Runs (i : Interpreter φ) (m : Machine φ) : Machine φ → Prop
  | refl : i.Runs m m
  | run {m' m'' : Machine φ} {n : ℕ} {e : Expr φ} (hm : i.Runs m m') (h : (i.run n e m').machine? = some m'') :
      i.Runs m m''

/-- Malformed literals are reported first, and then nothing has happened. -/
structure ReportsFirst (i : Interpreter φ) (m : Machine φ) : Prop where
  /-- A run reports a malformed literal if and only if there is one anywhere in the tree. -/
  iff : ∀ n (e : Expr φ), (∃ text fault m', i.run n e m = .error (.malformedLiteral text fault) m') ↔
    ∃ text ∈ e.literals, ¬ Literal.WellFormed text
  /-- It is the first in the order of the literals, with its fault, and the machine is as it was. -/
  first : ∀ {n e text fault m'}, i.run n e m = .error (.malformedLiteral text fault) m' → m' = m ∧
    ∃ before after, e.literals = before ++ text :: after ∧ (∀ t ∈ before, Literal.WellFormed t) ∧
      Literal.read text = .error fault

theorem run_of_firstFault? {i : Interpreter φ} {e : Expr φ} {text : String} {fault : Literal.Fault}
    (h : e.firstFault? = some (text, fault)) (n : ℕ) (m : Machine φ) :
    i.run n e m = .error (.malformedLiteral text fault) m := by
  unfold run
  rw [h]
  rfl

section Sessions

variable {i : Interpreter φ} {m m' : Machine φ} {own : ScopeId → Prop}
  (hc : (Renumbering.clean i.top own).matching.Lawful i.context)
include hc

/-- A tree without malformed literals runs without them. -/
theorem mirrors_run_of_wellFormed (hm : (Renumbering.clean i.top own).matching.Stores m.store m.store) {e : Expr φ}
    (he : ∀ text ∈ e.literals, Literal.WellFormed text) (n : ℕ) :
    (Renumbering.clean i.top own).matching.Mirrors (Renumbering.clean i.top own).matching.Values m.store.next
      (i.run n e) (i.run n e) := by
  have htop : (Renumbering.clean i.top own).matching.Scopes (φ := φ) m.store.next i.top i.top :=
    paired_self_iff.2 ⟨rfl, fun _ => .inl rfl, hm.1⟩
  exact Matching.mirrors_runTree hc htop n ⟨he, fun _ _ => trivial⟩

/-- Runs leave nothing malformed behind. -/
theorem Runs.stores (h : i.Runs m m') (hm : (Renumbering.clean i.top own).matching.Stores m.store m.store) :
    (Renumbering.clean i.top own).matching.Stores m'.store m'.store := by
  induction h with
  | refl => exact hm
  | @run m₁ m₂ n e _ h ih =>
    cases hfault : e.firstFault? with
    | some fault =>
      rw [run_of_firstFault? hfault] at h
      cases h
      exact ih
    | none =>
      have hmirrors := mirrors_run_of_wellFormed hc ih (Expr.firstFault?_eq_none_iff.1 hfault) n
      exact ((hmirrors.self le_rfl ⟨rfl, ih⟩).1 m₂ h).2.stores

theorem reportsFirst_of_stores (hm : (Renumbering.clean i.top own).matching.Stores m.store m.store) :
    i.ReportsFirst m := by
  have hfirst : ∀ {n e text fault m'}, i.run n e m = .error (.malformedLiteral text fault) m' →
      m' = m ∧ e.firstFault? = some (text, fault) := by
    intro n e text fault m' h
    cases hfault : e.firstFault? with
    | some found =>
      rw [run_of_firstFault? hfault] at h
      obtain ⟨herror, rfl⟩ := Outcome.error.inj h
      obtain ⟨rfl, rfl⟩ := EvalError.malformedLiteral.inj herror
      exact ⟨rfl, rfl⟩
    | none =>
      -- the tree has no malformed literal, and then none comes up
      have hmirrors := mirrors_run_of_wellFormed hc hm (Expr.firstFault?_eq_none_iff.1 hfault) n
      exact absurd trivial ((hmirrors.self le_rfl ⟨rfl, hm⟩).2.2 _ _ h)
  refine ⟨?_, ?_⟩
  · intro n e
    constructor
    · rintro ⟨text, fault, m', h⟩
      obtain ⟨before, after, hliterals, -, hread⟩ := Expr.of_firstFault? (hfirst h).2
      exact ⟨text, by simp [hliterals], Literal.not_wellFormed_of_read hread⟩
    · rintro ⟨text, htext, hmalformed⟩
      cases hfault : e.firstFault? with
      | none => exact absurd (Expr.firstFault?_eq_none_iff.1 hfault text htext) hmalformed
      | some found => exact ⟨found.1, found.2, m, run_of_firstFault? hfault n m⟩
  · intro n e text fault m' h
    exact ⟨(hfirst h).1, Expr.of_firstFault? (hfirst h).2⟩

end Sessions

/-- **Malformed literals are reported first, and never later.**  In a session of runs of a new interpreter without
definitions of the host, a run reports a malformed literal if and only if the tree has one, wherever it stands; it is
the first, and nothing has been done. -/
theorem reportsFirst_of_runs {cx : Context φ} {i : Interpreter φ} {m₀ m₁ m : Machine φ} {own : ScopeId → Prop}
    (hhost : Foreign.NeverMalformed φ own) (hown : m₀.store.Provides own) (hlookup : ∀ x, cx.lookup x = none)
    (hcreate : create cx m₀ = .ok i m₁) (hm : i.Runs m₁ m) : i.ReportsFirst m := by
  obtain ⟨rfl, htop, rfl⟩ := of_create hcreate
  have hlt : ∀ j, own j → j < i.top := by
    intro j hj
    obtain ⟨scope, hscope, -⟩ := hown j hj
    rw [htop]
    exact (Array.getElem?_eq_some_iff.1 hscope).1
  have hnext : (m₀.store.push {}).next = i.top + 1 := by rw [Store.next_push, htop]
  have hcreated : (Renumbering.clean i.top own).matching.Stores (m₀.store.push {}) (m₀.store.push {}) := by
    refine (Renumbering.stores_self_iff rfl).2 ⟨hnext.ge, ?_⟩
    intro j scope hscope hj
    rw [Store.scopes_push, ← htop] at hscope
    split at hscope
    · cases hscope
      exact ⟨nofun, nofun⟩
    · have hjtop : j < i.top := by
        rw [htop]
        exact (Array.getElem?_eq_some_iff.1 hscope).1
      have hjown : own j := (hj (Nat.lt_succ_of_lt hjtop)).resolve_left (Nat.ne_of_lt hjtop)
      obtain ⟨scope', hscope', hbindings, hparent⟩ := hown j hjown
      cases hscope.symm.trans hscope'
      refine ⟨?_, ?_⟩
      · exact fun b hb => Renumbering.clean_values_of_wellFormed hlt hnext.ge (hbindings b hb)
      · exact fun p hp => ⟨fun _ => .inr (hparent p hp), (hlt p (hparent p hp)).trans hnext.ge⟩
  have hc := (Renumbering.fits_clean hhost hlt hlookup).lawful
  exact reportsFirst_of_stores hc (hm.stores hc hcreated)

/-- After a function has been assigned, under a host without functions of its own. -/
theorem reportsFirst_of_runs_assigned :
    let own : ScopeId → Prop := fun _ => False
    let cx : Context Token := { config := { normalizes := false } }
    let i : Interpreter Token := { context := cx, top := 0 }
    let m₀ : Machine Token := {}
    let m₁ : Machine Token := { store := ⟨#[{}]⟩ }
    let body : Expr Token := .num "12"
    let e : Expr Token := .assign .fresh "f" (.lambda [] body)
    let m : Machine Token := { store := ⟨#[{ bindings := [("f", .closure [] body 0)] }]⟩, notes := [.evaluating e] }
    Foreign.NeverMalformed Token own ∧ m₀.store.Provides own ∧ (∀ x, cx.lookup x = none) ∧ create cx m₀ = .ok i m₁ ∧
      i.Runs m₁ m ∧ i.ReportsFirst m := by
  intro own cx i m₀ m₁ body e m
  have hhost : Foreign.NeverMalformed Token own := Token.neverMalformed own
  have hown : m₀.store.Provides own := fun _ h => h.elim
  have hlookup : ∀ x, cx.lookup x = none := fun _ => rfl
  have hcreate : create cx m₀ = .ok i m₁ := rfl
  have hfault : e.firstFault? = none := by decide
  have hrun : (i.run 0 e m₁).machine? = some m := by
    unfold run
    rw [hfault]
    rfl
  have hm : i.Runs m₁ m := .run .refl hrun
  exact ⟨hhost, hown, hlookup, hcreate, hm, reportsFirst_of_runs hhost hown hlookup hcreate hm⟩

end Interpreter

end RatCalc
