import RatCalc.Proofs.Eval.Depth
import RatCalc.Proofs.Eval.Frame
import RatCalc.Proofs.Eval.Renumbering

/-!
# Calls are local

A call writes in scopes of its own only.  So it leaves the scopes that were there before as they were, it ends in the
same way when it is made again, and what an expression binds at the top are the names that it assigns there itself.

A call can be made again in every state that interpreters and hosts come to.  In such a state nothing refers to a scope
that does not exist, which a call could otherwise take for one of its own.

* `Store.Closed` — all scopes that a store refers to exist;
* `Machine.Reachable` — the states that can be come to; `Reachable.closed` — they are closed;
* `Interpreter.Local`, `Interpreter.isLocal` — what holds of calls and evaluations.
-/

namespace RatCalc

variable {φ α β : Type}

/-! ## closed states -/

/-- The closures in a value have scopes among the first `k`. -/
def Value.ClosedIn (k : ℕ) (v : Value φ) : Prop := v.Within (· < k)

/-- All scopes that a store refers to exist. -/
def Store.Closed (s : Store φ) : Prop :=
  ∀ (j : ScopeId) (scope : Scope φ), s.scopes[j]? = some scope → scope.Within (· < s.next)

/-- The scopes of an interpreter, its own one and those of its host's definitions, are among the first `k`. -/
structure Interpreter.ClosedIn (k : ℕ) (i : Interpreter φ) : Prop where
  top : i.top < k
  lookup : ∀ x v, i.context.lookup x = some v → v.ClosedIn k

/-- The states that any number of interpreters come to, from a given one on: interpreters are made, and operations end
with a value or with an error. -/
inductive Machine.Reachable [Foreign φ] [DecidableEq φ] (m₀ : Machine φ) : Machine φ → Prop
  | start : m₀.Reachable m₀
  | created {m m' : Machine φ} {cx : Context φ} {i : Interpreter φ} (hm : m₀.Reachable m)
      (h : Interpreter.create cx m = .ok i m') : m₀.Reachable m'
  | performed {m m' : Machine φ} {i : Interpreter φ} {n : ℕ} {op : Operation φ} (hm : m₀.Reachable m)
      (hi : i.ClosedIn m.store.next) (hop : ∀ v ∈ op.values, v.ClosedIn m.store.next)
      (h : (i.perform n op m).machine? = some m') : m₀.Reachable m'

section

variable {n : ℕ} {s : Store φ}

theorem Store.Closed.push (h : s.Closed) : (s.push {}).Closed := by
  intro j scope hscope
  rw [Store.scopes_push] at hscope
  rw [Store.next_push]
  split at hscope
  · cases hscope
    exact ⟨nofun, nofun⟩
  · exact (h j scope hscope).mono fun _ hp => Nat.lt_succ_of_lt hp

/-- In the invariant of closed states all old scopes can be reached. -/
abbrev Renumbering.everything (n n' : ℕ) : Renumbering := .free n n' (fun _ => True) fun _ => True

theorem Renumbering.everything_stores_iff : (everything n n).matching.Stores s s ↔ n ≤ s.next ∧ s.Closed := by
  simp [free_stores_self_iff, Store.Closed]

theorem Renumbering.everything_values {v : Value φ} (h : v.ClosedIn n) (n' : ℕ) :
    (everything n n').matching.Values n v v := free_values (h.mono fun _ hj => ⟨trivial, hj⟩)

variable [Foreign φ]

theorem Renumbering.fits_everything {cx : Context φ} {n₀ n' : ℕ} (hhost : Foreign.Uniform φ n₀) (hn₀ : n₀ ≤ n)
    (hn : n ≤ n') (hlookup : ∀ x v, cx.lookup x = some v → v.ClosedIn n) : (everything n n').Fits cx :=
  fits_free hn id (fun _ => id) hhost hn₀ (fun _ _ => trivial)
    fun x v hv => (hlookup x v hv).mono fun _ hj => ⟨trivial, hj⟩

variable [DecidableEq φ] {m₀ m : Machine φ}

/-- **Nothing that can be reached refers to a scope that does not exist.** -/
theorem Machine.Reachable.closed (hhost : Foreign.Uniform φ m₀.store.next) (hclosed : m₀.store.Closed)
    (hm : m₀.Reachable m) : m₀.store.next ≤ m.store.next ∧ m.store.Closed := by
  induction hm with
  | start => exact ⟨le_rfl, hclosed⟩
  | created _ h ih =>
    obtain ⟨-, rfl⟩ := Outcome.ok.inj h
    exact ⟨ih.1.trans ((Nat.le_succ _).trans (Store.next_push _ _).ge), ih.2.push⟩
  | @performed m m' i n op _ hi hop h ih =>
    -- all that is there when the operation begins counts as old
    have hfits := Renumbering.fits_everything hhost ih.1 le_rfl hi.lookup
    have htop : (Renumbering.everything m.store.next m.store.next).matching.Scopes (φ := φ) m.store.next i.top i.top :=
      paired_self_iff.2 ⟨rfl, fun _ => trivial, hi.top⟩
    have hstores : (Renumbering.everything m.store.next m.store.next).matching.Stores m.store m.store :=
      Renumbering.everything_stores_iff.2 ⟨le_rfl, ih.2⟩
    have hperform := Matching.mirrors_perform hfits.lawful htop n (Renumbering.free_admits i op)
      fun v hv => Renumbering.everything_values (hop v hv) m.store.next
    have hkept := (hperform.self le_rfl ⟨rfl, hstores⟩).1 m' h
    exact ⟨ih.1.trans hkept.1, (Renumbering.everything_stores_iff.1 hkept.2.stores).2⟩

end

/-! ## calls and evaluations -/

theorem Eval.machine?_bind_pure (x : Eval φ α) (f : α → β) (m : Machine φ) :
    ((x >>= fun a => pure (f a)) m).machine? = (x m).machine? := by
  show (Eval.bind x _ m).machine? = _
  unfold Eval.bind
  cases x m <;> rfl

namespace Interpreter

variable [Foreign φ] [DecidableEq φ]

/-- A call leaves every scope as it was. -/
theorem keptBut_of_call {i : Interpreter φ} {n : ℕ} {f : Value φ} {args : List (Value φ)} {m m' : Machine φ}
    (h : (i.call n f args m).machine? = some m') : m.store.KeptBut (fun _ _ => False) m'.store := by
  rw [← Eval.machine?_bind_pure _ some] at h
  have hop : (i.perform n (.call f args) m).machine? = some m' := h
  exact (keptBut_of_perform hop).mono fun j x hx => by simpa [Operation.targets] using hx.2

/-- In a closed state a call that has ended ends again in the same way. -/
theorem call_sameButNew {i : Interpreter φ} {n n₀ : ℕ} {f : Value φ} {args : List (Value φ)} {m m' : Machine φ}
    (hhost : Foreign.Uniform φ n₀) (hn₀ : n₀ ≤ m.store.next) (hclosed : m.store.Closed) (hi : i.ClosedIn m.store.next)
    (hf : f.ClosedIn m.store.next) (hargs : ∀ v ∈ args, v.ClosedIn m.store.next)
    (h : (i.call n f args m).machine? = some m') :
    (i.call n f args m).SameButNew m.store.next m'.store.next (i.call n f args m') := by
  have hkept := keptBut_of_call h
  have hdepth : m.depth = m'.depth := (depth_of_callValue h).symm
  have hfits := Renumbering.fits_everything hhost hn₀ hkept.next_le hi.lookup
  have hall : ∀ {v : Value φ}, v.ClosedIn m.store.next → v.Within fun j => True ∧ j < m.store.next :=
    fun hv => hv.mono fun _ hj => ⟨trivial, hj⟩
  refine Renumbering.callValue_sameButNew hfits hdepth ?_ (hall hf) (fun v hv => hall (hargs v hv)) n
  intro j scope _ hscope
  have hj : j < m.store.next := (Array.getElem?_eq_some_iff.1 hscope).1
  have hsame : m'.store.scopes[j]? = m.store.scopes[j]? := hkept.scopes_eq hj fun _ => id
  exact ⟨hsame.trans hscope, (hclosed j scope hscope).mono fun _ hp => ⟨trivial, hp⟩⟩

/-- Calls and evaluations write in no scope but their own. -/
structure Local (i : Interpreter φ) : Prop where
  /-- A call, whether it gives a value or an error, leaves every scope as it was, with its bindings and its parent. -/
  kept : ∀ {n f args} {m m' : Machine φ}, (i.call n f args m).machine? = some m' →
    ∀ j < m.store.next, m'.store.scopes[j]? = m.store.scopes[j]?
  /-- In every state that can be come to, a call that has ended ends again in the same way but for new scopes. -/
  repeated : ∀ {n f args} {m₀ m m' : Machine φ}, Foreign.Uniform φ m₀.store.next → m₀.store.Closed → m₀.Reachable m →
    i.ClosedIn m.store.next → f.ClosedIn m.store.next → (∀ v ∈ args, v.ClosedIn m.store.next) →
      (i.call n f args m).machine? = some m' →
        (i.call n f args m).SameButNew m.store.next m'.store.next (i.call n f args m')
  /-- An expression changes nothing but the bindings at the top of the names that it assigns outside of functions. -/
  written : ∀ {n e} {m m' : Machine φ}, (i.evaluate n e m).machine? = some m' ∨ (i.run n e m).machine? = some m' →
    m.store.KeptBut (fun j x => j = i.top ∧ x ∈ e.targets) m'.store

/-- **Calls are local.**  A call changes no scope that exists and gives the same result when it is made again, and an
expression writes only what it assigns at the top. -/
theorem isLocal (i : Interpreter φ) : i.Local where
  kept h j hj := (keptBut_of_call h).scopes_eq hj fun _ => id
  repeated hhost hstart hm hi hf hargs h := by
    obtain ⟨hn₀, hclosed⟩ := hm.closed hhost hstart
    exact call_sameButNew hhost hn₀ hclosed hi hf hargs h
  written {n e m m'} h := by
    rcases h with h | h
    · rw [← Eval.machine?_bind_pure _ some] at h
      have hop : (i.perform n (.evaluate e) m).machine? = some m' := h
      exact keptBut_of_perform hop
    · rw [← Eval.machine?_bind_pure _ some] at h
      have hop : (i.perform n (.run e) m).machine? = some m' := h
      exact keptBut_of_perform hop

/-- A function, assigned at the top, that returns another with the scope of its call: new each time. -/
theorem isLocal_nested :
    let inner : Expr Token := .lambda [] (.var "x")
    let f : Value Token := .closure ["x"] inner 0
    let i : Interpreter Token := { top := 0 }
    let m₀ : Machine Token := {}
    let m : Machine Token := { store := ⟨#[{ bindings := [("f", f)] }]⟩ }
    let m' : Machine Token :=
      { store := ⟨#[{ bindings := [("f", f)] }, { bindings := [("x", .unit)], parent := some 0 }]⟩ }
    Foreign.Uniform Token m₀.store.next ∧ m₀.store.Closed ∧ m₀.Reachable m ∧ i.ClosedIn m.store.next ∧
      f.ClosedIn m.store.next ∧ i.call 1 f [.unit] m = .ok (.closure [] (.var "x") 1) m' ∧
      (i.call 1 f [.unit] m).SameButNew m.store.next m'.store.next (i.call 1 f [.unit] m') := by
  intro inner f i m₀ m m'
  have hhost : Foreign.Uniform Token m₀.store.next := Token.uniform _
  have hstart : m₀.store.Closed := fun j scope h => by simp [m₀] at h
  have hcreate : create ({} : Context Token) m₀ = .ok i { store := ⟨#[{}]⟩ } := rfl
  have hdefine : (i.perform 0 (.define "f" f) { store := ⟨#[{}]⟩ }).machine? = some m := rfl
  have hi : i.ClosedIn 1 := ⟨Nat.zero_lt_one, nofun⟩
  have hf : f.ClosedIn 1 := List.forall_mem_singleton.2 Nat.zero_lt_one
  have hvalues : ∀ v ∈ (Operation.define "f" f).values, v.ClosedIn 1 := List.forall_mem_singleton.2 hf
  have hm : m₀.Reachable m := .performed (.created .start hcreate) hi hvalues hdefine
  have hargs : ∀ v ∈ [(.unit : Value Token)], v.ClosedIn 1 := List.forall_mem_singleton.2 nofun
  have hcall : i.call 1 f [.unit] m = .ok (.closure [] (.var "x") 1) m' := rfl
  have hended : (i.call 1 f [.unit] m).machine? = some m' := rfl
  exact ⟨hhost, hstart, hm, hi, hf, hcall, (isLocal i).repeated hhost hstart hm hi hf hargs hended⟩

end Interpreter

end RatCalc
