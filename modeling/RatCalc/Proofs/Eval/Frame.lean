import RatCalc.Proofs.Eval.Matching

/-!
# What runs leave alone

A run binds names only where it evaluates: in the scope that it was given, and in those that it makes itself for its
calls.  So of the scopes that were there before, all but one are left as they were, and in that one all names but those
that the tree assigns.

* `Store.KeptBut written` — scopes are as they were, apart from the names that may have been written;
* `Matching.frame` — a run, with itself, that writes nothing else;
* `Interpreter.keptBut_of_perform` — what an operation writes.
-/

namespace RatCalc

variable {φ α β : Type}

/-- A scope is as it was, apart from the bindings of some names. -/
structure Scope.KeptBut (written : String → Prop) (scope scope' : Scope φ) : Prop where
  parent : scope'.parent = scope.parent
  lookup : ∀ x, ¬ written x → scope'.bindings.lookup x = scope.bindings.lookup x
  eq : (∀ x, ¬ written x) → scope' = scope

theorem Scope.KeptBut.refl (written : String → Prop) (scope : Scope φ) : scope.KeptBut written scope :=
  ⟨rfl, fun _ _ => rfl, fun _ => rfl⟩

/-- All scopes of a store are as they were, apart from the bindings of some names in some of them. -/
structure Store.KeptBut (written : ScopeId → String → Prop) (s s' : Store φ) : Prop where
  next_le : s.next ≤ s'.next
  scopes : ∀ j (scope : Scope φ), s.scopes[j]? = some scope → ∃ scope', s'.scopes[j]? = some scope' ∧
    scope.KeptBut (written j) scope'

namespace Store.KeptBut

variable {written written' : ScopeId → String → Prop} {s s' s'' : Store φ}

theorem refl (written : ScopeId → String → Prop) (s : Store φ) : s.KeptBut written s :=
  ⟨le_rfl, fun j scope h => ⟨scope, h, .refl (written j) scope⟩⟩

theorem trans (h : s.KeptBut written s') (h' : s'.KeptBut written s'') : s.KeptBut written s'' := by
  refine ⟨h.next_le.trans h'.next_le, ?_⟩
  intro j scope hscope
  obtain ⟨scope', hscope', hkept⟩ := h.scopes j scope hscope
  obtain ⟨scope'', hscope'', hkept'⟩ := h'.scopes j scope' hscope'
  refine ⟨scope'', hscope'', hkept'.parent.trans hkept.parent, ?_, ?_⟩
  · exact fun x hx => (hkept'.lookup x hx).trans (hkept.lookup x hx)
  · exact fun hnone => (hkept'.eq hnone).trans (hkept.eq hnone)

theorem mono (h : s.KeptBut written s') (hwritten : ∀ j x, written j x → written' j x) : s.KeptBut written' s' := by
  refine ⟨h.next_le, ?_⟩
  intro j scope hscope
  obtain ⟨scope', hscope', hkept⟩ := h.scopes j scope hscope
  refine ⟨scope', hscope', hkept.parent, ?_, ?_⟩
  · exact fun x hx => hkept.lookup x fun hw => hx (hwritten j x hw)
  · exact fun hnone => hkept.eq fun x hw => hnone x (hwritten j x hw)

/-- Scopes in which nothing may have been written are the same. -/
theorem scopes_eq (h : s.KeptBut written s') {j : ScopeId} (hj : j < s.next) (hnone : ∀ x, ¬ written j x) :
    s'.scopes[j]? = s.scopes[j]? := by
  have hscope := Array.getElem?_eq_getElem hj
  obtain ⟨scope', hscope', hkept⟩ := h.scopes j _ hscope
  rw [hscope', hscope, hkept.eq hnone]

theorem define (h : s.KeptBut written s') {i : ScopeId} {x : String} (hx : written i x ∨ s.next ≤ i) (v : Value φ) :
    s.KeptBut written (s'.define i x v) := by
  refine ⟨h.next_le.trans (s'.next_define x v i).ge, ?_⟩
  intro j scope hscope
  obtain ⟨scope', hscope', hkept⟩ := h.scopes j scope hscope
  rw [Store.scopes_define, hscope']
  by_cases hij : i = j
  · subst hij
    have hwritten : written i x := hx.resolve_right (Nat.not_le.2 (Array.getElem?_eq_some_iff.1 hscope).1)
    rw [if_pos rfl]
    refine ⟨_, rfl, hkept.parent, ?_, fun hnone => absurd hwritten (hnone x)⟩
    intro y hy
    have hyx : y ≠ x := fun h => hy (h ▸ hwritten)
    rw [Store.bound, Bindings.lookup_insert, if_neg hyx, hkept.lookup y hy]
  · rw [if_neg hij]
    exact ⟨scope', rfl, hkept⟩

theorem push (h : s.KeptBut written s') (scope : Scope φ) : s.KeptBut written (s'.push scope) := by
  refine ⟨h.next_le.trans ((Nat.le_succ _).trans (s'.next_push scope).ge), ?_⟩
  intro j old hold
  obtain ⟨scope', hscope', hkept⟩ := h.scopes j old hold
  have hj : j ≠ s'.next := Nat.ne_of_lt (Array.getElem?_eq_some_iff.1 hscope').1
  exact ⟨scope', by rw [Store.scopes_push, if_neg hj, hscope'], hkept⟩

end Store.KeptBut

/-! ## runs under a frame -/

/-- A run with itself, from a store on: it writes the given names and new scopes only. -/
def Matching.frame (written : ScopeId → String → Prop) (start : Store φ) : Matching φ where
  Stores s s' := s = s' ∧ start.KeptBut written s
  Scopes _ := Eq
  Captures _ := Eq
  Literals _ := True
  Names i x := written i x ∨ start.next ≤ i
  Errors _ := True

namespace Matching

variable {written : ScopeId → String → Prop} {start : Store φ}

theorem frame_values (k : ℕ) (v : Value φ) : (frame written start).Values k v v :=
  Value.alike_self_iff.2 fun _ _ => ⟨fun _ _ => trivial, rfl⟩

/-- What a run that mirrors itself under a frame has written. -/
theorem Mirrors.keptBut {x : Eval φ α} {R : ℕ → α → α → Prop} {m m' : Machine φ}
    (h : (frame written m.store).Mirrors R m.store.next x x) (hx : (x m).machine? = some m') :
    m.store.KeptBut written m'.store := by
  have hm : (frame written m.store).Machines m m := ⟨rfl, rfl, .refl _ _⟩
  exact ((h.self le_rfl hm).1 m' hx).2.stores.2

/-- **A run writes nothing else.** -/
theorem lawful_frame [Foreign φ] (cx : Context φ) : (frame written start).Lawful cx := by
  have hresult : ∀ {k} (r : Except EvalError (Value φ)),
      SameResult ((frame written start).Values k) (frame written start).Errors r r := by
    rintro k (e | v)
    · exact .error trivial
    · exact .ok (frame_values k v)
  refine
    { scopes_mono := fun _ h => h
      captures_mono := fun _ h => h
      captures_of_live := fun _ _ _ _ => id
      chains := ?_
      define := ?_
      push := ?_
      fresh := fun hs => ⟨congrArg Store.next hs.1, congrArg Store.next hs.1, fun _ => .inr hs.2.next_le⟩
      literals := fun _ _ => trivial
      errors := fun _ _ => trivial
      errors_of_literals := fun _ _ => trivial
      host := ?_
      lookup := fun _ _ => frame_values _ _ }
  · rintro s _ i _ ⟨rfl, -⟩ rfl
    exact List.forall₂_same.2 fun scope _ => List.forall₂_same.2 fun b _ => ⟨rfl, frame_values _ _⟩
  · rintro s _ i _ x v v' ⟨rfl, hs⟩ rfl hx hv
    obtain rfl := hv.eq fun _ _ h => h
    exact ⟨rfl, hs.define hx v⟩
  · rintro s _ ⟨bindings, parent⟩ ⟨bindings', parent'⟩ ⟨rfl, hs⟩ hscope
    have hbindings : bindings = bindings' := by
      rw [← List.forall₂_eq_eq_eq]
      exact hscope.bindings.imp fun b b' hb => Prod.ext hb.1 (hb.2.eq fun _ _ h => h)
    have hparent : parent = parent' := by
      have h := hscope.parent
      cases h with
      | none => rfl
      | some h => rw [show _ = _ from h]
    subst hbindings hparent
    exact ⟨rfl, hs.push _⟩
  · rintro s _ ⟨rfl, -⟩
    refine Foreign.respects_of_self (fun _ _ h => h) ?_ ?_ ?_
    · exact fun _ _ _ _ r _ _ => hresult r
    · exact fun _ _ r _ => hresult r
    · exact fun _ _ r _ _ => hresult r

end Matching

/-! ## operations -/

/-- The names that an operation may bind at the top. -/
def Operation.targets : Operation φ → List String
  | .run e | .evaluate e => e.targets
  | .define x _ => [x]
  | .call _ _ | .limit _ _ _ | .binding _ => []

namespace Interpreter

theorem of_create {cx : Context φ} {i : Interpreter φ} {m m' : Machine φ} (h : create cx m = .ok i m') :
    i.context = cx ∧ i.top = m.store.next ∧ m' = { m with store := m.store.push {} } := by
  obtain ⟨rfl, rfl⟩ := Outcome.ok.inj h
  exact ⟨rfl, rfl, rfl⟩

variable [Foreign φ] [DecidableEq φ]

/-- **Operations write at the top only**, and there only the names that they assign. -/
theorem keptBut_of_perform {i : Interpreter φ} {n : ℕ} {op : Operation φ} {m m' : Machine φ}
    (h : (i.perform n op m).machine? = some m') :
    m.store.KeptBut (fun j x => j = i.top ∧ x ∈ op.targets) m'.store := by
  have hadmits : (Matching.frame (fun j x => j = i.top ∧ x ∈ op.targets) m.store).Admits i op := by
    cases op with
    | run e => exact ⟨fun _ _ => trivial, fun x hx => .inl ⟨rfl, hx⟩⟩
    | evaluate e => exact ⟨fun _ _ => trivial, fun x hx => .inl ⟨rfl, hx⟩⟩
    | define x v => exact .inl ⟨rfl, List.mem_singleton_self x⟩
    | call | limit | binding => trivial
  have hperform := Matching.mirrors_perform (Matching.lawful_frame i.context) rfl n hadmits
    fun v _ => Matching.frame_values m.store.next v
  exact hperform.keptBut h

end Interpreter

end RatCalc
