import RatCalc.Proofs.Eval.Matching
import RatCalc.Token

/-!
# Runs with other scope numbers

Of two runs that start with `n` scopes and with `n'`, each keeps its first scopes, and what they make from then on they
make in the same order.  They match if the first scopes that they look at are the same for both.  With one store on both
sides this is an invariant of a single run: which scopes can be reached, and what can be found there.

* `Renumbered`, `Paired` — the scopes that belong together, all of them or those that can be reached;
* `Matching.renumbering` — the matching of the two runs, and `lawful_renumbering`;
* `stores_self_iff` — what it says of a single run;
* `Outcome.SameButNew` — endings that are the same up to the scopes made on the way.
-/

namespace RatCalc

variable {φ α : Type} {n n' : ℕ}

/-! ## pairs of scopes -/

/-- Scope `j` of the one run is scope `j'` of the other: the first ones are themselves, and those made since are counted
from the `n` and `n'` that were there. -/
def Renumbered (n n' j j' : ℕ) : Prop := (j < n ∧ j' = j) ∨ ∃ d, j = n + d ∧ j' = n' + d

theorem renumbered_self_iff {j j' : ℕ} : Renumbered n n j j' ↔ j' = j := by
  constructor
  · rintro (⟨-, rfl⟩ | ⟨d, rfl, rfl⟩) <;> rfl
  · rintro rfl
    rcases Nat.lt_or_ge j' n with hlt | hge
    · exact .inl ⟨hlt, rfl⟩
    · exact .inr ⟨j' - n, by omega, by omega⟩

namespace Renumbered

variable {j j' p p' : ℕ}

theorem succ (h : Renumbered n n' j j') (hj : n ≤ j) : Renumbered n n' (j + 1) (j' + 1) := by
  rcases h with ⟨hlt, -⟩ | ⟨d, rfl, rfl⟩
  · omega
  · exact .inr ⟨d + 1, rfl, rfl⟩

theorem lt_iff (hn : n ≤ n') (h : Renumbered n n' j j') (hp : Renumbered n n' p p') : p < j ↔ p' < j' := by
  rcases h with ⟨hj, rfl⟩ | ⟨d, rfl, rfl⟩ <;> rcases hp with ⟨hp, rfl⟩ | ⟨d', rfl, rfl⟩ <;> omega

theorem eq_iff (hn : n ≤ n') (h : Renumbered n n' j j') (hp : Renumbered n n' p p') : p = j ↔ p' = j' := by
  rcases h with ⟨hj, rfl⟩ | ⟨d, rfl, rfl⟩ <;> rcases hp with ⟨hp, rfl⟩ | ⟨d', rfl, rfl⟩ <;> omega

end Renumbered

/-- Scopes that belong together among the first `k`, of the old ones only those in `old`. -/
structure Paired (n n' : ℕ) (old : ScopeId → Prop) (k : ℕ) (j j' : ScopeId) : Prop where
  renumbered : Renumbered n n' j j'
  old : j < n → old j
  lt : j < k

section

variable {old : ScopeId → Prop} {k k' : ℕ} {j j' : ScopeId}

theorem Paired.mono (h : Paired n n' old k j j') (hk : k ≤ k') : Paired n n' old k' j j' :=
  ⟨h.renumbered, h.old, h.lt.trans_le hk⟩

theorem Paired.imp {old' : ScopeId → Prop} (h : Paired n n' old k j j') (hold : ∀ j, old j → old' j) :
    Paired n n' old' k j j' := ⟨h.renumbered, fun hj => hold j (h.old hj), h.lt⟩

theorem paired_self_iff : Paired n n old k j j' ↔ j' = j ∧ (j < n → old j) ∧ j < k := by
  rw [← renumbered_self_iff]
  exact ⟨fun h => ⟨h.1, h.2, h.3⟩, fun h => ⟨h.1, h.2.1, h.2.2⟩⟩

end

/-! ## the matching -/

/-- What two runs may see of what was there before they began, `n` scopes for the one and `n'` for the other. -/
structure Renumbering where
  n : ℕ
  n' : ℕ
  /-- The old scopes in which they may evaluate. -/
  current : ScopeId → Prop
  /-- The old scopes that closures may have. -/
  captured : ScopeId → Prop
  literals : String → Prop
  errors : EvalError → Prop

namespace Renumbering

/-- The matching of the two runs. -/
def matching (r : Renumbering) : Matching φ where
  Stores s s' := r.n ≤ s.next ∧ Renumbered r.n r.n' s.next s'.next ∧
    s.AlikeAt (Paired r.n r.n' r.current s.next) (Paired r.n r.n' r.captured s.next)
      (fun e => ∀ text ∈ e.literals, r.literals text) s'
  Scopes := Paired r.n r.n' r.current
  Captures := Paired r.n r.n' r.captured
  Literals := r.literals
  Names _ _ := True
  Errors := r.errors

/-- The two runs make the same steps in a context. -/
structure Fits [Foreign φ] (r : Renumbering) (cx : Context φ) : Prop where
  le : r.n ≤ r.n'
  current_of_captured : ∀ {j}, r.captured j → r.current j
  captured_of_live : cx.config.capture = .live → ∀ {j}, r.current j → r.captured j
  literals : ∀ text, Literal.WellFormed text → r.literals text
  errors : ∀ e : EvalError, ¬ e.IsMalformed → r.errors e
  errors_of_literals : ∀ {text fault}, r.literals text → Literal.read text = .error fault →
    r.errors (.malformedLiteral text fault)
  host : ∀ k, r.n ≤ k → Foreign.Respects φ (r.matching.Captures (φ := φ) k) r.matching.Bodies r.errors
  lookup : ∀ {x v}, cx.lookup x = some v → ∀ k, r.n ≤ k → r.matching.Values k v v

variable {r : Renumbering} {s s' : Store φ}

theorem stores_define (hn : r.n ≤ r.n') (h : r.matching.Stores s s') {i i' : ScopeId} (x : String) {v v' : Value φ}
    (hi : r.matching.Scopes (φ := φ) s.next i i') (hv : r.matching.Values s.next v v') :
    r.matching.Stores (s.define i x v) (s'.define i' x v') := by
  obtain ⟨hle, hnext, hscopes⟩ := h
  refine ⟨by simpa using hle, by simpa using hnext, ?_⟩
  rw [Store.next_define]
  intro j j' hj
  obtain ⟨scope, scope', hscope, hscope', halike⟩ := hscopes j j' hj
  rw [Store.scopes_define, Store.scopes_define, hscope, hscope']
  have hij := hj.renumbered.eq_iff hn hi.renumbered
  by_cases h : i = j
  · rw [if_pos h, if_pos (hij.1 h)]
    exact ⟨_, _, rfl, rfl, halike.bindings.insert x hv, halike.parent⟩
  · rw [if_neg h, if_neg (hij.not.1 h)]
    exact ⟨scope, scope', rfl, rfl, halike⟩

theorem stores_push (hn : r.n ≤ r.n') (h : r.matching.Stores s s') {scope scope' : Scope φ}
    (hscope : scope.Alike (r.matching.Captures (φ := φ) s.next) r.matching.Bodies scope') :
    r.matching.Stores (s.push scope) (s'.push scope') := by
  obtain ⟨hle, hnext, hscopes⟩ := h
  have hmono : ∀ j j', Paired r.n r.n' r.captured s.next j j' → Paired r.n r.n' r.captured (s.next + 1) j j' :=
    fun _ _ hj => hj.mono (Nat.le_succ _)
  refine ⟨by simpa using hle.trans (Nat.le_succ _), by simpa using hnext.succ hle, ?_⟩
  rw [Store.next_push]
  intro j j' hj
  have hnew := hnext.eq_iff hn hj.renumbered
  rw [Store.scopes_push, Store.scopes_push]
  by_cases hlast : j = s.next
  · rw [if_pos hlast, if_pos (hnew.1 hlast)]
    exact ⟨scope, scope', rfl, rfl, hscope.mono hmono fun _ => id⟩
  · rw [if_neg hlast, if_neg (hnew.not.1 hlast)]
    have hlt : j < s.next := Nat.lt_of_le_of_ne (Nat.le_of_lt_succ hj.lt) hlast
    obtain ⟨old, old', hold, hold', halike⟩ := hscopes j j' ⟨hj.renumbered, hj.old, hlt⟩
    exact ⟨old, old', hold, hold', halike.mono hmono fun _ => id⟩

/-- **The two runs make the same steps.** -/
theorem Fits.lawful [Foreign φ] {cx : Context φ} (h : r.Fits cx) : r.matching.Lawful cx where
  scopes_mono hk hi := hi.mono hk
  captures_mono hk hi := hi.mono hk
  captures_of_live hlive _ _ _ hi := hi.imp fun _ => h.captured_of_live hlive
  chains hs hi := hs.2.2.chains (fun _ _ hj => hj.imp fun _ => h.current_of_captured)
    (fun _ _ _ _ hj hp => hj.renumbered.lt_iff h.le hp.renumbered) hi
  define hs hi _ hv := stores_define h.le hs _ hi hv
  push hs hscope := stores_push h.le hs hscope
  fresh {s s'} hs := by
    have hnew : ∀ old : ScopeId → Prop, Paired r.n r.n' old (s.next + 1) s.next s'.next :=
      fun _ => ⟨hs.2.1, fun hlt => absurd hs.1 (Nat.not_le.2 hlt), Nat.lt_succ_self _⟩
    exact ⟨hnew _, hnew _, fun _ => trivial⟩
  literals := h.literals
  errors := h.errors
  errors_of_literals := h.errors_of_literals
  host hs := h.host _ hs.1
  lookup hs hv := h.lookup hv _ hs.1

/-! ## single runs -/

section

variable (hr : r.n' = r.n)
include hr

theorem values_self_iff {k : ℕ} {v : Value φ} : r.matching.Values k v v ↔ ∀ closure ∈ v.closures,
    (∀ text ∈ closure.body.literals, r.literals text) ∧
      (closure.scope < r.n → r.captured closure.scope) ∧ closure.scope < k := by
  refine Value.alike_self_iff.trans ?_
  refine forall₂_congr fun closure _ => and_congr_right fun _ => ?_
  show Paired r.n r.n' r.captured k closure.scope closure.scope ↔ _
  rw [hr, paired_self_iff, and_iff_right rfl]

/-- The invariant of a single run: what is found in the scopes that it can reach. -/
theorem stores_self_iff : r.matching.Stores s s ↔ r.n ≤ s.next ∧
    ∀ j scope, s.scopes[j]? = some scope → (j < r.n → r.current j) →
      (∀ b ∈ scope.bindings, r.matching.Values s.next b.2 b.2) ∧
        ∀ p ∈ scope.parent, (p < r.n → r.captured p) ∧ p < s.next := by
  have halike : ∀ scope : Scope φ, scope.Alike (r.matching.Captures (φ := φ) s.next) r.matching.Bodies scope ↔
      (∀ b ∈ scope.bindings, r.matching.Values s.next b.2 b.2) ∧
        ∀ p ∈ scope.parent, (p < r.n → r.captured p) ∧ p < s.next := by
    intro scope
    refine Scope.alike_self_iff.trans (and_congr ?_ ?_)
    · exact forall₂_congr fun b _ => Value.alike_self_iff.symm
    · refine forall₂_congr fun p _ => ?_
      show Paired r.n r.n' r.captured s.next p p ↔ _
      rw [hr, paired_self_iff, and_iff_right rfl]
  constructor
  · rintro ⟨hle, -, hscopes⟩
    refine ⟨hle, ?_⟩
    intro j scope hscope hj
    have hlt : j < s.next := (Array.getElem?_eq_some_iff.1 hscope).1
    obtain ⟨scope₁, scope₂, h₁, h₂, h⟩ := hscopes j j (by rw [hr]; exact paired_self_iff.2 ⟨rfl, hj, hlt⟩)
    cases hscope.symm.trans h₁
    cases hscope.symm.trans h₂
    exact (halike scope).1 h
  · rintro ⟨hle, hscopes⟩
    refine ⟨hle, by rw [hr]; exact renumbered_self_iff.2 rfl, ?_⟩
    intro j j' hj
    rw [hr] at hj
    obtain ⟨rfl, hold, hlt⟩ := paired_self_iff.1 hj
    have hscope := Array.getElem?_eq_getElem hlt
    exact ⟨_, _, hscope, hscope, (halike _).2 (hscopes _ _ hscope hold)⟩

end

end Renumbering

/-! ## endings -/

/-- Endings of runs that began with `n` and with `n'` scopes are the same but for the numbers of new scopes: the same
error, or values that differ only in the scopes of their closures, which are the same old ones, or new ones that hold in
turn the same. -/
def Outcome.SameButNew (n n' : ℕ) : Outcome φ (Value φ) → Outcome φ (Value φ) → Prop
  | .ok v m, .ok v' m' => ∃ pairs : ScopeId → ScopeId → Prop, (∀ j j', pairs j j' → Renumbered n n' j j') ∧
      v.Alike pairs (fun _ => True) v' ∧ m.store.AlikeAt pairs pairs (fun _ => True) m'.store
  | .error e _, .error e' _ => e = e'
  | .outOfFuel, .outOfFuel => True
  | _, _ => False

theorem Renumbering.sameButNew {r : Renumbering} (hcaptured : ∀ {j}, r.captured j → r.current j) {k : ℕ}
    {o o' : Outcome φ (Value φ)} (h : r.matching.Ends r.matching.Values k o o') : o.SameButNew r.n r.n' o' := by
  cases h with
  | @ok v v' m m' _ hv hm =>
    refine ⟨Paired r.n r.n' r.captured m.store.next, fun _ _ hj => hj.renumbered,
      hv.mono (fun _ _ => id) fun _ _ => trivial, ?_⟩
    intro j j' hj
    obtain ⟨scope, scope', hscope, hscope', halike⟩ := hm.stores.2.2 j j' (hj.imp fun _ => hcaptured)
    exact ⟨scope, scope', hscope, hscope', halike.mono (fun _ _ => id) fun _ _ => trivial⟩
  | error _ _ _ => rfl
  | spent => trivial

/-! ## hosts that do not look into closures -/

/-- All closures in a value have scopes in `old`. -/
def Value.Within (old : ScopeId → Prop) (v : Value φ) : Prop := ∀ closure ∈ v.closures, old closure.scope

/-- All that a scope refers to is in `old`. -/
structure Scope.Within (old : ScopeId → Prop) (scope : Scope φ) : Prop where
  bindings : ∀ b ∈ scope.bindings, b.2.Within old
  parent : ∀ p ∈ scope.parent, old p

section

variable {old old' : ScopeId → Prop}

theorem Value.Within.mono {v : Value φ} (h : v.Within old) (hold : ∀ j, old j → old' j) : v.Within old' :=
  fun closure hclosure => hold _ (h closure hclosure)

theorem Scope.Within.mono {scope : Scope φ} (h : scope.Within old) (hold : ∀ j, old j → old' j) : scope.Within old' :=
  ⟨fun b hb => (h.bindings b hb).mono hold, fun p hp => hold p (h.parent p hp)⟩

end

/-- Hosts that pass closures on without looking into them.  Those that they bring along themselves have one of the first
`n` scopes. -/
def Foreign.Uniform (φ : Type) [Foreign φ] (n : ℕ) : Prop :=
  ∀ scopes : ScopeId → ScopeId → Prop, (∀ j < n, scopes j j) →
    Foreign.Respects φ scopes (fun _ => True) (fun _ => True)

namespace Token

section

variable {scopes : ScopeId → ScopeId → Prop} {bodies : Expr Token → Prop} {v v' : Value Token}

theorem binary_eq_of_alike (x : Token) (op : BinaryOp) (side : Side) (h : v.Alike scopes bodies v') :
    binary x op v side = binary x op v' side := by
  cases h with
  | number | unit | foreign | builtin => rfl
  | _ =>
    unfold binary
    cases x.kind <;> cases op <;> rfl

theorem cmp?_eq_of_alike (x : Token) (h : v.Alike scopes bodies v') : cmp? x v = cmp? x v' := by
  cases h with
  | number | unit | foreign | builtin => rfl
  | _ =>
    unfold cmp?
    cases x.kind <;> rfl

end

/-- Tokens pass closures on, or take no notice of them. -/
theorem uniform (n : ℕ) : Foreign.Uniform Token n := by
  intro scopes _
  refine ⟨?_, ?_, ?_, ?_⟩
  · intro x op v v' side hv
    show Option.Rel _ (binary x op v side) (binary x op v' side)
    rw [← binary_eq_of_alike x op side hv]
    unfold binary
    split
    · exact .some (.ok (.foreign _))
    · exact .some (.ok (.foreign _))
    · cases side <;> exact .some (.error trivial)
    · exact .some (.ok .unit)
    · exact .none
  · intro x op
    show Option.Rel _ (unary x op) (unary x op)
    unfold unary
    split
    · exact .some (.ok (.foreign _))
    · exact .some (.error trivial)
    · exact .none
  · exact fun x v v' hv => cmp?_eq_of_alike x hv
  · intro x args args' hargs
    show Option.Rel _ (call x args) (call x args')
    unfold call
    rw [hargs.length_eq]
    cases x.kind with
    | inert | atom => exact .none
    | probe =>
      cases hargs with
      | nil => exact .none
      | cons hv hvs =>
        cases hvs with
        | nil => exact .some (.ok hv)
        | cons hw hws => exact .some (.error trivial)

end Token

namespace Renumbering

/-- Runs under such hosts; literals and errors are left open. -/
def free (n n' : ℕ) (current captured : ScopeId → Prop) : Renumbering where
  n := n
  n' := n'
  current := current
  captured := captured
  literals _ := True
  errors _ := True

variable {current captured : ScopeId → Prop} {s s' : Store φ} {k : ℕ} {v : Value φ}

theorem free_values_self_iff : (free n n current captured).matching.Values k v v ↔
    v.Within fun j => (j < n → captured j) ∧ j < k := by
  refine (values_self_iff rfl).trans ?_
  exact forall₂_congr fun _ _ => and_iff_right fun _ _ => trivial

theorem free_stores_self_iff : (free n n current captured).matching.Stores s s ↔ n ≤ s.next ∧
    ∀ j scope, s.scopes[j]? = some scope → (j < n → current j) →
      scope.Within fun p => (p < n → captured p) ∧ p < s.next := by
  refine (stores_self_iff rfl).trans (and_congr_right fun _ => ?_)
  refine forall₂_congr fun j scope => imp_congr_right fun _ => imp_congr_right fun _ => ?_
  exact ⟨fun h => ⟨fun b hb => free_values_self_iff.1 (h.1 b hb), h.2⟩,
    fun h => ⟨fun b hb => free_values_self_iff.2 (h.bindings b hb), h.parent⟩⟩

theorem free_values (h : v.Within fun j => captured j ∧ j < n) : (free n n' current captured).matching.Values n v v :=
  Value.alike_self_iff.2 fun closure hclosure =>
    ⟨fun _ _ => trivial, .inl ⟨(h closure hclosure).2, rfl⟩, fun _ => (h closure hclosure).1, (h closure hclosure).2⟩

/-- Two stores match if the old scopes that can be reached are the same in both. -/
theorem free_stores (h : ∀ j scope, captured j → s.scopes[j]? = some scope → s'.scopes[j]? = some scope ∧
    scope.Within fun p => captured p ∧ p < s.next) :
    (free s.next s'.next captured captured).matching.Stores s s' := by
  refine ⟨le_rfl, .inr ⟨0, rfl, rfl⟩, ?_⟩
  rintro j j' ⟨hj, hold, hlt⟩
  rcases hj with ⟨-, rfl⟩ | ⟨d, hd, -⟩
  · have hscope := Array.getElem?_eq_getElem hlt
    obtain ⟨hscope', hwithin⟩ := h _ _ (hold hlt) hscope
    refine ⟨_, _, hscope, hscope', Scope.alike_self_iff.2 ⟨?_, ?_⟩⟩
    · exact fun b hb => Value.alike_self_iff.1 (free_values (hwithin.bindings b hb))
    · intro p hp
      obtain ⟨hcaptured, hp⟩ := hwithin.parent p hp
      exact ⟨.inl ⟨hp, rfl⟩, fun _ => hcaptured, hp⟩
  · exact absurd hlt (Nat.not_lt.2 (hd ▸ Nat.le_add_right _ _))

theorem free_admits (i : Interpreter φ) (op : Operation φ) : (free n n' current captured).matching.Admits i op := by
  cases op with
  | run | evaluate => exact ⟨fun _ _ => trivial, fun _ _ => trivial⟩
  | call | limit | define | binding => trivial

variable [Foreign φ] {cx : Context φ}

theorem fits_free {n₀ : ℕ} (hn : n ≤ n') (hcaptured : ∀ {j}, captured j → current j)
    (hlive : cx.config.capture = .live → ∀ {j}, current j → captured j) (hhost : Foreign.Uniform φ n₀) (hn₀ : n₀ ≤ n)
    (hown : ∀ j < n₀, captured j) (hlookup : ∀ x v, cx.lookup x = some v → v.Within fun j => captured j ∧ j < n) :
    (free n n' current captured).Fits cx where
  le := hn
  current_of_captured := hcaptured
  captured_of_live := hlive
  literals _ _ := trivial
  errors _ _ := trivial
  errors_of_literals _ _ := trivial
  host k hk := by
    have hbodies : (free n n' current captured).matching.Bodies = fun _ : Expr φ => True := by
      funext e
      exact eq_true fun _ _ => trivial
    rw [hbodies]
    refine hhost _ fun j hj => ?_
    exact ⟨.inl ⟨hj.trans_le hn₀, rfl⟩, fun _ => hown j hj, hj.trans_le (hn₀.trans hk)⟩
  lookup {x v} hv k hk := by
    refine Value.Alike.mono (free_values (hlookup x v hv)) ?_ fun _ => id
    exact fun _ _ hj => hj.mono hk

/-- **A call depends on what it can reach.**  From two machines in which the scopes that can be reached are the same, it
ends in the same way but for new scopes. -/
theorem callValue_sameButNew {m m' : Machine φ}
    (hfits : (free m.store.next m'.store.next captured captured).Fits cx) (hdepth : m.depth = m'.depth)
    (hscopes : ∀ j scope, captured j → m.store.scopes[j]? = some scope → m'.store.scopes[j]? = some scope ∧
      scope.Within fun p => captured p ∧ p < m.store.next)
    {f : Value φ} (hf : f.Within fun j => captured j ∧ j < m.store.next) {args : List (Value φ)}
    (hargs : ∀ v ∈ args, v.Within fun j => captured j ∧ j < m.store.next) (fuel : ℕ) :
    (callValue cx fuel f args m).SameButNew m.store.next m'.store.next (callValue cx fuel f args m') := by
  have hargs' : List.Forall₂ ((free m.store.next m'.store.next captured captured).matching.Values m.store.next)
      args args := List.forall₂_same.2 fun v hv => free_values (hargs v hv)
  have hcall := Matching.mirrors_callValue hfits.lawful fuel (free_values hf) hargs'
  exact sameButNew id (hcall le_rfl ⟨hdepth, free_stores hscopes⟩)

end Renumbering

end RatCalc
