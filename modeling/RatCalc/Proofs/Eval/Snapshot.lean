import RatCalc.Proofs.Eval.Depth
import RatCalc.Proofs.Eval.Frame
import RatCalc.Proofs.Eval.Renumbering

/-!
# Snapshots are frozen

Under snapshot capture no closure has the top scope of its interpreter, which is the only one that operations still write
when it is there already.  So what a function of the interpreter can see is fixed from the moment that the function
exists, and a call of it ends in the same way before and after any other operations.

* `Interpreter.Owns` — the closures in a value were made by the interpreter;
* `Interpreter.Continues` — what operations on such values lead to;
* `Interpreter.Frozen`, `Interpreter.frozen_of_snapshot` — what holds then.
-/

namespace RatCalc

variable {φ : Type}

namespace Interpreter

/-- The closures in a value have scopes that were made after the interpreter: they are its own.  All other parts of the
value are built in, or a host's. -/
def Owns (i : Interpreter φ) (m : Machine φ) (v : Value φ) : Prop := v.Within fun j => i.top < j ∧ j < m.store.next

variable {i : Interpreter φ} {m m' : Machine φ}

/-- The top is evaluated in and not captured; older scopes are out of reach. -/
def reach (i : Interpreter φ) : Renumbering := .free (i.top + 1) (i.top + 1) (· = i.top) fun _ => False

theorem reach_eq (i : Interpreter φ) (k : ℕ) :
    (fun j : ScopeId => (j < i.top + 1 → False) ∧ j < k) = fun j => i.top < j ∧ j < k := by
  funext j
  exact propext (and_congr_left' Nat.not_lt)

theorem reach_values_iff {v : Value φ} : i.reach.matching.Values m.store.next v v ↔ i.Owns m v := by
  refine Renumbering.free_values_self_iff.trans ?_
  rw [reach_eq]
  rfl

/-- What the interpreter's own scopes hold is its own. -/
theorem reach_stores_iff {s : Store φ} : i.reach.matching.Stores s s ↔ i.top < s.next ∧
    ∀ (j : ScopeId) (scope : Scope φ), s.scopes[j]? = some scope → i.top ≤ j →
      scope.Within fun p => i.top < p ∧ p < s.next := by
  refine Renumbering.free_stores_self_iff.trans (and_congr_right fun _ => ?_)
  rw [reach_eq]
  refine forall₂_congr fun j scope => imp_congr_right fun _ => imp_congr_left ?_
  exact ⟨fun h => Nat.le_of_not_lt fun hj => absurd (h (Nat.lt_succ_of_lt hj)) (Nat.ne_of_lt hj),
    fun h hj => Nat.le_antisymm (Nat.le_of_lt_succ hj) h⟩

/-! ## sessions -/

variable [Foreign φ] [DecidableEq φ]

/-- Operations lead from one machine to another, each with values that are the interpreter's own. -/
inductive Continues (i : Interpreter φ) (m : Machine φ) : Machine φ → Prop
  | refl : i.Continues m m
  | step {m' m'' : Machine φ} {n : ℕ} {op : Operation φ} (hm : i.Continues m m') (hop : ∀ v ∈ op.values, i.Owns m' v)
      (h : (i.perform n op m').machine? = some m'') : i.Continues m m''

theorem Continues.session (h : i.Continues m m') (hm : i.Session m) : i.Session m' := by
  induction h with
  | refl => exact hm
  | step _ _ h ih => exact .performed ih h

/-- Nothing but the top is written. -/
theorem Continues.keptBut (h : i.Continues m m') : m.store.KeptBut (fun j _ => j = i.top) m'.store := by
  induction h with
  | refl => exact .refl _ _
  | step _ _ h ih => exact ih.trans ((keptBut_of_perform h).mono fun _ _ hx => hx.1)

section Sessions

variable (hhost : Foreign.Uniform φ 0) (hsnapshot : i.context.config.capture = .snapshot)
  (hlookup : ∀ x v, i.context.lookup x = some v → v.closures = [])
include hhost hsnapshot hlookup

theorem mirrors_perform_of_owns (hm : i.reach.matching.Stores m.store m.store) {op : Operation φ}
    (hop : ∀ v ∈ op.values, i.Owns m v) (n : ℕ) :
    i.reach.matching.Mirrors (fun k => Option.Rel (i.reach.matching.Values k)) m.store.next (i.perform n op)
      (i.perform n op) := by
  have hfits : i.reach.Fits i.context := by
    refine Renumbering.fits_free le_rfl False.elim ?_ hhost (Nat.zero_le _) nofun ?_
    · exact fun hlive => absurd (hlive.symm.trans hsnapshot) nofun
    · intro x v hv closure hclosure
      rw [hlookup x v hv] at hclosure
      cases hclosure
  have htop : i.reach.matching.Scopes (φ := φ) m.store.next i.top i.top :=
    paired_self_iff.2 ⟨rfl, fun _ => rfl, (reach_stores_iff.1 hm).1⟩
  exact Matching.mirrors_perform hfits.lawful htop n (Renumbering.free_admits i op) fun v hv =>
    reach_values_iff.2 (hop v hv)

/-- The interpreter's own scopes keep holding what is its own. -/
theorem Continues.stores (h : i.Continues m m') (hm : i.reach.matching.Stores m.store m.store) :
    i.reach.matching.Stores m'.store m'.store := by
  induction h with
  | refl => exact hm
  | step _ hop h ih =>
    exact ((mirrors_perform_of_owns hhost hsnapshot hlookup ih hop _).self le_rfl ⟨rfl, ih⟩).1 _ h |>.2.stores

end Sessions

/-- What an interpreter owns is not affected by what it does later. -/
structure Frozen (i : Interpreter φ) (m : Machine φ) : Prop where
  /-- The values that it answers with are its own. -/
  owns : ∀ {n op v m'}, (∀ v ∈ op.values, i.Owns m v) → i.perform n op m = .ok (some v) m' → i.Owns m' v
  /-- A call of its own values ends after other operations as it does before, but for new scopes. -/
  call : ∀ {n f args m'}, i.Owns m f → (∀ v ∈ args, i.Owns m v) → i.Continues m m' →
    (i.call n f args m).SameButNew m.store.next m'.store.next (i.call n f args m')

/-- **Snapshots are frozen.**  At every point of a session of an interpreter with snapshot capture, a call of its own
values gives the same number, the same error, or the same value up to new scopes, now and after any operations. -/
theorem frozen_of_snapshot {cx : Context φ} {m₀ m₁ : Machine φ} (hhost : Foreign.Uniform φ 0)
    (hsnapshot : cx.config.capture = .snapshot) (hlookup : ∀ x v, cx.lookup x = some v → v.closures = [])
    (hidle : m₀.depth = 0) (hcreate : create cx m₀ = .ok i m₁) (hm : i.Continues m₁ m) : i.Frozen m := by
  have hsession : i.Session m := hm.session (.created hidle hcreate)
  obtain ⟨rfl, htop, rfl⟩ := of_create hcreate
  have hcreated : i.reach.matching.Stores (m₀.store.push {}) (m₀.store.push {}) := by
    refine reach_stores_iff.2 ⟨by rw [Store.next_push, htop]; exact Nat.lt_succ_self _, ?_⟩
    intro j scope hscope hj
    rw [Store.scopes_push] at hscope
    split at hscope
    · cases hscope
      exact ⟨nofun, nofun⟩
    · -- scopes from `top` on were not there before
      rw [htop] at hj
      exact absurd (Array.getElem?_eq_some_iff.1 hscope).1 (Nat.not_lt.2 hj)
  have hstores := hm.stores hhost hsnapshot hlookup hcreated
  refine ⟨?_, ?_⟩
  · intro n op v m' hop h
    have hself := (mirrors_perform_of_owns hhost hsnapshot hlookup hstores hop n).self le_rfl ⟨rfl, hstores⟩
    cases hself.2.1 _ _ h with
    | some hv => exact reach_values_iff.1 hv
  · intro n f args m' hf hargs hm'
    have hkept := hm'.keptBut
    have hdepth : m.depth = m'.depth := hsession.depth_eq_zero.trans (hm'.session hsession).depth_eq_zero.symm
    have hfits : (Renumbering.free m.store.next m'.store.next (i.top < ·) (i.top < ·)).Fits i.context := by
      refine Renumbering.fits_free hkept.next_le id (fun _ => id) hhost (Nat.zero_le _) nofun ?_
      intro x v hv closure hclosure
      rw [hlookup x v hv] at hclosure
      cases hclosure
    refine Renumbering.callValue_sameButNew hfits hdepth ?_ hf hargs n
    intro j scope hj hscope
    have hlt : j < m.store.next := (Array.getElem?_eq_some_iff.1 hscope).1
    have hsame : m'.store.scopes[j]? = m.store.scopes[j]? := hkept.scopes_eq hlt fun _ => Nat.ne_of_gt hj
    exact ⟨hsame.trans hscope, (reach_stores_iff.1 hstores).2 j scope hscope (Nat.le_of_lt hj)⟩

/-- A function that returns `a` is frozen with the value that `a` has when it is made. -/
theorem frozen_of_snapshot_assigned :
    let cx : Context Token := { config := { capture := .snapshot } }
    let i : Interpreter Token := { context := cx, top := 0 }
    let m₀ : Machine Token := {}
    let m₁ : Machine Token := { store := ⟨#[{}]⟩ }
    let f : Value Token := .closure [] (.var "a") 1
    Foreign.Uniform Token 0 ∧ cx.config.capture = .snapshot ∧
      (∀ x v, cx.lookup x = some v → v.closures = []) ∧ m₀.depth = 0 ∧ create cx m₀ = .ok i m₁ ∧
      ∃ m, i.Continues m₁ m ∧ m.store.scopes[1]? = some { bindings := [("a", .number ⟨1, 1⟩)] } ∧ i.Owns m f ∧
        i.Frozen m := by
  intro cx i m₀ m₁ f
  let one : Value Token := .number ⟨1, 1⟩
  let e : Expr Token := .assign .fresh "f" (.lambda [] (.var "a"))
  let m₂ : Machine Token := { store := ⟨#[{ bindings := [("a", one)] }]⟩ }
  -- the machine after the function, whose scope has these bindings, has been assigned
  let after (bs : Bindings Token) : Machine Token :=
    { store := (m₂.store.push { bindings := bs }).define 0 "f" f, notes := [.evaluating e] }
  have hlookup : ∀ x v, cx.lookup x = some v → v.closures = [] := by
    intro x v h
    cases h
  have hcreate : create cx m₀ = .ok i m₁ := rfl
  have hvisible : m₂.store.visible 0 = [("a", one)] := by
    simp [Store.visible, Store.chain, m₂, Bindings.insertAll, Bindings.insert]
  have hone : i.Owns m₁ one := List.forall_mem_nil _
  have hvalues : ∀ v ∈ (Operation.define "a" one).values, i.Owns m₁ v := List.forall_mem_singleton.2 hone
  have hdefine : (i.perform 0 (.define "a" one) m₁).machine? = some m₂ := rfl
  have hassign : (i.perform 0 (.evaluate e) m₂).machine? = some (after (m₂.store.visible 0)) := rfl
  rw [hvisible] at hassign
  have hm : i.Continues m₁ (after [("a", one)]) :=
    .step (.step .refl hvalues hdefine) (List.forall_mem_nil _) hassign
  have hf : i.Owns (after [("a", one)]) f := List.forall_mem_singleton.2 ⟨Nat.zero_lt_one, Nat.one_lt_two⟩
  exact ⟨Token.uniform 0, rfl, hlookup, rfl, hcreate, _, hm, rfl, hf,
    frozen_of_snapshot (Token.uniform 0) rfl hlookup rfl hcreate hm⟩

end Interpreter

end RatCalc
