import RatCalc.Proofs.Scope
import RatCalc.Proofs.Value.Likeness

/-!
# Likeness of scopes

Scopes are alike if they bind the same names to values that are alike, and if their parents may stand for each other.
Scopes of two stores that are alike, with their ancestors, show values that are alike.

* `Bindings.Alike`, `Scope.Alike` — the likeness;
* `insert`, `insertAll`, `frame` — bindings that are alike stay so;
* `Store.AlikeAt` — two stores whose scopes are alike where they belong together;
* `AlikeAt.chains` — then so are the scopes that are seen from there;
* `get?_alike`, `visible_alike` — what is found along such chains.
-/

namespace RatCalc

variable {φ : Type} {scopes scopes' : ScopeId → ScopeId → Prop} {bodies bodies' : Expr φ → Prop}

section

variable (scopes : ScopeId → ScopeId → Prop) (bodies : Expr φ → Prop)

/-- The same names in the same order, with values that are alike. -/
def Bindings.Alike (bs bs' : Bindings φ) : Prop :=
  List.Forall₂ (fun b b' => b.1 = b'.1 ∧ b.2.Alike scopes bodies b'.2) bs bs'

/-- Bindings that are alike, and parents that may stand for each other. -/
structure Scope.Alike (scope scope' : Scope φ) : Prop where
  bindings : scope.bindings.Alike scopes bodies scope'.bindings
  parent : Option.Rel scopes scope.parent scope'.parent

/-- Scopes that belong together are alike. -/
def Store.AlikeAt (pairs scopes : ScopeId → ScopeId → Prop) (bodies : Expr φ → Prop) (s s' : Store φ) : Prop :=
  ∀ j j', pairs j j' → ∃ scope scope', s.scopes[j]? = some scope ∧ s'.scopes[j']? = some scope' ∧
    scope.Alike scopes bodies scope'

end

/-! ## bindings -/

namespace Bindings

variable {bs bs' news news' : Bindings φ}

theorem Alike.mono (h : bs.Alike scopes bodies bs') (hscopes : ∀ i i', scopes i i' → scopes' i i')
    (hbodies : ∀ e, bodies e → bodies' e) : bs.Alike scopes' bodies' bs' :=
  List.Forall₂.imp (fun _ _ hb => ⟨hb.1, hb.2.mono hscopes hbodies⟩) h

theorem Alike.insert (h : bs.Alike scopes bodies bs') (x : String) {v v' : Value φ} (hv : v.Alike scopes bodies v') :
    (insert x v bs).Alike scopes bodies (insert x v' bs') := by
  induction h with
  | nil => exact .cons ⟨rfl, hv⟩ .nil
  | @cons b b' bs bs' hb hbs ih =>
    obtain ⟨y, u⟩ := b
    obtain ⟨y', u'⟩ := b'
    obtain ⟨rfl, hu⟩ : y = y' ∧ u.Alike scopes bodies u' := hb
    unfold Bindings.insert
    split
    · exact .cons ⟨rfl, hv⟩ hbs
    · exact .cons ⟨rfl, hu⟩ ih

theorem Alike.insertAll (hnews : news.Alike scopes bodies news') (h : bs.Alike scopes bodies bs') :
    (insertAll news bs).Alike scopes bodies (insertAll news' bs') := by
  unfold Bindings.insertAll
  induction hnews generalizing bs bs' with
  | nil => exact h
  | @cons b b' _ _ hb _ ih =>
    obtain ⟨x, u⟩ := b
    obtain ⟨x', u'⟩ := b'
    obtain ⟨rfl, hu⟩ : x = x' ∧ u.Alike scopes bodies u' := hb
    exact ih (h.insert x hu)

theorem Alike.lookup (h : bs.Alike scopes bodies bs') (x : String) :
    Option.Rel (Value.Alike scopes bodies) (bs.lookup x) (bs'.lookup x) := by
  induction h with
  | nil => exact .none
  | @cons b b' bs bs' hb _ ih =>
    obtain ⟨y, u⟩ := b
    obtain ⟨y', u'⟩ := b'
    obtain ⟨rfl, hu⟩ : y = y' ∧ u.Alike scopes bodies u' := hb
    rw [lookup_cons_eq, lookup_cons_eq]
    split
    · exact .some hu
    · exact ih

/-- The scopes of calls with arguments that are alike. -/
theorem alike_frame (params : List String) {args args' : List (Value φ)}
    (h : List.Forall₂ (Value.Alike scopes bodies) args args') :
    Bindings.Alike scopes bodies (frame params args) (frame params args') := by
  have hzip : Bindings.Alike scopes bodies (params.zip args) (params.zip args') := by
    induction h generalizing params with
    | nil => cases params <;> exact .nil
    | cons hv _ ih =>
      cases params with
      | nil => exact .nil
      | cons x params => exact .cons ⟨rfl, hv⟩ (ih params)
  exact hzip.insertAll .nil

end Bindings

/-! ## scopes -/

theorem Scope.Alike.mono {scope scope' : Scope φ} (h : scope.Alike scopes bodies scope')
    (hscopes : ∀ i i', scopes i i' → scopes' i i') (hbodies : ∀ e, bodies e → bodies' e) :
    scope.Alike scopes' bodies' scope' := by
  obtain ⟨hbindings, hparent⟩ := h
  refine ⟨hbindings.mono hscopes hbodies, ?_⟩
  generalize scope.parent = parent at hparent ⊢
  generalize scope'.parent = parent' at hparent ⊢
  cases hparent with
  | none => exact .none
  | some hp => exact .some (hscopes _ _ hp)

/-- A scope is like itself if what it holds is. -/
theorem Scope.alike_self_iff {scope : Scope φ} : scope.Alike scopes bodies scope ↔
    (∀ b ∈ scope.bindings, ∀ c ∈ b.2.closures, bodies c.body ∧ scopes c.scope c.scope) ∧
      ∀ p ∈ scope.parent, scopes p p := by
  constructor
  · intro h
    refine ⟨?_, ?_⟩
    · intro b hb
      exact Value.alike_self_iff.1 (List.forall₂_same.1 h.bindings b hb).2
    · intro p hp
      have hparent := h.parent
      rw [Option.mem_def.1 hp] at hparent
      cases hparent with
      | some h => exact h
  · rintro ⟨hbindings, hparent⟩
    refine ⟨List.forall₂_same.2 fun b hb => ⟨rfl, Value.alike_self_iff.2 (hbindings b hb)⟩, ?_⟩
    cases hp : scope.parent with
    | none => exact .none
    | some p => exact .some (hparent p hp)

/-! ## chains -/

namespace Store

variable {s s' : Store φ} {i i' : ScopeId}

/-- The scopes that two scopes see, one after the other, have bindings that are alike. -/
def ChainsAlike (scopes : ScopeId → ScopeId → Prop) (bodies : Expr φ → Prop) (s s' : Store φ) (i i' : ScopeId) : Prop :=
  List.Forall₂ (fun scope scope' => scope.bindings.Alike scopes bodies scope'.bindings) (s.chain i) (s'.chain i')

theorem AlikeAt.chains (h : s.AlikeAt scopes' scopes bodies s') (hparents : ∀ j j', scopes j j' → scopes' j j')
    (hlt : ∀ j j' p p', scopes' j j' → scopes' p p' → (p < j ↔ p' < j')) (hi : scopes' i i') :
    s.ChainsAlike scopes bodies s' i i' := by
  unfold ChainsAlike
  induction i using Nat.strongRecOn generalizing i' with
  | _ i ih =>
    obtain ⟨scope, scope', hscope, hscope', halike⟩ := h i i' hi
    rw [chain_eq s hscope, chain_eq s' hscope']
    refine .cons halike.bindings ?_
    have hparent := halike.parent
    generalize scope.parent = parent at hparent
    generalize scope'.parent = parent' at hparent
    cases hparent with
    | none => exact .nil
    | @some p p' hp =>
      simp only [Option.elim_some, ← hlt _ _ _ _ hi (hparents _ _ hp)]
      split
      · rename_i hpi
        exact ih p hpi (hparents _ _ hp)
      · exact .nil

theorem ChainsAlike.get? (h : s.ChainsAlike scopes bodies s' i i') (x : String) :
    Option.Rel (Value.Alike scopes bodies) (s.get? i x) (s'.get? i' x) := by
  unfold Store.get?
  unfold ChainsAlike at h
  generalize s.chain i = l at h
  generalize s'.chain i' = l' at h
  induction h with
  | nil => exact .none
  | @cons scope scope' _ _ hbs _ ih =>
    have hlookup := hbs.lookup x
    rw [List.findSome?_cons, List.findSome?_cons]
    generalize scope.bindings.lookup x = found at hlookup ⊢
    generalize scope'.bindings.lookup x = found' at hlookup ⊢
    cases hlookup with
    | none => exact ih
    | some hv => exact .some hv

theorem ChainsAlike.visible (h : s.ChainsAlike scopes bodies s' i i') :
    (s.visible i).Alike scopes bodies (s'.visible i') := by
  unfold Store.visible
  unfold ChainsAlike at h
  generalize s.chain i = l at h
  generalize s'.chain i' = l' at h
  induction h with
  | nil => exact .nil
  | cons hbs _ ih => exact hbs.insertAll ih

end Store

end RatCalc
