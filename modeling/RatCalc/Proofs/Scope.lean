import RatCalc.Scope

/-!
# Lookups after a definition

* `lookup_insert` — binding a name changes that name only;
* `chain_define_of_lt` — the scopes made before a scope do not see what is bound in it;
* `get?_define` — lookups in the scope of a definition find it, and find all other names as before.
-/

namespace RatCalc

variable {φ : Type}

namespace Bindings

theorem lookup_cons_eq (x y : String) (v : Value φ) (bs : Bindings φ) :
    List.lookup y ((x, v) :: bs) = if y = x then some v else bs.lookup y := by
  by_cases h : y = x
  · simp [h]
  · simp [List.lookup_cons, h, beq_eq_false_iff_ne.2 h]

theorem lookup_insert (x y : String) (v : Value φ) (bs : Bindings φ) :
    (insert x v bs).lookup y = if y = x then some v else bs.lookup y := by
  induction bs with
  | nil => rw [insert, lookup_cons_eq]
  | cons b bs ih =>
    obtain ⟨z, w⟩ := b
    unfold insert
    split
    · rename_i hz
      subst hz
      rw [lookup_cons_eq, lookup_cons_eq]
      split <;> rfl
    · rename_i hz
      rw [lookup_cons_eq, lookup_cons_eq, ih]
      by_cases hyz : y = z
      · have hyx : y ≠ x := fun h => hz (hyz.symm.trans h)
        rw [if_pos hyz, if_neg hyx, if_pos hyz]
      · rw [if_neg hyz, if_neg hyz]

end Bindings

namespace Store

variable (s : Store φ) (x : String) (v : Value φ)

@[simp] theorem next_push (scope : Scope φ) : (s.push scope).next = s.next + 1 := Array.size_push _

@[simp] theorem next_define (i : ScopeId) : (s.define i x v).next = s.next := Array.size_modify

theorem scopes_push (scope : Scope φ) (j : ScopeId) :
    (s.push scope).scopes[j]? = if j = s.next then some scope else s.scopes[j]? := Array.getElem?_push

/-- The scope with a name bound. -/
def bound (scope : Scope φ) : Scope φ := { scope with bindings := Bindings.insert x v scope.bindings }

theorem scopes_define (i j : ScopeId) :
    (s.define i x v).scopes[j]? = if i = j then s.scopes[j]?.map (bound x v) else s.scopes[j]? := by
  rw [define, Array.getElem?_modify]
  rfl

/-- A scope, and the chain of its parent. -/
theorem chain_eq {i : ScopeId} {scope : Scope φ} (h : s.scopes[i]? = some scope) :
    s.chain i = scope :: (scope.parent.elim [] fun p => if p < i then s.chain p else []) := by
  rw [chain, h]
  dsimp only
  split
  · rename_i hp
    rw [hp]
    rfl
  · rename_i p hp
    rw [hp, Option.elim]
    split <;> rfl

/-- Older scopes do not see the definition. -/
theorem chain_define_of_lt {i j : ScopeId} (h : j < i) : (s.define i x v).chain j = s.chain j := by
  induction j using Nat.strongRecOn with
  | _ j ih =>
    have hj : (s.define i x v).scopes[j]? = s.scopes[j]? := by
      rw [scopes_define, if_neg (Nat.ne_of_gt h)]
    cases hs : s.scopes[j]? with
    | none => rw [chain, chain, hj, hs]
    | some scope =>
      rw [chain_eq _ (hj.trans hs), chain_eq s hs]
      cases scope.parent with
      | none => rfl
      | some p =>
        by_cases hp : p < j
        · simp [hp, ih p hp (Nat.lt_trans hp h)]
        · simp [hp]

/-- **Definitions.**  The scope sees the new binding, and every other name as before. -/
theorem get?_define {i : ScopeId} (hi : i < s.next) (y : String) :
    (s.define i x v).get? i y = if y = x then some v else s.get? i y := by
  obtain ⟨scope, hs⟩ : ∃ scope, s.scopes[i]? = some scope := ⟨_, Array.getElem?_eq_getElem hi⟩
  have hd : (s.define i x v).scopes[i]? = some (bound x v scope) := by rw [scopes_define, if_pos rfl, hs, Option.map_some]
  have hrest : ∀ p : ScopeId, (if p < i then (s.define i x v).chain p else []) = if p < i then s.chain p else [] := by
    intro p
    split
    · rename_i hp
      exact s.chain_define_of_lt x v hp
    · rfl
  rw [get?, get?, chain_eq _ hd, chain_eq s hs, List.findSome?_cons, List.findSome?_cons, bound, Bindings.lookup_insert]
  simp only [hrest]
  by_cases hy : y = x
  · rw [if_pos hy, if_pos hy]
  · rw [if_neg hy, if_neg hy]

/-- There is nothing to bind in a scope that does not exist. -/
theorem define_of_le {i : ScopeId} (hi : s.next ≤ i) : s.define i x v = s := by
  have hscopes : (s.define i x v).scopes = s.scopes := by
    apply Array.ext_getElem?
    intro j
    rw [scopes_define]
    split
    · rename_i hj
      subst hj
      rw [Array.getElem?_eq_none hi]
      rfl
    · rfl
  exact congrArg Store.mk hscopes

end Store

end RatCalc
