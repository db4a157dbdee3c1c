import RatCalc.Proofs.Scope

/-!
# Histories of scopes

A history is all that was ever done to the scopes of a store, the newest operation first.  What a lookup has to answer is
read off the history alone, and the store answers just that.

* `ScopeOp`, `History.Valid` — the operations, and the histories in which each is about a scope that exists;
* `History.ancestry`, `latest?`, `nearest?` — a scope and its ancestors, the most recent definition of a name in a scope,
  and the one in the nearest scope that has any;
* `History.Kept` — the store of a history holds exactly its most recent definitions; `kept_of_valid` — by induction, with
  one lemma for each operation;
* `History.faithful_of_valid` — lookups, definitions and copies after any history.
-/

namespace RatCalc

variable {φ : Type}

/-! ## bindings with distinct names -/

namespace Bindings

theorem names_insert (x : String) (v : Value φ) (bs : Bindings φ) :
    (insert x v bs).map Prod.fst = if x ∈ bs.map Prod.fst then bs.map Prod.fst else bs.map Prod.fst ++ [x] := by
  induction bs with
  | nil => rfl
  | cons b bs ih =>
    obtain ⟨y, w⟩ := b
    unfold insert
    by_cases hy : y = x
    · simp [hy]
    · rw [if_neg hy, List.map_cons, ih]
      by_cases hx : x ∈ bs.map Prod.fst
      · simp [hx]
      · simp [hx, Ne.symm hy]

theorem nodup_insert {bs : Bindings φ} (h : (bs.map Prod.fst).Nodup) (x : String) (v : Value φ) :
    ((insert x v bs).map Prod.fst).Nodup := by
  rw [names_insert]
  split
  · exact h
  · rename_i hx
    have hdisjoint : ∀ y ∈ bs.map Prod.fst, ∀ z ∈ [x], y ≠ z := by
      rintro y hy z hz rfl
      exact hx (List.mem_singleton.1 hz ▸ hy)
    exact List.nodup_append.2 ⟨h, List.pairwise_singleton _ x, hdisjoint⟩

theorem nodup_insertAll {old : Bindings φ} (h : (old.map Prod.fst).Nodup) (news : Bindings φ) :
    ((insertAll news old).map Prod.fst).Nodup := by
  unfold insertAll
  induction news generalizing old with
  | nil => exact h
  | cons b news ih => exact ih (nodup_insert h b.1 b.2)

theorem lookup_insertAll {news : Bindings φ} (h : (news.map Prod.fst).Nodup) (old : Bindings φ) (x : String) :
    (insertAll news old).lookup x = (news.lookup x).or (old.lookup x) := by
  induction news generalizing old with
  | nil => rfl
  | cons b news ih =>
    obtain ⟨y, v⟩ := b
    obtain ⟨hy, hnews⟩ := List.nodup_cons.1 h
    have hstep : insertAll ((y, v) :: news) old = insertAll news (insert y v old) := rfl
    rw [hstep, ih hnews, lookup_insert, lookup_cons_eq]
    by_cases hx : x = y
    · -- no later binding of the same name takes its place
      have hnone : news.lookup x = none := by
        rw [List.lookup_eq_none_iff]
        rintro ⟨z, w⟩ hz
        have hzy : z ≠ y := fun hzy => hy (List.mem_map.2 ⟨(z, w), hz, hzy⟩)
        simpa [hx] using hzy.symm
      rw [if_pos hx, if_pos hx, hnone]
      rfl
    · rw [if_neg hx, if_neg hx]

end Bindings

namespace Store

/-- The copy of all that a scope sees binds every name as lookups in the scope do. -/
theorem lookup_visible {s : Store φ} {i : ScopeId} (h : ∀ scope ∈ s.chain i, (scope.bindings.map Prod.fst).Nodup)
    (x : String) : (s.visible i).lookup x = s.get? i x := by
  unfold visible get?
  generalize s.chain i = scopes at h
  induction scopes with
  | nil => rfl
  | cons scope outer ih =>
    obtain ⟨hscope, houter⟩ := List.forall_mem_cons.1 h
    rw [List.foldr_cons, Bindings.lookup_insertAll hscope, ih houter, List.findSome?_cons]
    cases scope.bindings.lookup x <;> rfl

theorem nodup_visible (s : Store φ) (i : ScopeId) : ((s.visible i).map Prod.fst).Nodup := by
  unfold visible
  induction s.chain i with
  | nil => exact List.nodup_nil
  | cons scope outer ih => exact Bindings.nodup_insertAll ih scope.bindings

theorem any_eq_isSome_lookup (bs : Bindings φ) (x : String) : bs.any (·.1 == x) = (bs.lookup x).isSome := by
  induction bs with
  | nil => rfl
  | cons b bs ih =>
    obtain ⟨y, v⟩ := b
    rw [List.any_cons, Bindings.lookup_cons_eq, ih]
    by_cases hx : x = y
    · simp [hx]
    · simp [hx, Ne.symm hx]

/-- A name is bound exactly when it has a value. -/
theorem contains_eq_isSome_get? (s : Store φ) (i : ScopeId) (x : String) : s.contains i x = (s.get? i x).isSome := by
  unfold contains get?
  induction s.chain i with
  | nil => rfl
  | cons scope outer ih =>
    rw [List.any_cons, List.findSome?_cons, any_eq_isSome_lookup, ih]
    cases scope.bindings.lookup x <;> rfl

end Store

/-! ## histories -/

/-- What can be done to the scopes of a store. -/
inductive ScopeOp (φ : Type) where
  | root
  | child (parent : ScopeId)
  | define (scope : ScopeId) (name : String) (v : Value φ)
  /-- Make a root scope with a copy of all that another one sees. -/
  | flatten (source : ScopeId)

namespace ScopeOp

def apply (s : Store φ) : ScopeOp φ → Store φ
  | root => s.root
  | child p => s.child p
  | define i x v => s.define i x v
  | flatten i => s.flatten i

/-- The scope that an operation is about is one of the first `n`. -/
def Fits (n : ScopeId) : ScopeOp φ → Prop
  | root => True
  | child p => p < n
  | define i _ _ => i < n
  | flatten i => i < n

end ScopeOp

/-- Operations on the scopes of a store that was empty at first, the newest operation first. -/
abbrev History (φ : Type) := List (ScopeOp φ)

namespace History

/-- The store that is there after all operations. -/
def store : History φ → Store φ
  | [] => {}
  | op :: past => op.apply (store past)

/-- The number of scopes made, which is also the number of the next one. -/
def size : History φ → ScopeId
  | [] => 0
  | .define _ _ _ :: past => size past
  | _ :: past => size past + 1

/-- Every operation is about a scope that exists. -/
def Valid : History φ → Prop
  | [] => True
  | op :: past => op.Fits (size past) ∧ Valid past

/-- A scope and its ancestors, innermost first. -/
def ancestry : History φ → ScopeId → List ScopeId
  | [], i => [i]
  | .child p :: past, i => if i = size past then i :: ancestry past p else ancestry past i
  | _ :: past, i => ancestry past i

/-- The most recent definition of a name in a scope itself.  A flattened scope starts with what its source answers. -/
def latest? : History φ → ScopeId → String → Option (Value φ)
  | [], _, _ => none
  | .define j y v :: past, i, x => if i = j ∧ x = y then some v else latest? past i x
  | .flatten j :: past, i, x =>
    if i = size past then (ancestry past j).findSome? (latest? past · x) else latest? past i x
  | _ :: past, i, x => latest? past i x

/-- The most recent definition of a name in the nearest scope, of a scope and its ancestors, that has one. -/
def nearest? (h : History φ) (i : ScopeId) (x : String) : Option (Value φ) := (ancestry h i).findSome? (latest? h · x)

/-- A name defined in scope `j` shows in scope `i`: that is `j` itself or below `j`, and no nearer scope defines the name. -/
def Shows (h : History φ) (j i : ScopeId) (x : String) : Prop :=
  ∃ nearer outer, ancestry h i = nearer ++ j :: outer ∧ ∀ k ∈ nearer, latest? h k x = none

variable {h past : History φ} {i j p : ScopeId} {x y : String} {v : Value φ}

/-! ## scopes that are not there yet -/

theorem ancestry_of_size_le (hi : size h ≤ i) : ancestry h i = [i] := by
  induction h with
  | nil => rfl
  | cons op past ih =>
    cases op with
    | define => exact ih hi
    | root | flatten => exact ih (Nat.le_of_succ_le hi)
    | child => exact (if_neg (Nat.ne_of_gt hi)).trans (ih (Nat.le_of_succ_le hi))

theorem latest?_of_size_le (hv : Valid h) (hi : size h ≤ i) (x : String) : latest? h i x = none := by
  induction h with
  | nil => rfl
  | cons op past ih =>
    obtain ⟨hop, hpast⟩ := hv
    cases op with
    | define j =>
      have hij : i ≠ j := Nat.ne_of_gt (Nat.lt_of_lt_of_le hop hi)
      exact (if_neg fun h => hij h.1).trans (ih hpast hi)
    | root | child => exact ih hpast (Nat.le_of_succ_le hi)
    | flatten => exact (if_neg (Nat.ne_of_gt hi)).trans (ih hpast (Nat.le_of_succ_le hi))

/-! ## the store of a history -/

/-- A scope of the store holds what the history says of scope `i`: the most recent definitions, each name once, and the
rest of the ancestry at its parent, which is older. -/
structure KeptAt (h : History φ) (i : ScopeId) (scope : Scope φ) : Prop where
  nodup : (scope.bindings.map Prod.fst).Nodup
  lookup : ∀ x, scope.bindings.lookup x = latest? h i x
  ancestry_eq : ancestry h i = i :: scope.parent.elim [] (ancestry h)
  parent_lt : ∀ p, scope.parent = some p → p < i

/-- A store holds what a history says. -/
structure Kept (h : History φ) (s : Store φ) : Prop where
  next_eq : s.next = size h
  scopes : ∀ i < size h, ∃ scope, s.scopes[i]? = some scope ∧ KeptAt h i scope

section Lookups

variable {s : Store φ} (hs : Kept h s)
include hs

theorem Kept.nodup_of_mem_chain {scope : Scope φ} (hscope : scope ∈ s.chain i) : (scope.bindings.map Prod.fst).Nodup := by
  induction i using Nat.strongRecOn generalizing scope with
  | _ i ih =>
    rcases Nat.lt_or_ge i (size h) with hi | hi
    · obtain ⟨top, htop, hkept⟩ := hs.scopes i hi
      rw [Store.chain_eq s htop] at hscope
      rcases List.mem_cons.1 hscope with rfl | hscope
      · exact hkept.nodup
      · cases hp : top.parent with
        | none => simp [hp] at hscope
        | some p =>
          have hpi := hkept.parent_lt p hp
          simp only [hp, Option.elim_some, if_pos hpi] at hscope
          exact ih p hpi hscope
    · have hnone : s.scopes[i]? = none := Array.getElem?_eq_none (Nat.le_trans (Nat.le_of_eq hs.next_eq) hi)
      rw [Store.chain, hnone] at hscope
      cases hscope

/-- Lookups find the most recent definition in the nearest scope that has one. -/
theorem Kept.get?_eq (hi : i < size h) (x : String) : s.get? i x = nearest? h i x := by
  unfold Store.get? nearest?
  induction i using Nat.strongRecOn with
  | _ i ih =>
    obtain ⟨scope, hscope, hkept⟩ := hs.scopes i hi
    rw [Store.chain_eq s hscope, hkept.ancestry_eq, List.findSome?_cons, List.findSome?_cons, hkept.lookup]
    cases hp : scope.parent with
    | none => rfl
    | some p =>
      have hpi := hkept.parent_lt p hp
      simp only [Option.elim_some, if_pos hpi, ih p hpi (Nat.lt_trans hpi hi)]

end Lookups

/-! ## one operation -/

/-- A new scope takes the next number, and nothing else changes. -/
theorem Kept.push {s : Store φ} {op : ScopeOp φ} {scope : Scope φ} (hs : Kept past s)
    (hsize : size (op :: past) = size past + 1)
    (hlatest : ∀ i < size past, ∀ x, latest? (op :: past) i x = latest? past i x)
    (hancestry : ∀ i < size past, ancestry (op :: past) i = ancestry past i)
    (hnew : KeptAt (op :: past) (size past) scope) : Kept (op :: past) (s.push scope) := by
  refine ⟨by rw [Store.next_push, hs.next_eq, hsize], ?_⟩
  intro i hi
  rw [Store.scopes_push, hs.next_eq]
  by_cases hnext : i = size past
  · rw [if_pos hnext]
    subst hnext
    exact ⟨scope, rfl, hnew⟩
  · rw [hsize] at hi
    have hold : i < size past := Nat.lt_of_le_of_ne (Nat.le_of_lt_succ hi) hnext
    rw [if_neg hnext]
    obtain ⟨old, hget, hkept⟩ := hs.scopes i hold
    refine ⟨old, hget, hkept.nodup, fun x => (hkept.lookup x).trans (hlatest i hold x).symm, ?_, hkept.parent_lt⟩
    rw [hancestry i hold, hkept.ancestry_eq]
    cases hp : old.parent with
    | none => rfl
    | some p => simp only [Option.elim_some, hancestry p (Nat.lt_trans (hkept.parent_lt p hp) hold)]

theorem Kept.define {s : Store φ} (hs : Kept past s) (j : ScopeId) (y : String) (v : Value φ) :
    Kept (.define j y v :: past) (s.define j y v) := by
  refine ⟨by rw [Store.next_define]; exact hs.next_eq, ?_⟩
  intro i hi
  obtain ⟨old, hget, hkept⟩ := hs.scopes i hi
  rw [Store.scopes_define, hget]
  by_cases hij : j = i
  · subst hij
    rw [if_pos rfl]
    refine ⟨_, rfl, Bindings.nodup_insert hkept.nodup y v, ?_, hkept.ancestry_eq, hkept.parent_lt⟩
    intro x
    rw [Store.bound, Bindings.lookup_insert, hkept.lookup]
    simp [latest?]
  · rw [if_neg hij]
    refine ⟨old, rfl, hkept.nodup, ?_, hkept.ancestry_eq, hkept.parent_lt⟩
    intro x
    rw [hkept.lookup]
    exact (if_neg fun h => hij h.1.symm).symm

/-- **The store of a history holds what the history says.** -/
theorem kept_of_valid (hv : Valid h) : Kept h (store h) := by
  induction h with
  | nil => exact ⟨rfl, fun i hi => absurd hi (Nat.not_lt_zero i)⟩
  | cons op past ih =>
    obtain ⟨hop, hpast⟩ := hv
    have hs := ih hpast
    have hfresh : ∀ x, latest? past (size past) x = none := latest?_of_size_le hpast (Nat.le_refl _)
    have halone : ancestry past (size past) = [size past] := ancestry_of_size_le (Nat.le_refl _)
    cases op with
    | define j y v => exact hs.define j y v
    | root =>
      exact hs.push rfl (fun _ _ _ => rfl) (fun _ _ => rfl) ⟨List.nodup_nil, fun x => (hfresh x).symm, halone, nofun⟩
    | child p =>
      refine hs.push rfl (fun _ _ _ => rfl) (fun i hi => if_neg (Nat.ne_of_lt hi))
        ⟨List.nodup_nil, fun x => (hfresh x).symm, ?_, ?_⟩
      · have hp : p ≠ size past := Nat.ne_of_lt hop
        simp [ancestry, hp]
      · rintro q ⟨⟩
        exact hop
    | flatten j =>
      refine hs.push rfl (fun i hi x => if_neg (Nat.ne_of_lt hi)) (fun _ _ => rfl)
        ⟨Store.nodup_visible _ _, ?_, halone, nofun⟩
      intro x
      rw [Store.lookup_visible fun scope => hs.nodup_of_mem_chain, hs.get?_eq hop]
      exact (if_pos rfl).symm

/-! ## definitions and copies -/

/-- The first of several scopes that answers, when one of them gets a new answer. -/
theorem findSome?_update (f : ScopeId → Option (Value φ)) (j : ScopeId) (v : Value φ) (is : List ScopeId) :
    is.findSome? (fun i => if i = j then some v else f i) = is.findSome? f ∨
      ∃ nearer outer, is = nearer ++ j :: outer ∧ ∀ k ∈ nearer, f k = none := by
  induction is with
  | nil => exact .inl rfl
  | cons i is ih =>
    by_cases hij : i = j
    · exact .inr ⟨[], is, by rw [hij]; rfl, nofun⟩
    · rw [List.findSome?_cons, List.findSome?_cons, if_neg hij]
      cases hi : f i with
      | some w => exact .inl rfl
      | none =>
        refine ih.imp id ?_
        rintro ⟨nearer, outer, rfl, hnone⟩
        exact ⟨i :: nearer, outer, rfl, List.forall_mem_cons.2 ⟨hi, hnone⟩⟩

theorem nearest?_define_of_ne (j i : ScopeId) (v : Value φ) (hxy : x ≠ y) :
    nearest? (.define j y v :: past) i x = nearest? past i x := by
  have hlatest : ∀ k, latest? (.define j y v :: past) k x = latest? past k x := fun k => if_neg fun h => hxy h.2
  simp only [nearest?, hlatest, ancestry]

/-- Where a definition shows, it is what a lookup finds. -/
theorem Shows.nearest?_define (h : Shows past j i x) (v : Value φ) : nearest? (.define j x v :: past) i x = some v := by
  obtain ⟨nearer, outer, heq, hnone⟩ := h
  show (ancestry past i).findSome? _ = _
  rw [heq]
  clear heq
  induction nearer with
  | nil => simp [latest?]
  | cons k nearer ih =>
    obtain ⟨hk, hnearer⟩ := List.forall_mem_cons.1 hnone
    rw [List.cons_append, List.findSome?_cons, latest?, hk]
    by_cases hkj : k = j
    · simp [hkj]
    · simpa [hkj] using ih hnearer

/-- Where it does not show, lookups find what they found before. -/
theorem nearest?_define_or (j i : ScopeId) (y x : String) (v : Value φ) :
    nearest? (.define j y v :: past) i x = nearest? past i x ∨ y = x ∧ Shows past j i x := by
  by_cases hxy : x = y
  · subst hxy
    have hlatest : (latest? (.define j x v :: past) · x) = fun k => if k = j then some v else latest? past k x := by
      funext k
      simp [latest?]
    rw [nearest?, hlatest]
    exact (findSome?_update (latest? past · x) j v (ancestry past i)).imp id fun h => ⟨rfl, h⟩
  · exact .inl (nearest?_define_of_ne j i v hxy)

theorem size_le_append (later past : History φ) : size past ≤ size (later ++ past) := by
  induction later with
  | nil => exact Nat.le_refl _
  | cons op later ih =>
    cases op with
    | define => exact ih
    | _ => exact Nat.le_succ_of_le ih

theorem ancestry_append (later : History φ) (hi : i < size past) : ancestry (later ++ past) i = ancestry past i := by
  induction later with
  | nil => rfl
  | cons op later ih =>
    cases op with
    | child p => exact (if_neg (Nat.ne_of_lt (Nat.lt_of_lt_of_le hi (size_le_append later past)))).trans ih
    | _ => exact ih

/-- Only definitions in a scope itself change what it defines. -/
theorem latest?_append {later : History φ} (hi : i < size past) (hother : ∀ y v, .define i y v ∉ later) (x : String) :
    latest? (later ++ past) i x = latest? past i x := by
  induction later with
  | nil => rfl
  | cons op later ih =>
    have hrest := ih fun y v h => hother y v (List.mem_cons_of_mem op h)
    cases op with
    | define j y v =>
      have hij : i ≠ j := fun h => hother y v (h ▸ List.mem_cons_self)
      exact (if_neg fun h => hij h.1).trans hrest
    | flatten j => exact (if_neg (Nat.ne_of_lt (Nat.lt_of_lt_of_le hi (size_le_append later past)))).trans hrest
    | root | child => exact hrest

/-- A flattened scope keeps the answers of its source, whatever is done to other scopes. -/
theorem nearest?_flatten (j : ScopeId) {later : History φ} (hother : ∀ y v, .define (size past) y v ∉ later) (x : String) :
    nearest? (later ++ .flatten j :: past) (size past) x = nearest? past j x := by
  have hnew : size past < size (.flatten j :: past) := Nat.lt_succ_self _
  have halone : ancestry (.flatten j :: past) (size past) = [size past] :=
    ancestry_of_size_le (h := past) (Nat.le_refl _)
  rw [nearest?, ancestry_append later hnew, halone, List.findSome?_singleton, latest?_append hnew hother]
  exact if_pos rfl

/-! ## stores after any history -/

/-- What the store of a history answers, and how it goes on. -/
structure Faithful (h : History φ) : Prop where
  /-- A lookup finds the most recent definition of the name, in the nearest scope that defines it. -/
  get?_eq : ∀ i < size h, ∀ x, (store h).get? i x = nearest? h i x
  contains_iff : ∀ i x, (store h).contains i x = true ↔ ∃ v, (store h).get? i x = some v
  /-- A definition is found in its scope, and below it where no scope between defines the name. -/
  define_of_shows : ∀ {j i x} v, j < size h → i < size h → Shows h j i x → ((store h).define j x v).get? i x = some v
  /-- It changes no other answer. -/
  define_or : ∀ {j i} x v y, j < size h → i < size h →
    ((store h).define j x v).get? i y = (store h).get? i y ∨ x = y ∧ Shows h j i y
  /-- A flattened scope answers as its source did at the time, whatever is done to other scopes afterwards. -/
  flatten : ∀ {j later} x, j < size h → Valid (later ++ .flatten j :: h) → (∀ y v, .define (size h) y v ∉ later) →
    (store (later ++ .flatten j :: h)).get? (size h) x = (store h).get? j x

/-- **Lookups agree with the history**: after any operations on scopes, each about a scope that exists. -/
theorem faithful_of_valid (hv : Valid h) : Faithful h where
  get?_eq i hi x := (kept_of_valid hv).get?_eq hi x
  contains_iff i x := by rw [Store.contains_eq_isSome_get?, Option.isSome_iff_exists]
  define_of_shows {j i x} v hj hi hshows := by
    have hafter : Kept (.define j x v :: h) ((store h).define j x v) := (kept_of_valid hv).define j x v
    rw [hafter.get?_eq hi, hshows.nearest?_define]
  define_or {j i} x v y hj hi := by
    have hafter : Kept (.define j x v :: h) ((store h).define j x v) := (kept_of_valid hv).define j x v
    rw [hafter.get?_eq hi, (kept_of_valid hv).get?_eq hi]
    exact nearest?_define_or j i x y v
  flatten {j later} x hj hlater hother := by
    have hnew : size h < size (later ++ .flatten j :: h) :=
      Nat.lt_of_lt_of_le (Nat.lt_succ_self _) (size_le_append later (.flatten j :: h))
    rw [(kept_of_valid hlater).get?_eq hnew, (kept_of_valid hv).get?_eq hj, nearest?_flatten j hother]

/-- A copy of a scope that shadows its parent, made before both are written again. -/
theorem faithful_of_valid_shadowed :
    let v (n : Int) : Value Empty := .number (.ofInt n)
    let h : History Empty := [.define 1 "a" (v 2), .child 0, .define 0 "b" (v 7), .define 0 "a" (v 1), .root]
    let later : History Empty := [.define 1 "a" (v 5), .define 0 "b" (v 3), .child 2]
    Valid h ∧ Valid (later ++ .flatten 1 :: h) ∧ (∀ y v, .define (size h) y v ∉ later) ∧ Shows h 0 1 "b" ∧
      (store h).get? 1 "a" = some (v 2) ∧ ((store h).define 0 "b" (v 3)).get? 1 "b" = some (v 3) ∧
      (store (later ++ .flatten 1 :: h)).get? 2 "b" = (store h).get? 1 "b" := by
  intro v h later
  have hv : Valid h := by simp [h, Valid, ScopeOp.Fits, size]
  have hlater : Valid (later ++ .flatten 1 :: h) := by simp [later, h, Valid, ScopeOp.Fits, size]
  have hother : ∀ y v, .define (size h) y v ∉ later := by simp [later, h, size]
  have hshows : Shows h 0 1 "b" := ⟨[1], [], rfl, by simp [h, latest?]⟩
  have hh := faithful_of_valid hv
  exact ⟨hv, hlater, hother, hshows, hh.get?_eq 1 (by decide) "a",
    hh.define_of_shows (v 3) (by decide) (by decide) hshows, hh.flatten "b" (by decide) hlater hother⟩

end History

end RatCalc
