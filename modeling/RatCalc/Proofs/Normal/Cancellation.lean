import RatCalc.Proofs.Normal.Fixpoint

/-!
# Terms that cancel

A sum loses terms in pairs, a term and its negation, one pair after the other.  The entries are told apart by their places
in the list, which stay with them while others are taken out.

* `without`, `OpposedPairs` — a list without the entries at some places, and disjoint pairs of places with opposite terms;
* `cancelFirst?_placed` — one removal takes out such a pair;
* `exists_opposedPairs` — cancelling takes out such pairs and nothing else;
* `negationTarget?_ne_of_cancelNegations` — and leaves none.
-/

namespace RatCalc

namespace Expr

variable {φ : Type}

/-! ## negations and places -/

theorem negationTarget?_eq_some_iff {e t : Expr φ} :
    e.negationTarget? = some t ↔
      ∃ m ts, m.isLiteral (-1) = true ∧ ts ≠ [] ∧ e = .chain .mul (m :: ts) ∧ t = productOf ts := by
  constructor
  · intro h
    unfold negationTarget? at h
    split at h
    · rename_i m a as
      split at h
      · rename_i hm
        cases h
        exact ⟨m, a :: as, hm, by simp, rfl, rfl⟩
      · cases h
    · cases h
  · rintro ⟨m, ts, hm, hts, rfl, rfl⟩
    obtain ⟨a, as, rfl⟩ := List.exists_cons_of_ne_nil hts
    rw [negationTarget?, if_pos hm]

/-- The entries at all places but some, in order. -/
def without {α : Type} (es : List α) (places : List ℕ) : List α := (es.zipIdx.filter (·.2 ∉ places)).map Prod.fst

/-- The places of pairs of places. -/
def bothPlaces (pairs : List (ℕ × ℕ)) : List ℕ := pairs.flatMap fun p => [p.1, p.2]

theorem bothPlaces_cons (i j : ℕ) (pairs : List (ℕ × ℕ)) : bothPlaces ((i, j) :: pairs) = i :: j :: bothPlaces pairs := rfl

/-- Pairs of places no two of which share one, each with a negation in the first and what it negates in the second. -/
structure OpposedPairs (es : List (Expr φ)) (pairs : List (ℕ × ℕ)) : Prop where
  disjoint : (bothPlaces pairs).Nodup
  opposed : ∀ p ∈ pairs, ∃ e t, es[p.1]? = some e ∧ es[p.2]? = some t ∧ e.negationTarget? = some t

/-! ## entries with their places -/

theorem place_ne_of_not_mem {es : List (Expr φ × ℕ)} {i : ℕ} (h : i ∉ es.map Prod.snd) : ∀ x ∈ es, x.2 ≠ i :=
  fun x hx hi => h (List.mem_map.2 ⟨x, hx, hi⟩)

section Placed

variable [DecidableEq φ]

/-- Erasing an entry by its value is dropping the place where it is found. -/
theorem erase_placed {es : List (Expr φ × ℕ)} (hes : (es.map Prod.snd).Nodup) {t : Expr φ} (ht : t ∈ es.map Prod.fst) :
    ∃ i, (t, i) ∈ es ∧ (es.map Prod.fst).erase t = (es.filter (·.2 ≠ i)).map Prod.fst := by
  induction es with
  | nil => cases ht
  | cons x es ih =>
    obtain ⟨e, j⟩ := x
    rw [List.map_cons, List.nodup_cons] at hes
    obtain ⟨hj, hes⟩ := hes
    have hne := place_ne_of_not_mem hj
    by_cases he : e = t
    · subst he
      have hkeep : es.filter (·.2 ≠ j) = es := List.filter_eq_self.2 fun y hy => decide_eq_true (hne y hy)
      refine ⟨j, by simp, ?_⟩
      rw [List.map_cons, List.erase_cons_head, List.filter_cons_of_neg (by simp), hkeep]
    · obtain ⟨i, hi, herase⟩ := ih hes ((List.mem_cons.1 ht).resolve_left (Ne.symm he))
      have hij : j ≠ i := (hne _ hi).symm
      refine ⟨i, by simp [hi], ?_⟩
      rw [List.map_cons, List.erase_cons_tail (by simpa using he), herase, List.filter_cons_of_pos (by simpa using hij),
        List.map_cons]

/-- One removal takes out a negation and what it negates. -/
theorem cancelFirst?_placed {before es : List (Expr φ × ℕ)} (hes : ((before ++ es).map Prod.snd).Nodup)
    {rest : List (Expr φ)} (h : cancelFirst? (before.map Prod.fst) (es.map Prod.fst) = some rest) :
    ∃ e t i j, (e, i) ∈ before ++ es ∧ (t, j) ∈ before ++ es ∧ i ≠ j ∧ e.negationTarget? = some t ∧
      rest = ((before ++ es).filter fun x => x.2 ≠ i ∧ x.2 ≠ j).map Prod.fst := by
  induction es generalizing before with
  | nil => cases h
  | cons x es ih =>
    obtain ⟨e, i⟩ := x
    have hmove : before ++ (e, i) :: es = before ++ [(e, i)] ++ es := List.append_cons before (e, i) es
    have hrec : cancelFirst? (before.map Prod.fst ++ [e]) (es.map Prod.fst) = some rest → _ := fun h =>
      @ih (before ++ [(e, i)]) (by rwa [← hmove]) (by simpa using h)
    rw [← hmove] at hrec
    rw [List.map_cons, cancelFirst?] at h
    split at h
    · rename_i t ht
      split at h
      · rename_i hmem
        cases h
        -- the others have other places than the negation
        have hperm : (before ++ (e, i) :: es).Perm ((e, i) :: (before ++ es)) := List.perm_middle
        have hothers := (hperm.map Prod.snd).nodup_iff.1 hes
        rw [List.map_cons, List.nodup_cons] at hothers
        have hne := place_ne_of_not_mem hothers.1
        rw [← List.map_append] at hmem ⊢
        obtain ⟨j, hj, herase⟩ := erase_placed hothers.2 hmem
        refine ⟨e, t, i, j, by simp, hperm.mem_iff.2 (List.mem_cons_of_mem _ hj), (hne _ hj).symm, ht, ?_⟩
        have hfilter : ∀ {xs : List (Expr φ × ℕ)}, (∀ x ∈ xs, x.2 ≠ i) →
            xs.filter (fun x => x.2 ≠ i ∧ x.2 ≠ j) = xs.filter (·.2 ≠ j) :=
          fun hxs => List.filter_congr fun x hx => by simp [hxs x hx]
        obtain ⟨hbefore, hafter⟩ := List.forall_mem_append.1 hne
        rw [herase, List.filter_append, List.filter_append, List.filter_cons_of_neg (by simp), hfilter hbefore,
          hfilter hafter]
      · exact hrec h
    · exact hrec h

/-- `n` removals lead from one list to the other. -/
def Removes (n : ℕ) (es rest : List (Expr φ)) : Prop := (Option.bind · (cancelFirst? []))^[n] (some es) = some rest

theorem Removes.cons {n : ℕ} {es fs rest : List (Expr φ)} (hfirst : cancelFirst? [] es = some fs) (h : Removes n fs rest) :
    Removes (n + 1) es rest := by
  rw [Removes, Function.iterate_succ_apply, Option.bind_some, hfirst]
  exact h

/-- **Entries with places.**  Cancelling takes out pairs of opposite terms from different places, one after the other. -/
theorem cancelNegations_placed {es : List (Expr φ × ℕ)} (hes : (es.map Prod.snd).Nodup) :
    ∃ pairs : List (ℕ × ℕ), (bothPlaces pairs).Nodup ∧
      (∀ p ∈ pairs, ∃ e t, (e, p.1) ∈ es ∧ (t, p.2) ∈ es ∧ e.negationTarget? = some t) ∧
      cancelNegations (es.map Prod.fst) = (es.filter (·.2 ∉ bothPlaces pairs)).map Prod.fst ∧
      Removes pairs.length (es.map Prod.fst) (cancelNegations (es.map Prod.fst)) := by
  generalize hplain : es.map Prod.fst = plain
  fun_induction cancelNegations plain generalizing es with
  | case1 plain rest h _ ih =>
    subst hplain
    obtain ⟨e, t, i, j, hi, hj, hij, ht, hrest⟩ := @cancelFirst?_placed _ _ [] es hes rest h
    rw [List.nil_append] at hi hj hrest
    subst hrest
    have hsub : (es.filter fun x => x.2 ≠ i ∧ x.2 ≠ j).Sublist es := List.filter_sublist
    obtain ⟨pairs, hnodup, hopposed, hrest, hruns⟩ := ih (hes.sublist (hsub.map Prod.snd)) rfl
    have hfresh : ∀ k ∈ bothPlaces pairs, k ≠ i ∧ k ≠ j := by
      intro k hk
      obtain ⟨p, hp, hkp⟩ := List.mem_flatMap.1 hk
      obtain ⟨e', t', he', ht', -⟩ := hopposed p hp
      rcases List.mem_pair.1 hkp with rfl | rfl
      · simpa using (List.mem_filter.1 he').2
      · simpa using (List.mem_filter.1 ht').2
    refine ⟨(i, j) :: pairs, ?_, ?_, ?_, hruns.cons h⟩
    · have hi' : i ∉ bothPlaces pairs := fun h => (hfresh i h).1 rfl
      have hj' : j ∉ bothPlaces pairs := fun h => (hfresh j h).2 rfl
      rw [bothPlaces_cons, List.nodup_cons, List.nodup_cons, List.mem_cons, not_or]
      exact ⟨⟨hij, hi'⟩, hj', hnodup⟩
    · refine List.forall_mem_cons.2 ⟨⟨e, t, hi, hj, ht⟩, ?_⟩
      intro p hp
      obtain ⟨e', t', he', ht', hopp⟩ := hopposed p hp
      exact ⟨e', t', hsub.subset he', hsub.subset ht', hopp⟩
    · rw [hrest, List.filter_filter]
      refine congrArg (List.map Prod.fst) (List.filter_congr fun x hx => ?_)
      simp [bothPlaces_cons, Bool.and_comm, Bool.and_assoc]
  | case2 plain h =>
    subst hplain
    refine ⟨[], List.nodup_nil, by simp, ?_, rfl⟩
    simp [bothPlaces]

/-- **What cancelling takes out.** -/
theorem exists_opposedPairs (es : List (Expr φ)) :
    ∃ pairs, OpposedPairs es pairs ∧ cancelNegations es = without es (bothPlaces pairs) ∧
      Removes pairs.length es (cancelNegations es) := by
  have hplain : es.zipIdx.map Prod.fst = es := List.zipIdx_map_fst 0 es
  have hplaces : (es.zipIdx.map Prod.snd).Nodup := by
    rw [List.zipIdx_map_snd]
    exact List.nodup_range'
  obtain ⟨pairs, hnodup, hopposed, hrest, hruns⟩ := cancelNegations_placed hplaces
  rw [hplain] at hrest hruns
  refine ⟨pairs, ⟨hnodup, ?_⟩, hrest, hruns⟩
  intro p hp
  obtain ⟨e, t, he, ht, hopp⟩ := hopposed p hp
  exact ⟨e, t, List.mk_mem_zipIdx_iff_getElem?.1 he, List.mk_mem_zipIdx_iff_getElem?.1 ht, hopp⟩

/-! ## what is left -/

theorem cancelFirst?_cancelNegations (es : List (Expr φ)) : cancelFirst? [] (cancelNegations es) = none := by
  fun_induction cancelNegations es with
  | case1 es rest h _ ih => exact ih
  | case2 es h => exact h

/-- **Cancelling is complete.**  No entry that is left negates another. -/
theorem negationTarget?_ne_of_cancelNegations (es : List (Expr φ)) {i j : ℕ} (hi : i < (cancelNegations es).length)
    (hj : j < (cancelNegations es).length) :
    (cancelNegations es)[i].negationTarget? ≠ some (cancelNegations es)[j] := by
  intro h
  obtain ⟨m, ts, -, -, he, ht⟩ := negationTarget?_eq_some_iff.1 h
  have hne : (cancelNegations es)[j] ≠ (cancelNegations es)[i] := by
    rw [he, ht]
    exact productOf_ne_chain m ts
  exact not_mem_of_cancelFirst? (cancelFirst?_cancelNegations es) (List.getElem_mem hi) h hne (List.getElem_mem hj)

end Placed

end Expr

end RatCalc
