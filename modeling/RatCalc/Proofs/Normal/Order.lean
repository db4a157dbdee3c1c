import RatCalc.Expr.Order
import Mathlib.Algebra.Order.Field.Rat
import Mathlib.Data.Rat.Lemmas
import Mathlib.Order.Compare

/-!
# The canonical order is a total preorder

Numbers are compared by tier — the negative infinity, fractions, the infinity, the undefined number — and within a tier
by magnitude; so their order is one of keys.  The order of trees compares ranks first, and trees of equal rank as
literals, as names, or not at all.  Sorting under a total preorder gives sorted operands, and leaves sorted ones alone;
trees that are neither literals nor variables keep their order.
-/

namespace RatCalc

namespace ExtRat

/-! ## numbers -/

/-- Negative infinity, fractions, infinity, the undefined number. -/
def tier (r : ExtRat) : ℕ := if r.den ≠ 0 then 1 else if r.num < 0 then 0 else if r.num = 0 then 3 else 2

/-- The fraction, or what orders the pairs of one infinite tier. -/
def magnitude (r : ExtRat) : ℚ := if r.den = 0 then r.num else r.num / r.den

theorem compare_cross (m n : ℤ) {c d : ℕ} (hc : c ≠ 0) (hd : d ≠ 0) :
    compare (m * d) (n * c) = compare ((m : ℚ) / c) ((n : ℚ) / d) := by
  have hc' : (0 : ℚ) < c := by exact_mod_cast Nat.pos_of_ne_zero hc
  have hd' : (0 : ℚ) < d := by exact_mod_cast Nat.pos_of_ne_zero hd
  have hlt : (m : ℚ) / c < n / d ↔ m * d < n * c := by rw [div_lt_div_iff₀ hc' hd']; norm_cast
  have hgt : (n : ℚ) / d < m / c ↔ n * c < m * d := by rw [div_lt_div_iff₀ hd' hc']; norm_cast
  rcases lt_trichotomy (m * (d : ℤ)) (n * c) with h | h | h
  · rw [compare_lt_iff_lt.2 h, compare_lt_iff_lt.2 (hlt.2 h)]
  · have e : (m : ℚ) / c = n / d := by
      rw [div_eq_div_iff hc'.ne' hd'.ne']
      exact_mod_cast h
    rw [h, e, compare_eq_iff_eq.2 rfl, compare_eq_iff_eq.2 rfl]
  · rw [compare_gt_iff_gt.2 h, compare_gt_iff_gt.2 (hgt.2 h)]

theorem compare_intCast (m n : ℤ) : compare ((m : ℤ) : ℚ) ((n : ℤ) : ℚ) = compare m n := by
  have h := compare_cross m n (c := 1) (d := 1) one_ne_zero one_ne_zero
  simpa using h.symm

/-- What the tests say of a number in each tier. -/
theorem tier_cases (r : ExtRat) :
    (r.tier = 0 ∧ r.den = 0 ∧ r.num < 0 ∧ r.isUndefined = false ∧ r.isInfinite = true) ∨
    (r.tier = 1 ∧ r.den ≠ 0 ∧ r.isUndefined = false ∧ r.isInfinite = false) ∨
    (r.tier = 2 ∧ r.den = 0 ∧ 0 < r.num ∧ r.isUndefined = false ∧ r.isInfinite = true) ∨
    (r.tier = 3 ∧ r.den = 0 ∧ r.num = 0 ∧ r.isUndefined = true) := by
  by_cases hd : r.den = 0
  · rcases lt_trichotomy r.num 0 with hn | hn | hn
    · left
      simp [tier, isUndefined, isInfinite, hd, hn, hn.ne]
    · right; right; right
      simp [tier, isUndefined, hd, hn]
    · right; right; left
      simp [tier, isUndefined, isInfinite, hd, hn, hn.ne', hn.not_gt]
  · right; left
    simp [tier, isUndefined, isInfinite, hd]

/-- The order of numbers is that of their tiers, then of their magnitudes. -/
theorem totalCmp_eq (a b : ExtRat) : totalCmp a b = (compare a.tier b.tier).then (compare a.magnitude b.magnitude) := by
  rcases tier_cases a with ⟨ta, da, na, ua, ia⟩ | ⟨ta, da, ua, ia⟩ | ⟨ta, da, na, ua, ia⟩ | ⟨ta, da, za, ua⟩ <;>
    rcases tier_cases b with ⟨tb, db, nb, ub, ib⟩ | ⟨tb, db, ub, ib⟩ | ⟨tb, db, nb, ub, ib⟩ | ⟨tb, db, zb, ub⟩ <;>
    simp only [totalCmp, cmp?, isNegative, magnitude, ta, da, ua, tb, db, ub, if_true, if_false]
  · simp [ia, ib, compare_intCast]
  · simp [ia, ib, na]; rfl
  · simp [ia, ib, compare_lt_iff_lt.2 (na.trans nb)]; rfl
  · rfl
  · simp [ia, ib, nb]; rfl
  · simp [ia, ib, compare_cross _ _ da db]
  · simp [ia, ib, nb.not_gt]; rfl
  · rfl
  · simp [ia, ib, compare_gt_iff_gt.2 (nb.trans na)]; rfl
  · simp [ia, ib, na.not_gt]; rfl
  · simp [ia, ib, compare_intCast]
  · rfl
  · rfl
  · rfl
  · rfl
  · simp [za, zb]

instance : Std.TransCmp totalCmp := by
  have h : totalCmp = compareLex (compareOn tier) (compareOn magnitude) :=
    funext fun a => funext fun b => totalCmp_eq a b
  rw [h]
  infer_instance

end ExtRat

namespace Expr

variable {φ : Type}

/-! ## trees -/

instance : Std.OrientedCmp cmpLiterals where
  eq_swap {s t} := by
    cases hs : Literal.value? s <;> cases ht : Literal.value? t <;> simp only [cmpLiterals, hs, ht]
    · exact Std.OrientedOrd.eq_swap
    · rfl
    · rfl
    · exact Std.OrientedCmp.eq_swap

instance : Std.TransCmp cmpLiterals where
  isLE_trans {s t u} h1 h2 := by
    cases hs : Literal.value? s <;> cases ht : Literal.value? t <;> cases hu : Literal.value? u <;>
      simp only [cmpLiterals, hs, ht, hu] at *
    · exact Std.TransOrd.isLE_trans h1 h2
    · contradiction
    · contradiction
    · contradiction
    · rfl
    · contradiction
    · rfl
    · exact Std.TransCmp.isLE_trans h1 h2

theorem rank_cases (e : Expr φ) : (∃ text, e = .num text) ∨ (∃ name, e = .var name) ∨ e.rank = 2 := by
  cases e <;> simp [rank]

theorem eq_num_of_rank {e : Expr φ} (h : e.rank = 0) : ∃ text, e = .num text := by
  cases e <;> simp [rank] at h ⊢

theorem eq_var_of_rank {e : Expr φ} (h : e.rank = 1) : ∃ name, e = .var name := by
  cases e <;> simp [rank] at h ⊢

theorem cmp_of_rank_two {a b : Expr φ} (h : a.rank = 2 ∨ b.rank = 2) : cmp a b = compare a.rank b.rank := by
  unfold cmp
  split <;> simp_all [rank]

theorem cmp_of_rank_ne {a b : Expr φ} (h : a.rank ≠ b.rank) : cmp a b = compare a.rank b.rank := by
  unfold cmp
  split <;> simp_all [rank]

/-- Trees of one rank are literals, or names, or all equal. -/
theorem rank_eq_cases {a b : Expr φ} (h : a.rank = b.rank) :
    (∃ s t, a = .num s ∧ b = .num t) ∨ (∃ x y, a = .var x ∧ b = .var y) ∨ (a.rank = 2 ∧ b.rank = 2) := by
  rcases rank_cases a with ⟨s, rfl⟩ | ⟨x, rfl⟩ | ha
  · obtain ⟨t, rfl⟩ := eq_num_of_rank h.symm
    exact .inl ⟨s, t, rfl, rfl⟩
  · obtain ⟨y, rfl⟩ := eq_var_of_rank h.symm
    exact .inr (.inl ⟨x, y, rfl, rfl⟩)
  · exact .inr (.inr ⟨ha, h ▸ ha⟩)

theorem rank_le_of_cmp {a b : Expr φ} (h : (cmp a b).isLE) : a.rank ≤ b.rank := by
  by_cases hne : a.rank = b.rank
  · exact hne.le
  · rw [cmp_of_rank_ne hne] at h
    exact Nat.isLE_compare.1 h

instance : Std.OrientedCmp (cmp : Expr φ → Expr φ → Ordering) where
  eq_swap {a b} := by
    by_cases h : a.rank = b.rank
    · rcases rank_eq_cases h with ⟨s, t, rfl, rfl⟩ | ⟨x, y, rfl, rfl⟩ | ⟨ha, hb⟩
      · show cmpLiterals s t = (cmpLiterals t s).swap
        exact Std.OrientedCmp.eq_swap
      · exact Std.OrientedOrd.eq_swap
      · simp [cmp_of_rank_two (.inl ha), cmp_of_rank_two (.inl hb), ha, hb]
    · rw [cmp_of_rank_ne h, cmp_of_rank_ne (Ne.symm h)]
      exact Std.OrientedOrd.eq_swap

instance : Std.TransCmp (cmp : Expr φ → Expr φ → Ordering) where
  isLE_trans {a b c} h1 h2 := by
    have hab := rank_le_of_cmp h1
    have hbc := rank_le_of_cmp h2
    by_cases hac : a.rank = c.rank
    · have hb : a.rank = b.rank := by omega
      have hb' : b.rank = c.rank := by omega
      rcases rank_eq_cases hb with ⟨s, t, rfl, rfl⟩ | ⟨x, y, rfl, rfl⟩ | ⟨ha, -⟩
      · obtain ⟨u, rfl⟩ := eq_num_of_rank hac.symm
        show (cmpLiterals s u).isLE
        exact Std.TransCmp.isLE_trans (show (cmpLiterals s t).isLE from h1) h2
      · obtain ⟨z, rfl⟩ := eq_var_of_rank hac.symm
        show (compare x z).isLE
        exact Std.TransOrd.isLE_trans (show (compare x y).isLE from h1) h2
      · rw [cmp_of_rank_two (.inl ha), ← hac, Std.ReflOrd.compare_self]
        rfl
    · rw [cmp_of_rank_ne hac]
      exact Nat.isLE_compare.2 (hab.trans hbc)

/-! ## sorting -/

/-- Sorted under the canonical order. -/
def Sorted (es : List (Expr φ)) : Prop := es.Pairwise fun a b => cmp a b ≠ .gt

theorem bne_gt_eq_isLE (a b : Expr φ) : (cmp a b != .gt) = (cmp a b).isLE := by cases cmp a b <;> rfl

theorem bne_gt_trans (a b c : Expr φ) (h1 : (cmp a b != .gt) = true) (h2 : (cmp b c != .gt) = true) :
    (cmp a c != .gt) = true := by
  rw [bne_gt_eq_isLE] at *
  exact Std.TransCmp.isLE_trans h1 h2

theorem bne_gt_total (a b : Expr φ) : ((cmp a b != .gt) || (cmp b a != .gt)) = true := by
  have hswap : cmp b a = (cmp a b).swap := Std.OrientedCmp.eq_swap
  rw [bne_gt_eq_isLE, bne_gt_eq_isLE, hswap]
  cases cmp a b <;> rfl

theorem sorted_sort (es : List (Expr φ)) : Sorted (sort es) := by
  simpa [Sorted, sort] using List.pairwise_mergeSort bne_gt_trans bne_gt_total es

theorem sort_of_sorted {es : List (Expr φ)} (h : Sorted es) : sort es = es :=
  List.mergeSort_of_pairwise (by simpa [Sorted] using h)

theorem sort_eq_self_iff {es : List (Expr φ)} : sort es = es ↔ Sorted es :=
  ⟨fun h => h ▸ sorted_sort es, sort_of_sorted⟩

/-- Trees none of which belongs after another keep their order. -/
theorem filter_sort_of_ties (es : List (Expr φ)) (p : Expr φ → Bool)
    (hp : ∀ a b, p a = true → p b = true → cmp a b ≠ .gt) : (sort es).filter p = es.filter p := by
  have hpairwise : (es.filter p).Pairwise fun a b => (cmp a b != .gt) = true := by
    refine List.pairwise_filter.2 (List.pairwise_of_forall ?_)
    intro a b ha hb
    simpa using hp a b ha hb
  have hsub : (es.filter p).Sublist (sort es) :=
    List.sublist_mergeSort bne_gt_trans bne_gt_total hpairwise List.filter_sublist
  have hfilter := hsub.filter p
  rw [List.filter_filter] at hfilter
  simp only [Bool.and_self] at hfilter
  exact (hfilter.eq_of_length ((List.mergeSort_perm es _).filter _).length_eq.symm).symm

/-- Trees that are neither literals nor variables keep their order. -/
theorem filter_sort (es : List (Expr φ)) : (sort es).filter (·.rank = 2) = es.filter (·.rank = 2) := by
  refine filter_sort_of_ties es _ ?_
  intro a b ha hb
  rw [cmp_of_rank_two (.inl (of_decide_eq_true ha)), of_decide_eq_true ha, of_decide_eq_true hb]
  exact (by decide : compare 2 2 ≠ Ordering.gt)

end Expr

end RatCalc
