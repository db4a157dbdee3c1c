import RatCalc.Proofs.Normal.Termination
import RatCalc.Proofs.Number.Extended

/-!
# The canonical order and its sort

The canonical order is a total preorder: it leaves composite trees, and literals of one number, where they are.  On numbers
it is the numeric order, with the undefined number at the end, and there it tells any two apart.  A list has one stable
sort under such an order, and that is what `sort` returns.

* `Extended.cmp` — the numeric order of the extended rationals; `totalCmp_form` — the order of canonical pairs is that one;
* `StableSort es fs` — `fs` holds the trees of `es` in order, and equal ones as they stood;
* `eq_of_sorted_of_ties` — there is only one such list; `stableSort_sort` — sorting gives it;
* `canonical_order` — the laws of the order and of sorting.
-/

namespace RatCalc

/-- A total preorder is transitive, said as sorting asks for it. -/
theorem ne_gt_trans {α : Type} {order : α → α → Ordering} [Std.TransCmp order] {a b c : α} (hab : order a b ≠ .gt)
    (hbc : order b c ≠ .gt) : order a c ≠ .gt :=
  Ordering.ne_gt_iff_isLE.2 (Std.TransCmp.isLE_trans (Ordering.ne_gt_iff_isLE.1 hab) (Ordering.ne_gt_iff_isLE.1 hbc))

/-! ## numbers -/

namespace Extended

/-- Negative infinity, fractions, infinity, the undefined number. -/
def tier : Extended → ℕ
  | negInfinity => 0
  | fraction _ => 1
  | infinity => 2
  | undefined => 3

/-- The numeric order, with the undefined number after all others. -/
def cmp : Extended → Extended → Ordering
  | fraction p, fraction q => compare p q
  | x, y => compare x.tier y.tier

theorem tier_form (x : Extended) : x.form.tier = x.tier := by
  cases x with
  | fraction q => simp [ExtRat.tier, form, tier, q.den_nz]
  | _ => rfl

theorem magnitude_form (q : ℚ) : (fraction q).form.magnitude = q := by
  rw [ExtRat.magnitude, form, if_neg q.den_nz, Rat.num_div_den]

/-- Canonical pairs are in the order of the numbers that they stand for. -/
theorem totalCmp_form (x y : Extended) : x.form.totalCmp y.form = x.cmp y := by
  rw [ExtRat.totalCmp_eq, tier_form, tier_form]
  cases x <;> cases y <;> simp [cmp, tier, magnitude_form] <;> rfl

theorem cmp_eq_eq_iff {x y : Extended} : x.cmp y = .eq ↔ x = y := by
  cases x <;> cases y <;> simp [cmp, tier]

end Extended

namespace Expr

variable {φ : Type}

/-! ## stable sorts -/

theorem cmp_self (a : Expr φ) : cmp a a = .eq := Std.ReflCmp.compare_self

/-- The trees of a list that equal `e` under the canonical order. -/
def ties (e : Expr φ) (es : List (Expr φ)) : List (Expr φ) := es.filter (cmp e · = .eq)

/-- `fs` is a stable sort of `es`: the same trees in order, and among equal ones in the order of `es`. -/
structure StableSort (es fs : List (Expr φ)) : Prop where
  perm : fs.Perm es
  sorted : Sorted fs
  ties_eq : ∀ e, ties e fs = ties e es

theorem stableSort_sort (es : List (Expr φ)) : StableSort es (sort es) := by
  refine ⟨perm_sort es, sorted_sort es, ?_⟩
  intro e
  refine filter_sort_of_ties es _ ?_
  intro a b ha hb
  have hae : cmp a e = .eq := Std.OrientedCmp.eq_symm (of_decide_eq_true ha)
  have heb : cmp e b = .eq := of_decide_eq_true hb
  exact ne_gt_trans (b := e) (by simp [hae]) (by simp [heb])

/-- Sorted lists of the same trees begin with the same one: neither head belongs after the other, so they tie. -/
theorem head_eq_of_ties {a b : Expr φ} {fs gs : List (Expr φ)} (hfs : Sorted (a :: fs)) (hgs : Sorted (b :: gs))
    (hperm : (a :: fs).Perm (b :: gs)) (hties : ties a (a :: fs) = ties a (b :: gs)) : a = b := by
  have hab : cmp a b ≠ .gt := by
    rcases List.mem_cons.1 (hperm.mem_iff.2 (List.mem_cons_self (a := b))) with rfl | hb
    · simp [cmp_self]
    · exact List.rel_of_pairwise_cons hfs hb
  have hba : cmp b a ≠ .gt := by
    rcases List.mem_cons.1 (hperm.mem_iff.1 (List.mem_cons_self (a := a))) with rfl | ha
    · simp [cmp_self]
    · exact List.rel_of_pairwise_cons hgs ha
  have hswap : cmp b a = (cmp a b).swap := Std.OrientedCmp.eq_swap
  have heq : cmp a b = .eq := by
    rw [hswap] at hba
    revert hab hba
    cases cmp a b <;> simp
  rw [ties, ties, List.filter_cons_of_pos (by simp [cmp_self]), List.filter_cons_of_pos (by simp [heq])] at hties
  exact List.head_eq_of_cons_eq hties

/-- Sorted lists of the same trees with the same ties are the same. -/
theorem eq_of_sorted_of_ties {fs gs : List (Expr φ)} (hfs : Sorted fs) (hgs : Sorted gs) (hperm : fs.Perm gs)
    (hties : ∀ e, ties e fs = ties e gs) : fs = gs := by
  induction fs generalizing gs with
  | nil => exact hperm.nil_eq
  | cons a fs ih =>
    cases gs with
    | nil => exact hperm.eq_nil
    | cons b gs =>
      obtain rfl := head_eq_of_ties hfs hgs hperm (hties a)
      have hrest : fs = gs := by
        refine ih hfs.tail hgs.tail hperm.cons_inv ?_
        intro e
        have he := hties e
        simp only [ties, List.filter_cons] at he
        split at he
        · exact List.tail_eq_of_cons_eq he
        · exact he
      rw [hrest]

/-- **There is one stable sort**, and sorting gives it. -/
theorem stableSort_iff {es fs : List (Expr φ)} : StableSort es fs ↔ fs = sort es := by
  constructor
  · intro h
    refine eq_of_sorted_of_ties h.sorted (sorted_sort es) (h.perm.trans (perm_sort es).symm) ?_
    intro e
    rw [h.ties_eq, (stableSort_sort es).ties_eq]
  · rintro rfl
    exact stableSort_sort es

/-- **The canonical order.**  It is a total preorder on all trees.  On canonical numbers it is the numeric order, with the
undefined number at the end, and equates no two of them.  Sorting gives the one stable sort of a list, and sorting again,
a list or the chains of a tree, changes nothing. -/
theorem canonical_order :
    ((∀ a b : Expr φ, cmp a b = (cmp b a).swap) ∧ (∀ a : Expr φ, cmp a a = .eq) ∧
      ∀ a b c : Expr φ, cmp a b ≠ .gt → cmp b c ≠ .gt → cmp a c ≠ .gt) ∧
    (∀ x y : ExtRat, x.Canonical → y.Canonical →
      x.totalCmp y = x.denote.cmp y.denote ∧ (x.totalCmp y = .eq ↔ x = y) ∧ x.totalCmp y = (y.totalCmp x).swap ∧
        ∀ z : ExtRat, z.Canonical → x.totalCmp y ≠ .gt → y.totalCmp z ≠ .gt → x.totalCmp z ≠ .gt) ∧
    (∀ es fs : List (Expr φ), StableSort es fs ↔ fs = sort es) ∧ (∀ es : List (Expr φ), sort (sort es) = sort es) ∧
    ∀ e : Expr φ, ordered (ordered e) = ordered e := by
  refine ⟨⟨fun a b => Std.OrientedCmp.eq_swap, cmp_self, fun a b c => ne_gt_trans⟩, ?_, fun es fs => stableSort_iff,
    fun es => sort_of_sorted (sorted_sort es), ordered_ordered⟩
  intro x y hx hy
  obtain ⟨x, rfl⟩ := ExtRat.canonical_iff.1 hx
  obtain ⟨y, rfl⟩ := ExtRat.canonical_iff.1 hy
  refine ⟨?_, ?_, Std.OrientedCmp.eq_swap, ?_⟩
  · rw [Extended.totalCmp_form, Extended.denote_form, Extended.denote_form]
  · rw [Extended.totalCmp_form, Extended.cmp_eq_eq_iff, Extended.form_injective.eq_iff]
  · intro z _ hxy hyz
    exact ne_gt_trans hxy hyz

end Expr

end RatCalc
