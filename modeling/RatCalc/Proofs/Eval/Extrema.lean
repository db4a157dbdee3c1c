import RatCalc.Session
import RatCalc.Proofs.Eval.Coupling
import RatCalc.Proofs.Eval.Normalizing
import RatCalc.Proofs.Normal.Sorting

/-!
# Least and greatest numbers

`min` and `max` go through their arguments with the best number so far.  The loop ends early at an argument that does not
compare with it; still, what comes out depends only on which numbers there are.

* `Extended.cmp_ne_trans` — in the numeric order, not to be beyond is transitive, in either direction;
* `IsExtremum` — the undefined number if it is there, and else the number beyond which there is none;
* `Builtin.exists_extremum` — the loop gives an extremum, by induction on the arguments to come;
* `Interpreter.call_builtin` — a call of a function that makes no calls itself;
* `Interpreter.extrema` — what `min` and `max` return, of permuted arguments and of joined lists too.
-/

namespace RatCalc

/-! ## the numeric order -/

/-- Nothing but the undefined number is without an order to another one. -/
theorem ExtRat.cmp?_eq_none_iff {a b : ExtRat} : a.cmp? b = none ↔ a.isUndefined = true ∨ b.isUndefined = true := by
  rw [cmp?, ← Bool.or_eq_true]
  split
  · rename_i hundefined
    exact ⟨fun _ => hundefined, fun _ => rfl⟩
  · rename_i hdefined
    refine ⟨fun hnone => ?_, fun h => absurd h hdefined⟩
    split at hnone <;> cases hnone

namespace Extended

instance : Std.TransCmp cmp where
  eq_swap {x y} := by
    rw [← totalCmp_form, ← totalCmp_form]
    exact Std.OrientedCmp.eq_swap
  isLE_trans {x y z} hxy hyz := by
    rw [← totalCmp_form] at *
    exact Std.TransCmp.isLE_trans hxy hyz

theorem isUndefined_form_iff {x : Extended} : x.form.isUndefined = true ↔ x = undefined := by
  cases x with
  | fraction q => simp [isUndefined_fraction_form]
  | undefined => exact ⟨fun _ => rfl, fun _ => rfl⟩
  | _ => exact ⟨nofun, nofun⟩

/-- Canonical pairs compare as the numbers that they stand for, as long as both are defined. -/
theorem cmp?_form {x y : Extended} (hx : x ≠ undefined) (hy : y ≠ undefined) : x.form.cmp? y.form = some (x.cmp y) := by
  have hx : x.form.isUndefined = false := Bool.eq_false_iff.2 fun h => hx (isUndefined_form_iff.1 h)
  have hy : y.form.isUndefined = false := Bool.eq_false_iff.2 fun h => hy (isUndefined_form_iff.1 h)
  have htotal := totalCmp_form x y
  rw [ExtRat.totalCmp, hx, hy] at htotal
  cases hcmp : x.form.cmp? y.form with
  | some o =>
    rw [hcmp] at htotal
    exact congrArg some htotal
  | none =>
    have hundefined := ExtRat.cmp?_eq_none_iff.1 hcmp
    simp [hx, hy] at hundefined

variable {keep : Ordering} {x y z : Extended}

/-- Not to be beyond another is transitive, whichever direction is looked at. -/
theorem cmp_ne_trans (hkeep : keep ≠ .eq) (hxy : x.cmp y ≠ keep) (hyz : y.cmp z ≠ keep) : x.cmp z ≠ keep := by
  have hswap : ∀ a b : Extended, a.cmp b = (b.cmp a).swap := fun a b => Std.OrientedCmp.eq_swap
  cases keep with
  | eq => exact absurd rfl hkeep
  | gt => exact ne_gt_trans hxy hyz
  | lt =>
    rw [hswap, Ne, Ordering.swap_eq_lt] at *
    exact ne_gt_trans hyz hxy

/-! ## extrema -/

/-- `x` is the extremum of the numbers, the least one if `keep` is `lt` and the greatest if it is `gt`.  It is undefined
if one of them is. -/
structure IsExtremum (keep : Ordering) (xs : List Extended) (x : Extended) : Prop where
  mem : x ∈ xs
  eq_undefined : undefined ∈ xs → x = undefined
  not_beyond : undefined ∉ xs → ∀ y ∈ xs, y.cmp x ≠ keep

namespace IsExtremum

variable {xs ys : List Extended} {r s t : Extended}

/-- There is only one. -/
theorem unique (hkeep : keep ≠ .eq) (hx : IsExtremum keep xs x) (hy : IsExtremum keep xs y) : x = y := by
  by_cases hundefined : undefined ∈ xs
  · rw [hx.eq_undefined hundefined, hy.eq_undefined hundefined]
  · have hxy : x.cmp y ≠ keep := hy.not_beyond hundefined x hx.mem
    have hyx : y.cmp x ≠ keep := hx.not_beyond hundefined y hy.mem
    have hswap : y.cmp x = (x.cmp y).swap := Std.OrientedCmp.eq_swap
    rw [hswap] at hyx
    rw [← cmp_eq_eq_iff]
    cases keep with
    | eq => exact absurd rfl hkeep
    | lt => cases h : x.cmp y <;> simp_all
    | gt => cases h : x.cmp y <;> simp_all

/-- It is the extremum of any part of the list that it is in. -/
theorem of_subset (h : IsExtremum keep ys x) (hsubset : xs ⊆ ys) (hx : x ∈ xs) : IsExtremum keep xs x where
  mem := hx
  eq_undefined hundefined := h.eq_undefined (hsubset hundefined)
  not_beyond hundefined y hy := h.not_beyond (fun hu => hundefined (h.eq_undefined hu ▸ hx)) y (hsubset hy)

theorem of_perm (h : IsExtremum keep xs x) (hperm : xs.Perm ys) : IsExtremum keep ys x :=
  h.of_subset hperm.symm.subset (hperm.mem_iff.1 h.mem)

theorem singleton (hkeep : keep ≠ .eq) (x : Extended) : IsExtremum keep [x] x where
  mem := List.mem_singleton_self x
  eq_undefined hundefined := (List.mem_singleton.1 hundefined).symm
  not_beyond _ y hy := by
    rw [List.mem_singleton.1 hy, cmp_eq_eq_iff.2 rfl]
    exact hkeep.symm

/-- The extremum of the extrema of two lists is that of both lists together. -/
theorem append (hkeep : keep ≠ .eq) (hr : IsExtremum keep xs r) (hs : IsExtremum keep ys s)
    (ht : IsExtremum keep [r, s] t) : IsExtremum keep (xs ++ ys) t where
  mem := by
    have hmem : t = r ∨ t = s := by simpa using ht.mem
    rcases hmem with rfl | rfl
    · exact List.mem_append_left _ hr.mem
    · exact List.mem_append_right _ hs.mem
  eq_undefined hundefined := by
    refine ht.eq_undefined ?_
    rcases List.mem_append.1 hundefined with h | h
    · simp [hr.eq_undefined h]
    · simp [hs.eq_undefined h]
  not_beyond hundefined y hy := by
    have hxs : undefined ∉ xs := fun h => hundefined (List.mem_append_left _ h)
    have hys : undefined ∉ ys := fun h => hundefined (List.mem_append_right _ h)
    have hpair : undefined ∉ [r, s] := by
      intro h
      have h : undefined = r ∨ undefined = s := by simpa using h
      rcases h with rfl | rfl
      · exact hxs hr.mem
      · exact hys hs.mem
    rcases List.mem_append.1 hy with hy | hy
    · exact cmp_ne_trans hkeep (hr.not_beyond hxs y hy) (ht.not_beyond hpair r (by simp))
    · exact cmp_ne_trans hkeep (hs.not_beyond hys y hy) (ht.not_beyond hpair s (by simp))

/-- **Two lists have the extremum of their extrema.** -/
theorem append_iff (hr : IsExtremum keep xs r) (hkeep : keep ≠ .eq) (hs : IsExtremum keep ys s) :
    IsExtremum keep (xs ++ ys) t ↔ IsExtremum keep [r, s] t := by
  refine ⟨fun ht => ?_, append hkeep hr hs⟩
  have hsubset : [r, s] ⊆ xs ++ ys := by simp [hr.mem, hs.mem]
  refine ht.of_subset hsubset ?_
  rcases List.mem_append.1 ht.mem with hmem | hmem
  · have htr : t = r := (ht.of_subset (List.subset_append_left xs ys) hmem).unique hkeep hr
    simp [htr]
  · have hts : t = s := (ht.of_subset (List.subset_append_right xs ys) hmem).unique hkeep hs
    simp [hts]

/-- A number that is not beyond another one makes no difference to it. -/
theorem cons (hkeep : keep ≠ .eq) (h : IsExtremum keep (y :: ys) r) (hx : x ≠ undefined)
    (hxy : x.cmp y ≠ keep) : IsExtremum keep (x :: y :: ys) r where
  mem := List.mem_cons_of_mem _ h.mem
  eq_undefined hundefined := h.eq_undefined ((List.mem_cons.1 hundefined).resolve_left hx.symm)
  not_beyond hundefined z hz := by
    have hrest : undefined ∉ y :: ys := fun hu => hundefined (List.mem_cons_of_mem _ hu)
    rcases List.mem_cons.1 hz with rfl | hz
    · exact cmp_ne_trans hkeep hxy (h.not_beyond hrest y (by simp))
    · exact h.not_beyond hrest z hz

end IsExtremum

end Extended

/-! ## the loop -/

namespace Builtin

open Extended

variable {φ : Type} [Foreign φ] {keep : Ordering}

theorem extremum_first (b : Builtin) (r : ExtRat) (vs : List (Value φ)) :
    extremum b keep none (.number r :: vs) = extremum b keep (some r) vs := rfl

theorem extremum_next (b : Builtin) (current r : ExtRat) (vs : List (Value φ)) :
    extremum b keep (some current) (.number r :: vs) =
      match r.cmp? current with
      | none => .ok (.number .undefined)
      | some o => extremum b keep (some (if o = keep then r else current)) vs := by
  rw [extremum]
  cases h : r.cmp? current <;> simp [numeric, h, bind, Except.bind, pure, Except.pure]

/-- The order in which a further number wins, for the two functions that look for an extremum. -/
def keeps? : Builtin → Option Ordering
  | min => some .lt
  | max => some .gt
  | _ => none

variable {b : Builtin}

theorem keeps_ne_eq (hb : b.keeps? = some keep) : keep ≠ .eq := by
  cases b <;> cases hb <;> decide

theorem run_of_keeps (hb : b.keeps? = some keep) (call : Value φ → List (Value φ) → Eval φ (Value φ)) (v : Value φ)
    (vs : List (Value φ)) : b.run call (v :: vs) = Eval.ofExcept (extremum b keep none (v :: vs)) := by
  cases b <;> cases hb <;> rfl

/-- **The loop gives an extremum** of the best number so far and those to come. -/
theorem exists_extremum (b : Builtin) (hkeep : keep ≠ .eq) (x : Extended) (ys : List Extended) :
    ∃ r, extremum b keep (some x.form) (ys.map fun y => (.number y.form : Value φ)) = .ok (.number r.form) ∧
      IsExtremum keep (x :: ys) r := by
  induction ys generalizing x with
  | nil => exact ⟨x, rfl, .singleton hkeep x⟩
  | cons y ys ih =>
    rw [List.map_cons, extremum_next]
    by_cases hundefined : y = undefined ∨ x = undefined
    · have hnone : y.form.cmp? x.form = none := by
        rw [ExtRat.cmp?_eq_none_iff, isUndefined_form_iff, isUndefined_form_iff]
        exact hundefined
      have hmem : undefined ∈ x :: y :: ys := by
        rcases hundefined with rfl | rfl
        · simp
        · simp
      rw [hnone]
      exact ⟨undefined, rfl, hmem, fun _ => rfl, fun h => absurd hmem h⟩
    obtain ⟨hy, hx⟩ := not_or.1 hundefined
    simp only [cmp?_form hy hx]
    by_cases hwins : y.cmp x = keep
    · -- the new number takes the place of the best one
      obtain ⟨r, hloop, hr⟩ := ih y
      have hxy : x.cmp y ≠ keep := by
        have hswap : x.cmp y = (y.cmp x).swap := Std.OrientedCmp.eq_swap
        rw [hswap, hwins]
        cases keep <;> simp_all
      rw [if_pos hwins]
      exact ⟨r, hloop, hr.cons hkeep hx hxy⟩
    · obtain ⟨r, hloop, hr⟩ := ih x
      rw [if_neg hwins]
      exact ⟨r, hloop, (hr.cons hkeep hy hwins).of_perm (.swap x y ys)⟩

end Builtin

/-! ## calls -/

namespace Interpreter

open Extended

variable {φ : Type} [Foreign φ] (i : Interpreter φ) {b : Builtin} {keep : Ordering} {m : Machine φ}

/-- A call of a function that makes no calls itself: there is room for it, and one unit of fuel is enough. -/
theorem call_builtin (hdepth : m.depth < i.context.config.maxDepth) {args : List (Value φ)}
    {result : Except EvalError (Value φ)} (hrun : ∀ call, b.run call args = Eval.ofExcept result) (n : ℕ) :
    i.call (n + 1) (.builtin b) args m = Eval.ofExcept result m := by
  have hstep : callStep i.context (enter i.context (bounce i.context n)) (.builtin b) args =
      Eval.ofExcept result >>= fun v => pure (.done v) := by
    rw [callStep, hrun]
  have hloop : bounce i.context (n + 1) (.builtin b) args = Eval.ofExcept result := by
    rw [bounce_succ, hstep]
    cases result <;> rfl
  refine (enter_of_le hdepth (bounce i.context (n + 1)) _ _).trans ?_
  rw [hloop]
  cases result <;> rfl

/-- All calls of `b` on these numbers return `r`, and leave the machine as it is. -/
def Returns (b : Builtin) (rs : List ExtRat) (r : ExtRat) (m : Machine φ) : Prop :=
  ∀ n, i.call (n + 1) (.builtin b) (rs.map .number) m = .ok (.number r) m

section Extrema

variable (hdepth : m.depth < i.context.config.maxDepth) (hb : b.keeps? = some keep)

include hdepth hb

theorem exists_returns {xs : List Extended} (hxs : xs ≠ []) :
    ∃ x : Extended, i.Returns b (xs.map form) x.form m ∧ IsExtremum keep xs x := by
  obtain ⟨y, ys, rfl⟩ := List.exists_cons_of_ne_nil hxs
  obtain ⟨x, hloop, hx⟩ := b.exists_extremum (φ := φ) (Builtin.keeps_ne_eq hb) y ys
  refine ⟨x, fun n => ?_, hx⟩
  have hargs : ((y :: ys).map form).map Value.number = .number y.form :: ys.map fun z => (.number z.form : Value φ) := by
    simp
  have hrun := fun call => Builtin.run_of_keeps hb call (.number y.form) (ys.map fun z => (.number z.form : Value φ))
  rw [Builtin.extremum_first, hloop] at hrun
  rw [hargs, i.call_builtin hdepth hrun]
  rfl

/-- **`min` and `max` return the extremum**, and nothing else. -/
theorem returns_iff {xs : List Extended} (hxs : xs ≠ []) {r : ExtRat} :
    i.Returns b (xs.map form) r m ↔ ∃ x : Extended, x.form = r ∧ IsExtremum keep xs x := by
  obtain ⟨x, hcall, hx⟩ := i.exists_returns hdepth hb hxs
  constructor
  · intro h
    have hsame := (hcall 0).symm.trans (h 0)
    cases hsame
    exact ⟨x, rfl, hx⟩
  · rintro ⟨x', rfl, hx'⟩
    rw [hx'.unique (Builtin.keeps_ne_eq hb) hx]
    exact hcall

end Extrema

theorem map_form_denote {rs : List ExtRat} (hrs : ∀ r ∈ rs, r.Canonical) : (rs.map ExtRat.denote).map form = rs := by
  rw [List.map_map]
  exact (List.map_congr_left fun r hr => ExtRat.form_denote (hrs r hr)).trans (List.map_id rs)

/-- **`min` and `max` look for an extremum, in any order.**  A call with numbers, at least one, returns one of them: the
undefined number if it is there, and else the one that is not above, or not below, any of them.  It returns the same if the
arguments are permuted; and two lists joined have the extremum of the extrema of both. -/
theorem extrema (hdepth : m.depth < i.context.config.maxDepth) (hb : b.keeps? = some keep) {rs : List ExtRat} (hne : rs ≠ [])
    (hrs : ∀ r ∈ rs, r.Canonical) :
    (∃ r, i.Returns b rs r m ∧ r ∈ rs ∧ (.undefined ∈ rs → r = .undefined) ∧
      (.undefined ∉ rs → ∀ s ∈ rs, s.denote.cmp r.denote ≠ keep)) ∧
    (∀ rs', rs.Perm rs' → ∀ r, i.Returns b rs r m ↔ i.Returns b rs' r m) ∧
    (∀ ss, ss ≠ [] → (∀ s ∈ ss, s.Canonical) → ∀ r s t, i.Returns b rs r m → i.Returns b ss s m →
      (i.Returns b (rs ++ ss) t m ↔ i.Returns b [r, s] t m)) := by
  have hkeep := Builtin.keeps_ne_eq hb
  -- the arguments are the forms of extended rationals, of which `returns_iff` speaks
  have hforms : ∀ ts : List ExtRat, (∀ t ∈ ts, t.Canonical) → ∃ xs : List Extended, xs.map form = ts :=
    fun ts hts => ⟨ts.map ExtRat.denote, map_form_denote hts⟩
  obtain ⟨xs, rfl⟩ := hforms rs hrs
  have hxs : xs ≠ [] := fun h => hne (by rw [h]; rfl)
  have hundefined : undefined.form ∈ xs.map form ↔ undefined ∈ xs := List.mem_map_of_injective form_injective
  refine ⟨?_, ?_, ?_⟩
  · obtain ⟨x, hcall, hx⟩ := i.exists_returns hdepth hb hxs
    refine ⟨x.form, hcall, List.mem_map_of_mem hx.mem, ?_, ?_⟩
    · intro hmem
      rw [hx.eq_undefined (hundefined.1 hmem)]
      rfl
    · rintro hmem _ hs
      obtain ⟨y, hy, rfl⟩ := List.mem_map.1 hs
      rw [denote_form, denote_form]
      exact hx.not_beyond (fun h => hmem (hundefined.2 h)) y hy
  · intro rs' hperm r
    obtain ⟨ys, rfl⟩ := hforms rs' fun t ht => hrs t (hperm.mem_iff.2 ht)
    have hperm : xs.Perm ys := (List.map_perm_map_iff form_injective).1 hperm
    have hys : ys ≠ [] := fun h => hxs (h ▸ hperm).eq_nil
    rw [i.returns_iff hdepth hb hxs, i.returns_iff hdepth hb hys]
    exact exists_congr fun x => and_congr_right fun _ => ⟨(·.of_perm hperm), (·.of_perm hperm.symm)⟩
  · intro ss hss hcanonical r s t hr hs
    obtain ⟨ys, rfl⟩ := hforms ss hcanonical
    have hys : ys ≠ [] := fun h => hss (by rw [h]; rfl)
    obtain ⟨x, rfl, hx⟩ := (i.returns_iff hdepth hb hxs).1 hr
    obtain ⟨y, rfl, hy⟩ := (i.returns_iff hdepth hb hys).1 hs
    have happend : (xs.map form ++ ys.map form) = (xs ++ ys).map form := List.map_append.symm
    have hpair : [x.form, y.form] = [x, y].map form := rfl
    rw [happend, hpair, i.returns_iff hdepth hb (by simp [hxs]), i.returns_iff hdepth hb (by simp)]
    exact exists_congr fun z => and_congr_right fun _ => hx.append_iff hkeep hy

/-- The least of three numbers, one of them infinite, in any order; and after one more. -/
theorem extrema_negInfinity :
    let i : Interpreter Empty := { top := 0 }
    let m : Machine Empty := {}
    let rs : List ExtRat := [⟨3, 1⟩, .negInfinity, ⟨1, 2⟩]
    m.depth < i.context.config.maxDepth ∧ Builtin.min.keeps? = some .lt ∧ rs ≠ [] ∧ (∀ r ∈ rs, r.Canonical) ∧
      i.Returns .min rs .negInfinity m ∧ i.Returns .min rs.reverse .negInfinity m ∧
      ∀ t, i.Returns .min (rs ++ [⟨3, 1⟩]) t m ↔ i.Returns .min [.negInfinity, ⟨3, 1⟩] t m := by
  intro i m rs
  have hdepth : m.depth < i.context.config.maxDepth := by decide
  have hcanonical : ∀ r ∈ rs, r.Canonical := by decide
  have hlaws := i.extrema hdepth (b := .min) rfl (List.cons_ne_nil _ _) hcanonical
  obtain ⟨⟨r, hr, hmem, -, hleast⟩, hperm, happend⟩ := hlaws
  have hr' : r = .negInfinity := by
    have hbelow := hleast (by decide) .negInfinity (by decide)
    have hmem : r = ⟨3, 1⟩ ∨ r = .negInfinity ∨ r = ⟨1, 2⟩ := by simpa using hmem
    rcases hmem with rfl | rfl | rfl
    · exact absurd (by decide +kernel) hbelow
    · rfl
    · exact absurd (by decide +kernel) hbelow
  subst hr'
  refine ⟨hdepth, rfl, List.cons_ne_nil _ _, hcanonical, hr, (hperm _ (List.reverse_perm rs).symm _).1 hr, ?_⟩
  exact fun t => happend [⟨3, 1⟩] (List.cons_ne_nil _ _) (by decide) _ ⟨3, 1⟩ t hr fun _ => rfl

end Interpreter

end RatCalc
