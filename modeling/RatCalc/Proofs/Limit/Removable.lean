import RatCalc.Proofs.Limit.Poles
import RatCalc.Proofs.Number.Snapping

/-!
# Limits at removable singularities

At `a` the function `(x - a) * q x / (x - a)` is undefined, and elsewhere it is `q`.  The probes see values of `q` near `a`,
and the limit is the decimal to which one of them is snapped.  That is `q a` if the steps shrink and the decimal shows in
the value; it is not if, for example, `q a` is zero and no value is.

* `Settles` — the steps between results shrink, and the last result is snapped;
* `approach_of_step`, `approach_of_values` — what results settle at is the limit, by induction on the probes left;
* `approach_of_place`, `fromSide_of_values` — the same near a point, from each side and from both;
* `Settles.of_close`, `Settles.exists_eq_zero` — decimals with few places, and zero;
* `Interpreter.limits_of_removable` — when the limit at a removable singularity is the value there.
-/

namespace RatCalc

open ExtRat Extended

variable {φ : Type} [Foreign φ]

namespace Limit

/-! ## results that settle -/

/-- The results settle at `v`, if the last step was the one from result `j` and `n` probes are left: the steps shrink until
one of them is zero, or until there are no more probes, and the last result is snapped to `v`. -/
inductive Settles (y : ℕ → ℚ) (v : ℚ) : ℕ → ℕ → Prop
  | spent {j : ℕ} (hsnap : SnapsTo (y (j + 1)) v) : Settles y v j 0
  | still {j n : ℕ} (hstep : y (j + 1) = y j) (hsnap : SnapsTo (y (j + 1)) v) : Settles y v j n
  | shrinks {j n : ℕ} (hstep : |y (j + 2) - y (j + 1)| < |y (j + 1) - y j|) (hrest : Settles y v (j + 1) n) :
    Settles y v j (n + 1)

section Settles

variable {y : ℕ → ℚ} {v : ℚ} {j n : ℕ}

theorem settles_zero : Settles y v j 0 ↔ SnapsTo (y (j + 1)) v := by
  refine ⟨fun h => ?_, .spent⟩
  cases h with
  | spent hsnap => exact hsnap
  | still hstep hsnap => exact hsnap

theorem settles_still (hstep : y (j + 1) = y j) : Settles y v j n ↔ SnapsTo (y (j + 1)) v := by
  refine ⟨fun h => ?_, .still hstep⟩
  cases h with
  | spent hsnap => exact hsnap
  | still hstep hsnap => exact hsnap
  | shrinks hshrinks hrest =>
    rw [hstep, sub_self, abs_zero] at hshrinks
    exact absurd hshrinks (abs_nonneg _).not_gt

theorem settles_succ (hstep : y (j + 1) ≠ y j) :
    Settles y v j (n + 1) ↔ |y (j + 2) - y (j + 1)| < |y (j + 1) - y j| ∧ Settles y v (j + 1) n := by
  refine ⟨fun h => ?_, fun ⟨hshrinks, hrest⟩ => .shrinks hshrinks hrest⟩
  cases h with
  | still hsame hsnap => exact absurd hsame hstep
  | shrinks hshrinks hrest => exact ⟨hshrinks, hrest⟩

/-- No result but zero settles at zero. -/
theorem Settles.exists_eq_zero (h : Settles y 0 j n) : ∃ k, y k = 0 := by
  have hsnapped : ∀ {k}, SnapsTo (y k) 0 → y k = 0 := by
    intro k hsnap
    rw [← sign_eq_zero_iff, ← hsnap.sign_eq, sign_zero]
  induction h with
  | spent hsnap => exact ⟨_, hsnapped hsnap⟩
  | still hstep hsnap => exact ⟨_, hsnapped hsnap⟩
  | shrinks hstep hrest ih => exact ih

/-- Results whose steps shrink all the time settle at a decimal with few places, if the last one is close to it. -/
theorem Settles.of_close {s : ℕ} {k : ℤ} (hshrinks : ∀ j < 3, |y (j + 2) - y (j + 1)| < |y (j + 1) - y j|) (hs : s ≤ 3)
    (hk : k ≠ 0) (hv : v * 10 ^ s = k) (hleast : ∀ t < s, ∀ l : ℤ, v * 10 ^ t ≠ l)
    (hclose : |y 4 - v| < 1 / 10 ^ (s + minRun)) : Settles y v 0 3 :=
  .shrinks (hshrinks 0 (by decide)) (.shrinks (hshrinks 1 (by decide)) (.shrinks (hshrinks 2 (by decide))
    (.spent (.of_close hs hk hv hleast hclose))))

end Settles

/-! ## the limit from one side -/

section Side

variable {cx : Context φ} {f : Value φ} {g : ExtRat → ExtRat} {m : Machine φ} {place : ExtRat → ExtRat} {y : ℕ → ℚ}
  (hplace : ∀ j, (place (gapAt j)).Canonical) (hy : ∀ j, g (place (gapAt j)) = (fraction (y j)).form)
include hplace hy

/-- A probe of a function that returns fractions. -/
theorem probe_of_values (hf : Computes cx f g m) (j : ℕ) :
    ∃ m' b, (∀ n, b ≤ n → callValue cx n f [.number (place (gapAt j))] m = .ok (.number (fraction (y j)).form) m') ∧
      Computes cx f g (m'.note (.probe (gapAt j) (fraction (y j)).form)) := by
  obtain ⟨m', b, hcall, hf'⟩ := hf.call (hplace j)
  rw [hy] at hcall
  exact ⟨m', b, hcall, hf'.note _⟩

/-- **After a step**, the limit is the fraction at which the results settle, and an infinity if they do not. -/
theorem approach_of_step {j : ℕ} (n : ℕ) (hstep : y (j + 1) ≠ y j) (hf : Computes cx f g m) :
    ∃ r m' b, (∀ k, b ≤ k → approach (callValue cx k) f place n (gapAt (j + 2))
        (some ⟨(fraction (y (j + 1))).form, some (fraction |y (j + 1) - y j|).form⟩) m = .ok r m') ∧
      Computes cx f g m' ∧ ∀ v, r = (fraction v).form ↔ Settles y v j n := by
  induction n generalizing j m with
  | zero => exact ⟨_, m, 0, fun _ _ => rfl, hf, fun v => snap_form_iff.trans settles_zero.symm⟩
  | succ n ih =>
    obtain ⟨m₁, b₁, hcall, hf₁⟩ := probe_of_values hplace hy hf (j + 2)
    by_cases hsame : y (j + 2) = y (j + 1)
    · refine ⟨(fraction (y (j + 2))).form.snap, _, b₁, fun k hk => ?_, hf₁, fun v => ?_⟩
      · rw [approach_of_call (hcall k hk), ← hsame, judge_same]
      · have hshrinks : |y (j + 2) - y (j + 1)| < |y (j + 1) - y j| := by
          rw [hsame, sub_self, abs_zero]
          exact abs_pos.2 (sub_ne_zero.2 hstep)
        rw [snap_form_iff, settles_succ hstep, settles_still hsame, and_iff_right hshrinks]
    by_cases hshrinks : |y (j + 2) - y (j + 1)| < |y (j + 1) - y j|
    · obtain ⟨r, m₂, b₂, hrest, hf₂, hr⟩ := ih hsame hf₁
      refine ⟨r, m₂, max b₁ b₂, fun k hk => ?_, hf₂, fun v => ?_⟩
      · rw [approach_of_call (hcall k (by omega)), judge_shrinking hsame hshrinks]
        exact hrest k (by omega)
      · rw [hr, settles_succ hstep, and_iff_right hshrinks]
    · refine ⟨(infinityOf (y (j + 2) - y (j + 1))).form, _, b₁, fun k hk => ?_, hf₁, fun v => ?_⟩
      · rw [approach_of_call (hcall k hk), judge_runaway hsame (not_lt.1 hshrinks)]
      · have hnot : ¬ Settles y v j (n + 1) := fun h => hshrinks ((settles_succ hstep).1 h).1
        refine iff_of_false (fun hr => ?_) hnot
        have hfinite := isFinite_form v
        rw [← hr, not_isFinite_infinityOf] at hfinite
        cases hfinite

/-- **From one side** the limit is the fraction at which the results settle, after the first step. -/
theorem approach_of_values (hf : Computes cx f g m) :
    ∃ r m' b, (∀ k, b ≤ k → approach (callValue cx k) f place probes firstGap none m = .ok r m') ∧
      Computes cx f g m' ∧ ∀ v, r = (fraction v).form ↔ Settles y v 0 3 := by
  obtain ⟨m₁, b₁, h₁, hf₁⟩ := probe_of_values hplace hy hf 0
  obtain ⟨m₂, b₂, h₂, hf₂⟩ := probe_of_values hplace hy hf₁ 1
  have hfirst : ∀ k, b₁ ≤ k → approach (callValue cx k) f place probes firstGap none m =
      approach (callValue cx k) f place 4 (gapAt 1) (some ⟨(fraction (y 0)).form, none⟩)
        (m₁.note (.probe (gapAt 0) (fraction (y 0)).form)) := by
    intro k hk
    refine (approach_of_call (n := 4) (h₁ k hk)).trans ?_
    rw [judge_first]
    rfl
  by_cases hsame : y 1 = y 0
  · refine ⟨(fraction (y 1)).form.snap, _, max b₁ b₂, fun k hk => ?_, hf₂, fun v => ?_⟩
    · rw [hfirst k (by omega), approach_of_call (h₂ k (by omega)), ← hsame, judge_same]
    · rw [snap_form_iff, settles_still hsame]
  · obtain ⟨r, m₃, b₃, hrest, hf₃, hr⟩ := approach_of_step hplace hy 3 hsame hf₂
    refine ⟨r, m₃, max b₁ (max b₂ b₃), fun k hk => ?_, hf₃, hr⟩
    rw [hfirst k (by omega), approach_of_call (h₂ k (by omega)), judge_second hsame]
    exact hrest k (by omega)

end Side

/-! ## the limits -/

/-- The results of the probes from a side, `s` being `1` on the right and `-1` on the left. -/
def resultAt (u : ℚ → ℚ) (p s : ℚ) (j : ℕ) : ℚ := u (p + s * (1 / 10 ^ (j + 2)))

theorem resultAt_line (c p s : ℚ) (j : ℕ) : resultAt (· + c) p s j = p + c + s * (1 / 10 ^ (j + 2)) := by
  unfold resultAt
  ring

/-- On a line each step is a tenth of the one before. -/
theorem shrinks_line (c p : ℚ) {s : ℚ} (hs : s ≠ 0) (j : ℕ) :
    |resultAt (· + c) p s (j + 2) - resultAt (· + c) p s (j + 1)| <
      |resultAt (· + c) p s (j + 1) - resultAt (· + c) p s j| := by
  have hstep : ∀ k, resultAt (· + c) p s (k + 1) - resultAt (· + c) p s k = s * -(9 / 10 ^ (k + 3)) := by
    intro k
    simp only [resultAt_line]
    field_simp
    ring
  have hpow : (10 : ℚ) ^ (j + 3) < 10 ^ (j + 1 + 3) := pow_lt_pow_right₀ (by norm_num) (by omega)
  have hpos : ∀ k, (0 : ℚ) < 9 / 10 ^ (k + 3) := fun k => by positivity
  rw [hstep (j + 1), hstep j, abs_mul, abs_mul, abs_neg, abs_neg, abs_of_pos (hpos _), abs_of_pos (hpos _)]
  exact mul_lt_mul_of_pos_left (div_lt_div_of_pos_left (by norm_num) (by positivity) hpow) (abs_pos.2 hs)

/-- The values of `u` near `p` settle at `v`. -/
def SettlesFrom (u : ℚ → ℚ) (p v : ℚ) : Approach → Prop
  | .left => Settles (resultAt u p (-1)) v 0 3
  | .right => Settles (resultAt u p 1) v 0 3
  | .both => Settles (resultAt u p (-1)) v 0 3 ∧ Settles (resultAt u p 1) v 0 3

/-- From both sides a fraction is the limit if it is the limit from each. -/
theorem agreed_eq_fraction_iff {left right : ExtRat} {v : ℚ} :
    (if left.isFinite && left == right then left else .undefined) = (fraction v).form ↔
      left = (fraction v).form ∧ right = (fraction v).form := by
  constructor
  · intro h
    split at h
    · rename_i hagree
      have hagree : left = right := by
        rw [Bool.and_eq_true, beq_iff_eq] at hagree
        exact hagree.2
      exact ⟨h, hagree ▸ h⟩
    · have hfinite := isFinite_form v
      rw [← h] at hfinite
      cases hfinite
  · rintro ⟨rfl, rfl⟩
    simp [isFinite_form]

section Sides

variable {cx : Context φ} {f : Value φ} {g : ExtRat → ExtRat} {m : Machine φ} {u : ℚ → ℚ} {p : ℚ}
  (hg : ∀ d : ℚ, d ≠ 0 → g (fraction (p + d)).form = (fraction (u (p + d))).form)
include hg

theorem approach_of_place {place : ExtRat → ExtRat} {s : ℚ} (hs : s ≠ 0)
    (hplace : ∀ d : ℚ, place (fraction d).form = (fraction (p + s * d)).form) (hf : Computes cx f g m) :
    ∃ r m' b, (∀ k, b ≤ k → approach (callValue cx k) f place probes firstGap none m = .ok r m') ∧
      Computes cx f g m' ∧ ∀ v, r = (fraction v).form ↔ Settles (resultAt u p s) v 0 3 := by
  have hgap : ∀ j, place (gapAt j) = (fraction (p + s * (1 / 10 ^ (j + 2)))).form := by
    intro j
    rw [gapAt_form, hplace]
  refine approach_of_values (fun j => ?_) (fun j => ?_) hf
  · rw [hgap]
    exact canonical_form _
  · rw [hgap]
    exact hg _ (mul_ne_zero hs (by positivity))

/-- **The limit from a side is the fraction at which the values settle**; from both sides, if it is the same for both. -/
theorem fromSide_of_values (hf : Computes cx f g m) (side : Approach) :
    ∃ r m' b, (∀ k, b ≤ k → fromSide (callValue cx k) f (fraction p).form side m = .ok r m') ∧
      ∀ v, r = (fraction v).form ↔ SettlesFrom u p v side := by
  have hneg : (-1 : ℚ) ≠ 0 := neg_ne_zero.2 one_ne_zero
  obtain ⟨right, m₁, b₁, hright, -, hsettles⟩ := approach_of_place hg one_ne_zero (add_distance_form p) hf
  obtain ⟨left, m₂, b₂, hleft, hf₂, hsettles₂⟩ := approach_of_place hg hneg (sub_distance_form p) hf
  cases side with
  | left => exact ⟨left, m₂, b₂, hleft, hsettles₂⟩
  | right => exact ⟨right, m₁, b₁, hright, hsettles⟩
  | both =>
    obtain ⟨right', m₃, b₃, hright', -, hsettles₃⟩ := approach_of_place hg one_ne_zero (add_distance_form p) hf₂
    refine ⟨if left.isFinite && left == right' then left else .undefined, m₃, max b₂ b₃, fun k hk => ?_, fun v => ?_⟩
    · exact (Eval.bind_of_ok (hleft k (by omega))).trans (Eval.bind_of_ok (hright' k (by omega)))
    · rw [SettlesFrom, ← hsettles₂, ← hsettles₃, agreed_eq_fraction_iff]

end Sides

/-! ## removable singularities -/

/-- `(x - a) * g x / (x - a)`. -/
def removable (a : ExtRat) (g : ExtRat → ExtRat) (x : ExtRat) : ExtRat := ((x.sub a).mul (g x)).div (x.sub a)

section Removable

variable {g : ExtRat → ExtRat} {u : ℚ → ℚ} {p : ℚ} (hg : ∀ x : ℚ, g (fraction x).form = (fraction (u x)).form)
include hg

theorem removable_at : removable (fraction p).form g (fraction p).form = undefined.form := by
  have hzero := distance_form p 0
  rw [add_zero] at hzero
  rw [removable, hzero, hg, mul_form, Extended.mul, zero_mul, div_zero_form]
  rfl

theorem removable_form {d : ℚ} (hd : d ≠ 0) :
    removable (fraction p).form g (fraction (p + d)).form = (fraction (u (p + d))).form := by
  rw [removable, distance_form, hg, mul_form, Extended.mul, div_form, Extended.div, if_neg hd, mul_div_cancel_left₀ _ hd]

end Removable

end Limit

namespace Interpreter

open Limit

variable {i : Interpreter φ} {f : Value φ} {m : Machine φ} {g : ExtRat → ExtRat} {u : ℚ → ℚ} {p : ℚ}

theorem exists_limit_of_removable (hg : ∀ x : ℚ, g (fraction x).form = (fraction (u x)).form)
    (hf : Computes i.context f (removable (fraction p).form g) m) (side : Approach) :
    ∃ r, i.HasLimit f (fraction p).form side m r ∧ ∀ v, r = (fraction v).form ↔ SettlesFrom u p v side := by
  obtain ⟨m₁, b₁, hcall, hf₁⟩ := hf.call (canonical_form (fraction p))
  rw [removable_at hg] at hcall
  obtain ⟨r, m₂, b₂, hside, hsettles⟩ := fromSide_of_values (fun d hd => removable_form hg hd) hf₁ side
  exact ⟨r, hasLimit_of_fromSide hcall rfl hside, hsettles⟩

/-- **The limit at a removable singularity** is a number, from each side and from both.  It is the value there, of a
polynomial for example, if and only if the values at the probes settle at it. -/
theorem limits_of_removable {a : ExtRat} (ha : a.Canonical) (hp : a.fraction? = some p)
    (hg : ∀ x : ℚ, g (fraction x).form = (fraction (u x)).form) (hf : Computes i.context f (removable a g) m)
    (side : Approach) :
    (∃ r, i.HasLimit f a side m r) ∧
      (i.HasLimit f a side m (fraction (u p)).form ↔ SettlesFrom u p (u p) side) := by
  obtain rfl := eq_form_of_fraction? ha hp
  obtain ⟨r, hr, hsettles⟩ := exists_limit_of_removable hg hf side
  refine ⟨⟨r, hr⟩, ?_⟩
  rw [← hsettles]
  constructor
  · exact fun h => hr.unique h
  · rintro rfl
    exact hr

/-- `(x - 1) * (x + 1) / (x - 1)` at one. -/
theorem limits_of_removable_line :
    let i : Interpreter Empty := { top := 0 }
    let x : Value Empty := .builtin .min
    let one : Value Empty := .number ⟨1, 1⟩
    let f : Value Empty := .lifted .div (.lifted .mul (.lifted .sub x one) (.lifted .add x one)) (.lifted .sub x one)
    let g : ExtRat → ExtRat := fun x => x.add ⟨1, 1⟩
    (⟨1, 1⟩ : ExtRat).Canonical ∧ (⟨1, 1⟩ : ExtRat).fraction? = some 1 ∧
      (∀ x : ℚ, g (fraction x).form = (fraction (x + 1)).form) ∧ Computes i.context f (removable ⟨1, 1⟩ g) {} ∧
      ∀ side, i.HasLimit f ⟨1, 1⟩ side {} (fraction (1 + 1)).form := by
  intro i x one f g
  have hone : (⟨1, 1⟩ : ExtRat) = (fraction 1).form := rfl
  have hg : ∀ x : ℚ, g (fraction x).form = (fraction (x + 1)).form := fun x => by rw [← add_fraction_form, ← hone]
  have hf : Computes i.context f (removable ⟨1, 1⟩ g) {} := by
    apply computes_of_depth
    rintro ⟨store, depth, notes⟩ hdepth x hx
    obtain rfl : depth = 0 := hdepth
    exact ⟨4, _, rfl⟩
  have hp : (⟨1, 1⟩ : ExtRat).fraction? = some 1 := by rw [hone, fraction?_form]
  have hsettles : ∀ s : ℚ, |s| = 1 → Settles (resultAt (· + 1) 1 s) (1 + 1) 0 3 := by
    intro s hs
    have hs0 : s ≠ 0 := abs_ne_zero.1 (hs ▸ one_ne_zero)
    have hclose : |resultAt (· + 1) 1 s 4 - (1 + 1)| < 1 / 10 ^ (0 + minRun) := by
      rw [resultAt_line, add_sub_cancel_left, abs_mul, hs]
      norm_num [minRun]
    exact .of_close (k := 2) (fun j _ => shrinks_line 1 1 hs0 j) (by decide) (by decide) (by norm_num) (by simp) hclose
  refine ⟨by decide, hp, hg, hf, fun side => (limits_of_removable (by decide) hp hg hf side).2.2 ?_⟩
  cases side with
  | left => exact hsettles (-1) (by norm_num)
  | right => exact hsettles 1 (by norm_num)
  | both => exact ⟨hsettles (-1) (by norm_num), hsettles 1 (by norm_num)⟩

/-- `(x - 0) * x / (x - 0)` at zero, where the last probe's value, and so the limit from each side, is no zero. -/
theorem limits_of_removable_origin :
    let i : Interpreter Empty := { top := 0 }
    let x : Value Empty := .builtin .min
    let zero : Value Empty := .number ⟨0, 1⟩
    let f : Value Empty := .lifted .div (.lifted .mul (.lifted .sub x zero) x) (.lifted .sub x zero)
    Computes i.context f (removable ⟨0, 1⟩ id) {} ∧ (∀ side, ¬ i.HasLimit f ⟨0, 1⟩ side {} ⟨0, 1⟩) ∧
      i.HasLimit f ⟨0, 1⟩ .right {} ⟨1, 1000000⟩ ∧ i.HasLimit f ⟨0, 1⟩ .left {} ⟨-1, 1000000⟩ := by
  intro i x zero f
  have hf : Computes i.context f (removable ⟨0, 1⟩ id) {} := by
    apply computes_of_depth
    rintro ⟨store, depth, notes⟩ hdepth x hx
    obtain rfl : depth = 0 := hdepth
    exact ⟨4, _, rfl⟩
  have hid : ∀ x : ℚ, id (fraction x).form = (fraction (x + 0)).form := fun x => by rw [add_zero, id]
  have hlimit := exists_limit_of_removable (p := 0) hid hf
  have hsettles : ∀ s : ℚ, |s| = 1 → Settles (resultAt (· + 0) 0 s) (s / 10 ^ 6) 0 3 := by
    intro s hs
    have hs0 : s ≠ 0 := abs_ne_zero.1 (hs ▸ one_ne_zero)
    have hsnap : SnapsTo (s / 10 ^ 6) (s / 10 ^ 6) := by
      rw [← snap_form_iff]
      rcases eq_or_eq_neg_of_abs_eq hs with rfl | rfl
      · decide +kernel
      · decide +kernel
    have hlast : resultAt (· + 0) 0 s 4 = s / 10 ^ 6 := by
      rw [resultAt_line]
      ring
    exact .shrinks (shrinks_line 0 0 hs0 0) (.shrinks (shrinks_line 0 0 hs0 1) (.shrinks (shrinks_line 0 0 hs0 2)
      (.spent (hlast.symm ▸ hsnap))))
  -- no value is zero, so zero is not what they settle at
  have hmissed : ∀ s : ℚ, s ≠ 0 → ¬ Settles (resultAt (· + 0) 0 s) 0 0 3 := by
    intro s hs h
    obtain ⟨k, hk⟩ := h.exists_eq_zero
    rw [resultAt_line, add_zero, zero_add, mul_eq_zero] at hk
    exact hk.elim hs (by positivity)
  refine ⟨hf, fun side h => ?_, ?_, ?_⟩
  · obtain ⟨r, hr, hvalue⟩ := hlimit side
    have hzero : SettlesFrom (· + 0) 0 0 side := (hvalue 0).1 (hr.unique h)
    cases side with
    | left => exact hmissed (-1) (by norm_num) hzero
    | right => exact hmissed 1 (by norm_num) hzero
    | both => exact hmissed 1 (by norm_num) hzero.2
  · obtain ⟨r, hr, hvalue⟩ := hlimit .right
    have hright : (fraction (1 / 10 ^ 6)).form = ⟨1, 1000000⟩ := by decide +kernel
    rwa [(hvalue _).2 (hsettles 1 (by norm_num)), hright] at hr
  · obtain ⟨r, hr, hvalue⟩ := hlimit .left
    have hleft : (fraction (-1 / 10 ^ 6)).form = ⟨-1, 1000000⟩ := by decide +kernel
    rwa [(hvalue _).2 (hsettles (-1) (by norm_num)), hleft] at hr

end Interpreter

end RatCalc
