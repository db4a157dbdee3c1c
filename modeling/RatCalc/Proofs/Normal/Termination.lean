import RatCalc.Normal.Rounds
import RatCalc.Proofs.Normal.Descent
import RatCalc.Proofs.Normal.Order
import Mathlib.Logic.Function.Iterate

/-!
# Rounds come to rest

A pass makes the tree lighter or is calm: it does nothing, or it sorts.  Sorting twice is sorting once, so a round that
loses no weight is a sort, and the next such round does nothing at all.

* `apply_eq_or_weight_lt`, `round_eq_or_weight_lt` — the dichotomy for passes and for rounds;
* `exists_round_fixpoint` — every tree has a fixpoint among its rounds;
* `normalize_comes_to_rest` — normalising reaches it if enough rounds are allowed.
-/

namespace RatCalc

namespace Expr

variable {φ : Type}

/-! ## sorting everywhere -/

theorem orderRule_orderRule (e : Expr φ) : orderRule (orderRule e) = orderRule e := by
  cases e with
  | chain op es => exact congrArg (chain op) (sort_of_sorted (sorted_sort es))
  | _ => rfl

theorem mem_children_orderRule {c e : Expr φ} : c ∈ (orderRule e).children ↔ c ∈ e.children := by
  cases e with
  | chain op es => exact (perm_sort es).mem_iff
  | _ => rfl

/-- Every node of an ordered tree is in order. -/
theorem orderRule_of_within_ordered (e : Expr φ) : ∀ s : Expr φ, s.Within (ordered e) → orderRule s = s := by
  induction e using childInduction with
  | step e ih =>
    intro s hs
    rw [ordered, bottomUp_eq] at hs
    cases hs with
    | refl => exact orderRule_orderRule _
    | child hc hs =>
      rw [mem_children_orderRule, children_mapChildren] at hc
      obtain ⟨c, hce, rfl⟩ := List.mem_map.1 hc
      exact ih c hce s hs

theorem ordered_ordered (e : Expr φ) : ordered (ordered e) = ordered e :=
  bottomUp_eq_self (orderRule_of_within_ordered e)

end Expr

open RatCalc.Expr

variable {φ : Type}

namespace Pass

/-- What a rule does to a node from which it takes no weight. -/
def calmRule : Pass → Expr φ → Expr φ
  | ordering | folding => orderRule
  | _ => id

/-- What a pass does to a tree from which it takes no weight. -/
def calm : Pass → Expr φ → Expr φ
  | ordering | folding => ordered
  | _ => id

theorem weight_calmRule (p : Pass) (e : Expr φ) : weight (p.calmRule e) = weight e := by
  cases p with
  | ordering | folding => exact weight_orderRule e
  | _ => rfl

theorem bottomUp_calmRule (p : Pass) (e : Expr φ) : bottomUp p.calmRule e = p.calm e := by
  cases p with
  | ordering | folding => rfl
  | _ => exact bottomUp_eq_self fun _ _ => rfl

theorem weight_calm (p : Pass) (e : Expr φ) : weight (p.calm e) = weight e := by
  rw [← bottomUp_calmRule, weight_bottomUp_eq p.weight_calmRule]

variable [DecidableEq φ]

/-- The rule that a pass applies at every node. -/
def rule : Pass → Expr φ → Expr φ
  | negation => positiveRule
  | leveling => levelRule
  | fractions => fractionRule
  | ordering => orderRule
  | folding => foldRule

theorem apply_eq_bottomUp (p : Pass) (e : Expr φ) : p.apply e = bottomUp p.rule e := by cases p <;> rfl

theorem rule_eq_or_weight_lt (p : Pass) (e : Expr φ) : p.rule e = p.calmRule e ∨ weight (p.rule e) < weight e := by
  cases p with
  | negation => exact positiveRule_eq_or_lt e
  | leveling => exact levelRule_eq_or_lt e
  | fractions => exact fractionRule_eq_or_lt e
  | ordering => exact .inl rfl
  | folding => exact foldRule_eq_or_lt e

theorem apply_eq_or_weight_lt (p : Pass) (e : Expr φ) : p.apply e = p.calm e ∨ weight (p.apply e) < weight e := by
  rw [apply_eq_bottomUp, ← bottomUp_calmRule]
  exact bottomUp_eq_or_weight_lt p.weight_calmRule p.rule_eq_or_weight_lt e

theorem weight_apply_le (p : Pass) (e : Expr φ) : weight (p.apply e) ≤ weight e := by
  rcases p.apply_eq_or_weight_lt e with h | h
  · rw [h, weight_calm]
  · exact h.le

end Pass

namespace Pipeline

variable [DecidableEq φ]

theorem weight_foldl_le (ps : List Pass) (e : Expr φ) :
    weight (ps.foldl (fun tree pass => pass.apply tree) e) ≤ weight e := by
  induction ps generalizing e with
  | nil => exact le_rfl
  | cons p ps ih => exact (ih _).trans (p.weight_apply_le e)

/-- Passes that lose no weight are calm one by one. -/
theorem foldl_eq_or_weight_lt (ps : List Pass) (e : Expr φ) :
    ps.foldl (fun tree pass => pass.apply tree) e = ps.foldl (fun tree pass => pass.calm tree) e ∨
      weight (ps.foldl (fun tree pass => pass.apply tree) e) < weight e := by
  induction ps generalizing e with
  | nil => exact .inl rfl
  | cons p ps ih =>
    simp only [List.foldl_cons]
    rcases p.apply_eq_or_weight_lt e with h | h
    · rw [h]
      exact (ih _).imp_right fun hlt => hlt.trans_eq (p.weight_calm e)
    · exact .inr ((weight_foldl_le ps _).trans_lt h)

/-- A round of the default passes sorts the tree or makes it lighter. -/
theorem round_eq_or_weight_lt {p : Pipeline} (hp : p.passes = Pass.all) (e : Expr φ) :
    p.round e = ordered e ∨ weight (p.round e) < weight e := by
  have h := foldl_eq_or_weight_lt p.passes e
  have hcalm : p.passes.foldl (fun tree pass => pass.calm tree) e = ordered e := by
    rw [hp]
    exact ordered_ordered e
  rwa [hcalm] at h

/-- **Every tree comes to rest.** -/
theorem exists_round_fixpoint {p : Pipeline} (hp : p.passes = Pass.all) (e : Expr φ) :
    ∃ n, p.round (p.round^[n] e) = p.round^[n] e := by
  -- by the weight: two rounds that both lose none are the same sort
  induction hw : weight e using Nat.strong_induction_on generalizing e with
  | _ w ih =>
    subst hw
    have hstep : ∀ e' : Expr φ, weight (p.round e') < weight e → ∃ n, p.round (p.round^[n + 1] e') = p.round^[n + 1] e' := by
      intro e' hlt
      obtain ⟨n, hn⟩ := ih _ hlt (p.round e') rfl
      exact ⟨n, by rw [Function.iterate_succ_apply]; exact hn⟩
    rcases round_eq_or_weight_lt hp e with h1 | h1
    · rcases round_eq_or_weight_lt hp (ordered e) with h2 | h2
      · refine ⟨1, ?_⟩
        rw [Function.iterate_one, h1, h2, ordered_ordered]
      · have hlt : weight (p.round (ordered e)) < weight e := h2.trans_eq (Pass.weight_calm .ordering e)
        obtain ⟨n, hn⟩ := hstep _ hlt
        refine ⟨n + 2, ?_⟩
        rw [Function.iterate_succ_apply, h1]
        exact hn
    · obtain ⟨n, hn⟩ := hstep e h1
      exact ⟨n + 1, hn⟩

/-! ## normalising -/

variable {p : Pipeline}

/-- Normalising is the rounds that are allowed; an early end makes no difference. -/
theorem iterate_eq (p : Pipeline) (n : ℕ) (e : Expr φ) : p.iterate n e = p.round^[n] e := by
  induction n generalizing e with
  | zero => rfl
  | succ n ih =>
    simp only [iterate]
    split
    · rename_i hfix
      rw [Function.iterate_fixed hfix, hfix]
    · rw [ih, Function.iterate_succ_apply]

/-- Normalising stops at a round; which one does not matter here. -/
theorem exists_iterate_eq (p : Pipeline) (n : ℕ) (e : Expr φ) : ∃ j, p.iterate n e = p.round^[j] e :=
  ⟨n, p.iterate_eq n e⟩

/-- A tree that one round brings to rest is normalised to what that round makes of it. -/
theorem normalize_of_round {e e' : Expr φ} (h : round {} e = e') (hrest : round {} e' = e') (n : ℕ) :
    (withMaxRounds {} n).normalize e = e' := by
  obtain ⟨k, hk⟩ : ∃ k, (withMaxRounds {} n).maxRounds = k + 1 := Nat.exists_eq_add_one.2 (le_max_right n 1)
  have hround : ((withMaxRounds {} n).round : Expr φ → Expr φ) = round {} := rfl
  rw [normalize, iterate_eq, hk, hround, Function.iterate_succ_apply, h, Function.iterate_fixed hrest]

/-- With more rounds allowed than it takes to come to rest, normalising ends at rest and says so. -/
theorem iterate_of_fixpoint {N n : ℕ} {e : Expr φ} (h : p.round (p.round^[N] e) = p.round^[N] e) (hn : N < n) (k : ℕ) :
    p.iterate n e = p.round^[N] e ∧ ∃ j, (p.iterateEvents n k e).getLast? = some (.fixpoint j) := by
  induction n generalizing N e k with
  | zero => omega
  | succ n ih =>
    simp only [iterate, iterateEvents]
    split
    · rename_i hfix
      have hN : p.round^[N] e = e := Function.iterate_fixed hfix N
      exact ⟨by rw [hN, hfix], k, by simp⟩
    · rename_i hne
      cases N with
      | zero => exact absurd h hne
      | succ N =>
        obtain ⟨h1, j, h2⟩ := ih (N := N) (e := p.round e) h (by omega) (k + 1)
        refine ⟨h1, j, ?_⟩
        rw [List.getLast?_append, List.getLast?_cons, h2]
        rfl

/-- **Normalising terminates.**  The rounds of any tree are constant from some round on; a pipeline of the default passes
that allows more rounds than that leaves through its fixpoint branch, with the tree of that round. -/
theorem normalize_comes_to_rest (e : Expr φ) :
    ∃ N, (∀ k, N ≤ k → (Pipeline.round {})^[k] e = (Pipeline.round {})^[N] e) ∧
      ∀ p : Pipeline, p.passes = Pass.all → N < p.maxRounds →
        p.normalize e = (Pipeline.round {})^[N] e ∧
          ∃ j, (p.normalizeEvents e).getLast? = some (.fixpoint j) := by
  obtain ⟨N, hN⟩ := exists_round_fixpoint (p := {}) rfl e
  refine ⟨N, ?_, ?_⟩
  · intro k hk
    obtain ⟨d, rfl⟩ := Nat.exists_eq_add_of_le hk
    rw [Nat.add_comm, Function.iterate_add_apply]
    exact Function.iterate_fixed hN d
  · intro p hp hmax
    have hround : (p.round : Expr φ → Expr φ) = Pipeline.round {} := by
      funext e
      simp only [round, hp]
    rw [← hround] at hN ⊢
    exact iterate_of_fixpoint hN hmax 1

end Pipeline

end RatCalc
