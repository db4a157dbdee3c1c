import RatCalc.Proofs.Normal.Sums

/-!
# The limit on rounds

Normalising gives up after a fixed number of rounds.  A tree that has come to rest by then is a fixpoint, and the log says
so; otherwise the log says that the rounds are spent.  No number of rounds is enough for all trees: in a tower of powers a
round opens the innermost power only.

* `getLast?_iterateEvents` — which of the two the log ends with;
* `layer`, `tower` — a product with a power, and powers in the exponents of powers;
* `iterate_round_tower` — each round takes one layer off;
* `round_normalize_tower_ne` — a tower as high as the limit does not come to rest.
-/

namespace RatCalc

open RatCalc.Expr

variable {φ : Type} [DecidableEq φ]

namespace Pipeline

/-! ## the rounds that are run -/

/-- How the log ends, for a tree that comes to rest after `N` rounds. -/
theorem getLast?_iterateEvents {p : Pipeline} {N : ℕ} {e : Expr φ}
    (hchange : ∀ k < N, p.round^[k + 1] e ≠ p.round^[k] e) (hrest : p.round (p.round^[N] e) = p.round^[N] e) (n k : ℕ) :
    (p.iterateEvents n k e).getLast? = some (if N < n then .fixpoint (k + N) else .roundsSpent p.maxRounds) := by
  induction n generalizing N k e with
  | zero => simp [iterateEvents]
  | succ n ih =>
    cases N with
    | zero =>
      have hfix : p.round e = e := hrest
      simp [iterateEvents, hfix]
    | succ N =>
      have hfirst : p.round e ≠ e := hchange 0 N.succ_pos
      have hlast := ih (e := p.round e) (fun i hi => hchange (i + 1) (by omega)) hrest (k + 1)
      simp only [iterateEvents, hfirst, if_false]
      rw [List.getLast?_append, List.getLast?_cons, hlast]
      simp [Nat.add_right_comm, Nat.add_assoc]

/-- Further rounds keep a tree at rest. -/
theorem iterate_round_of_le {p : Pipeline} {N k : ℕ} {e : Expr φ} (hrest : p.round (p.round^[N] e) = p.round^[N] e)
    (hk : N ≤ k) : p.round^[k] e = p.round^[N] e := by
  obtain ⟨d, rfl⟩ := Nat.exists_eq_add_of_le hk
  rw [Nat.add_comm, Function.iterate_add_apply]
  exact Function.iterate_fixed hrest d

theorem round_of_passes {p : Pipeline} (hp : p.passes = Pass.all) : (p.round : Expr φ → Expr φ) = round {} := by
  funext e
  simp only [round, hp]

end Pipeline

/-! ## towers -/

namespace Expr

variable {φ : Type}

/-- `x / (x * x)` -/
def ratio : Expr φ := div (.var "x") (.chain .mul [.var "x", .var "x"])

/-- `x * (x / (x * x)) ^ e` -/
def layer (e : Expr φ) : Expr φ := .chain .mul [.var "x", .binary .pow ratio e]

/-- A layer whose exponent has come down to one: `x * (x / (x * x))` -/
def opened : Expr φ := .chain .mul [.var "x", ratio]

/-- A layer as it is written, between two operands at a time. -/
def writtenLayer (e : Expr φ) : Expr φ :=
  mul (.var "x") (.binary .pow (div (.var "x") (mul (.var "x") (.var "x"))) e)

/-- Layers in the exponents of layers, with a one in the innermost. -/
def tower : ℕ → Expr φ
  | 0 => .num "1"
  | n + 1 => writtenLayer (tower n)

/-! ### a layer under the passes -/

theorem sort_var_pair {e : Expr φ} (h : e.rank = 2) : sort [.var "x", e] = [.var "x", e] := by
  have hcmp : cmp (.var "x") e ≠ .gt := by
    rw [cmp_of_rank_two (.inr h), h]
    exact (by decide : compare 1 2 ≠ Ordering.gt)
  exact sort_of_sorted (by simpa [Sorted] using hcmp)

theorem sort_vars : sort [(.var "x" : Expr φ), .var "x"] = [.var "x", .var "x"] :=
  sort_of_sorted (by simp [Sorted, cmp])

theorem withoutNegation_layer (e : Expr φ) : withoutNegation (layer e) = layer (withoutNegation e) := rfl

theorem withoutNegation_writtenLayer (e : Expr φ) :
    withoutNegation (writtenLayer e) = writtenLayer (withoutNegation e) := rfl

theorem leveled_layer (e : Expr φ) : leveled (layer e) = layer (leveled e) := rfl

theorem leveled_writtenLayer (e : Expr φ) : leveled (writtenLayer e) = layer (leveled e) := rfl

theorem withFractionsOutside_layer (e : Expr φ) : withFractionsOutside (layer e) = layer (withFractionsOutside e) := rfl

theorem ordered_layer (e : Expr φ) : ordered (layer e) = layer (ordered e) := by
  show Expr.chain .mul (sort [.var "x", .binary .pow (div (.var "x") (.chain .mul (sort [.var "x", .var "x"])))
    (ordered e)]) = _
  rw [sort_vars, sort_var_pair rfl]
  rfl

/-- The product of `x` and a fraction is one fraction, with the same above and below. -/
theorem withFractionsOutside_opened : withFractionsOutside (opened : Expr φ) =
    div (.chain .mul [.var "x", .var "x"]) (.chain .mul [.var "x", .var "x"]) := rfl

theorem plain_ratio : (ratio : Expr φ).Plain := plain_binary _ _ _

theorem literal?_layers (n : ℕ) : (layer^[n] (opened : Expr φ)).literal? = none := by
  cases n with
  | zero => rfl
  | succ n => rw [Function.iterate_succ_apply']; rfl

variable [DecidableEq φ]

theorem foldDivision_ratio : foldDivision (.var "x") (.chain .mul [.var "x", .var "x"]) = (ratio : Expr φ) := by
  simp [foldDivision, ratio, literal?, isLiteral]

theorem foldChain_pair {e : Expr φ} (h : e.Plain) : foldChain .mul [.var "x", e] = .chain .mul (sort [.var "x", e]) := by
  have hplain : ∀ f ∈ [.var "x", e], f.Plain := by simpa [h] using (Summand.var "x").plain
  rw [foldChain_of_plain hplain, chainOf_of_two_le le_rfl]

theorem folded_layer (e : Expr φ) : folded (layer e) = foldChain .mul [.var "x", foldPower ratio (folded e)] := by
  show foldChain .mul [.var "x", foldPower (foldDivision (.var "x") (foldChain .mul [.var "x", .var "x"]))
    (folded e)] = _
  rw [foldChain_pair (Summand.var "x").plain, sort_vars, foldDivision_ratio]

/-- A layer whose exponent is no literal stays. -/
theorem folded_layer_of_none {e : Expr φ} (h : (folded e).literal? = none) : folded (layer e) = layer (folded e) := by
  have hlit : ∀ n, (folded e).isLiteral n = false := fun n => by rw [isLiteral, h]; rfl
  have hpower : foldPower ratio (folded e) = .binary .pow ratio (folded e) := by
    simp [foldPower, hlit, plain_ratio.isLiteral]
  rw [folded_layer, hpower, foldChain_pair (plain_binary _ _ _), sort_var_pair rfl, layer]

/-- A layer whose exponent is one is opened. -/
theorem folded_layer_of_one {e : Expr φ} (h : folded e = .num "1") : folded (layer e) = opened := by
  have hzero : (.num "1" : Expr φ).isLiteral 0 = false := (by decide : (.num "1" : Expr Empty).isLiteral 0 = false)
  have hone : (.num "1" : Expr φ).isLiteral 1 = true := (by decide : (.num "1" : Expr Empty).isLiteral 1 = true)
  have hpower : foldPower ratio (.num "1" : Expr φ) = ratio := by
    simp [foldPower, hzero, hone, plain_ratio.isLiteral]
  rw [folded_layer, h, hpower, foldChain_pair plain_ratio, sort_var_pair rfl, opened]

end Expr

namespace Pipeline

theorem round_opened : round {} (opened : Expr φ) = .num "1" := by
  have hordered : ordered (div (.chain .mul [.var "x", .var "x"]) (.chain .mul [.var "x", .var "x"]) : Expr φ) =
      div (.chain .mul [.var "x", .var "x"]) (.chain .mul [.var "x", .var "x"]) := by
    show div (.chain .mul (sort [.var "x", .var "x"])) (.chain .mul (sort [.var "x", .var "x"])) = _
    rw [sort_vars]
  show folded (ordered (withFractionsOutside opened)) = _
  rw [withFractionsOutside_opened, hordered]
  show foldDivision (foldChain .mul [.var "x", .var "x"]) (foldChain .mul [.var "x", .var "x"]) = _
  rw [foldChain_pair (Summand.var "x").plain]
  simp [foldDivision, literal?]

theorem round_one : round {} (.num "1" : Expr φ) = .num "1" := rfl

/-- The passes before the last. -/
theorem round_layer (e : Expr φ) :
    round {} (layer e) = folded (layer (ordered (withFractionsOutside (leveled (withoutNegation e))))) := by
  rw [round_eq, withoutNegation_layer, leveled_layer, withFractionsOutside_layer, ordered_layer]

theorem round_writtenLayer (e : Expr φ) : round {} (writtenLayer e) = round {} (layer e) := by
  rw [round_layer, round_eq, withoutNegation_writtenLayer, leveled_writtenLayer, withFractionsOutside_layer, ordered_layer]

theorem round_layer_of_none {e : Expr φ} (h : (round {} e).literal? = none) : round {} (layer e) = layer (round {} e) := by
  rw [round_layer]
  exact folded_layer_of_none h

theorem round_layer_of_one {e : Expr φ} (h : round {} e = .num "1") : round {} (layer e) = opened := by
  rw [round_layer]
  exact folded_layer_of_one h

/-- A round takes the innermost layer off. -/
theorem round_layers (n : ℕ) : round {} (layer^[n + 1] (opened : Expr φ)) = layer^[n] opened := by
  induction n with
  | zero => exact round_layer_of_one round_opened
  | succ n ih =>
    have hnone : (round {} (layer^[n + 1] (opened : Expr φ))).literal? = none := by
      rw [ih]
      exact literal?_layers n
    rw [Function.iterate_succ_apply', round_layer_of_none hnone, ih, ← Function.iterate_succ_apply' layer]

/-- The first round turns a tower into layers, without the innermost. -/
theorem round_tower (n : ℕ) : round {} (tower (n + 1) : Expr φ) = layer^[n] opened := by
  induction n with
  | zero => exact (round_writtenLayer _).trans (round_layer_of_one round_one)
  | succ n ih =>
    have hnone : (round {} (tower (n + 1) : Expr φ)).literal? = none := by
      rw [ih]
      exact literal?_layers n
    rw [tower, round_writtenLayer, round_layer_of_none hnone, ih, ← Function.iterate_succ_apply' layer]

/-- And so does each round after it. -/
theorem iterate_round_tower (k d : ℕ) : (round {})^[k + 1] (tower (k + d + 1) : Expr φ) = layer^[d] opened := by
  induction k generalizing d with
  | zero => rw [Nat.zero_add, Nat.zero_add, Function.iterate_one, round_tower]
  | succ k ih =>
    rw [Function.iterate_succ_apply', Nat.succ_add_eq_add_succ, ih (d + 1), round_layers]

/-- **No limit is enough.**  A tower as high as the rounds that are allowed is not yet at rest after them. -/
theorem round_normalize_tower_ne {p : Pipeline} (hp : p.passes = Pass.all) (hmax : p.maxRounds ≠ 0) :
    p.round (p.normalize (tower p.maxRounds : Expr φ)) ≠ p.normalize (tower p.maxRounds) := by
  obtain ⟨n, hn⟩ := Nat.exists_eq_succ_of_ne_zero hmax
  rw [normalize, iterate_eq, round_of_passes hp, hn, iterate_round_tower n 0, Function.iterate_zero_apply, round_opened]
  intro h
  cases h

/-- **Normalising within a limit.**  A tree comes to rest after some number of rounds, each of which changes it.  Its
normal form under a limit is at rest if and only if the limit allows that many rounds.  With a round to spare the log ends
by saying so; without one all rounds are run, and the log ends by saying that they are spent. -/
theorem normalize_at_rest_iff (e : Expr φ) :
    ∃ N, (∀ k < N, (round {})^[k + 1] e ≠ (round {})^[k] e) ∧ round {} ((round {})^[N] e) = (round {})^[N] e ∧
      ∀ p : Pipeline, p.passes = Pass.all →
        (p.round (p.normalize e) = p.normalize e ↔ N ≤ p.maxRounds) ∧
        (N < p.maxRounds →
          p.normalize e = (round {})^[N] e ∧ (p.normalizeEvents e).getLast? = some (.fixpoint (N + 1))) ∧
        (p.maxRounds ≤ N →
          p.normalize e = (round {})^[p.maxRounds] e ∧
            (p.normalizeEvents e).getLast? = some (.roundsSpent p.maxRounds)) := by
  have hex := exists_round_fixpoint (p := {}) rfl e
  have hleast : ∀ {k}, (round {})^[k + 1] e = (round {})^[k] e → Nat.find hex ≤ k := by
    intro k hk
    refine Nat.find_min' hex ?_
    rwa [← Function.iterate_succ_apply' (round {})]
  have hchange : ∀ k < Nat.find hex, (round {})^[k + 1] e ≠ (round {})^[k] e := fun k hk h => hk.not_ge (hleast h)
  have hrest : ∀ k, Nat.find hex ≤ k → (round {})^[k] e = (round {})^[Nat.find hex] e := fun k hk =>
    iterate_round_of_le (Nat.find_spec hex) hk
  refine ⟨Nat.find hex, hchange, Nat.find_spec hex, ?_⟩
  intro p hp
  have hround : (p.round : Expr φ → Expr φ) = round {} := round_of_passes hp
  have hnormalize : p.normalize e = (round {})^[p.maxRounds] e := by rw [normalize, iterate_eq, hround]
  have hlog : (p.normalizeEvents e).getLast? = _ :=
    getLast?_iterateEvents (N := Nat.find hex) (by rwa [hround]) (by rw [hround]; exact Nat.find_spec hex) p.maxRounds 1
  refine ⟨?_, ?_, ?_⟩
  · rw [hnormalize, hround, ← Function.iterate_succ_apply' (round {})]
    refine ⟨hleast, ?_⟩
    intro hle
    rw [hrest _ hle, hrest _ (hle.trans (Nat.le_succ _))]
  · intro hlt
    rw [hnormalize, hrest _ hlt.le, hlog, if_pos hlt, Nat.add_comm]
    exact ⟨rfl, rfl⟩
  · intro hle
    rw [hlog, if_neg hle.not_gt]
    exact ⟨hnormalize, rfl⟩

/-- The default limit is not enough for a tower of sixteen layers. -/
theorem round_normalize_tower_sixteen :
    round {} (normalize {} (tower 16 : Expr Empty)) ≠ normalize {} (tower 16 : Expr Empty) :=
  round_normalize_tower_ne (p := {}) rfl nofun

end Pipeline

end RatCalc
