import RatCalc.Proofs.Normal.Contents

/-!
# Sums of variables and assignments

The normal form of a sum of variables and assigned literals is the chain of its summands: the variables by name, then the
assignments in the order they are written.  One round gets there, and further rounds change nothing.

* `Plain` — operands that folding keeps, `foldChain_of_plain`;
* `IsSum`, `summands` — trees of `+` over variables and assigned literals, and their leaves from left to right;
* `sumOf`, `arranged` — summands added from left to right, and a sum added in canonical order;
* `normalize_sum` — the normal form.
-/

namespace RatCalc

namespace Expr

variable {φ : Type}

/-! ## operands that folding keeps -/

/-- Neither a literal nor a chain. -/
def Plain (e : Expr φ) : Prop := e.literal? = none ∧ ∀ op es, e ≠ .chain op es

theorem plain_binary (op : BinaryOp) (a b : Expr φ) : (binary op a b).Plain := ⟨rfl, fun _ _ h => nomatch h⟩

theorem Plain.isLiteral {e : Expr φ} (h : e.Plain) (n : ℤ) : e.isLiteral n = false := by
  rw [Expr.isLiteral, h.1]
  rfl

section Unchained

variable {e : Expr φ} {es : List (Expr φ)}

theorem splice_of_ne_chain (he : ∀ op fs, e ≠ .chain op fs) (op : ChainOp) : e.splice op = [e] := by
  unfold splice
  split
  · exact absurd rfl (he _ _)
  · rfl

theorem negationTarget?_of_ne_chain (he : ∀ op fs, e ≠ .chain op fs) : e.negationTarget? = none := by
  unfold negationTarget?
  split
  · exact absurd rfl (he _ _)
  · rfl

variable (hes : ∀ e ∈ es, ∀ op fs, e ≠ .chain op fs)

include hes

theorem flatMap_splice_of_ne_chain (op : ChainOp) : es.flatMap (splice op) = es := by
  rw [List.flatMap_congr fun e he => splice_of_ne_chain (hes e he) op]
  exact List.flatMap_singleton' es

theorem cancelFirst?_of_ne_chain [DecidableEq φ] (before : List (Expr φ)) : cancelFirst? before es = none := by
  induction es generalizing before with
  | nil => rfl
  | cons e es ih =>
    rw [cancelFirst?, negationTarget?_of_ne_chain (hes e (by simp))]
    exact ih (fun e' he' => hes e' (by simp [he'])) _

theorem cancelNegations_of_ne_chain [DecidableEq φ] : cancelNegations es = es := by
  rw [cancelNegations]
  split
  · rename_i rest hrest
    cases hrest.symm.trans (cancelFirst?_of_ne_chain hes [])
  · rfl

end Unchained

theorem chainOf_of_two_le {op : ChainOp} {es : List (Expr φ)} (h : 2 ≤ es.length) : chainOf op es = .chain op (sort es) :=
  match es, h with
  | _ :: _ :: _, _ => rfl

section Chains

variable {es : List (Expr φ)} (hes : ∀ e ∈ es, e.Plain)

include hes

theorem foldLiterals_of_plain (op : ChainOp) : foldLiterals op es = es := by
  have hnone : es.filterMap literal? = [] := List.filterMap_eq_nil_iff.2 fun e he => (hes e he).1
  rw [foldLiterals, foldedLiteral?, hnone]

theorem filter_isLiteral_of_plain (n : ℤ) : es.filter (!·.isLiteral n) = es :=
  List.filter_eq_self.2 fun e he => by rw [(hes e he).isLiteral n, Bool.not_false]

/-- Folding finds nothing to do among plain operands. -/
theorem foldChain_of_plain [DecidableEq φ] (op : ChainOp) : foldChain op es = chainOf op es := by
  have hchain : ∀ e ∈ es, ∀ op fs, e ≠ .chain op fs := fun e he => (hes e he).2
  unfold foldChain
  rw [flatMap_splice_of_ne_chain hchain, foldLiterals_of_plain hes]
  cases op with
  | add =>
    dsimp only
    rw [filter_isLiteral_of_plain hes, cancelNegations_of_ne_chain hchain]
  | mul =>
    have hzero : es.any (·.isLiteral 0) = false := List.any_eq_false.2 fun e he => by simp [(hes e he).isLiteral 0]
    dsimp only
    rw [hzero, filter_isLiteral_of_plain hes]
    rfl

end Chains

/-! ## sums -/

/-- A variable, or a literal that is assigned. -/
inductive Summand : Expr φ → Prop
  | var (name : String) : Summand (.var name)
  | assign (b : Binding) (name text : String) : Summand (.assign b name (.num text))

/-- A tree of `+` over variables and assigned literals. -/
inductive IsSum : Expr φ → Prop
  | summand {e : Expr φ} : e.Summand → IsSum e
  | add {a b : Expr φ} : IsSum a → IsSum b → IsSum (.binary .add a b)

/-- The leaves of a sum, from left to right. -/
def summands : Expr φ → List (Expr φ)
  | .binary .add a b => summands a ++ summands b
  | e => [e]

/-- Trees added from left to right. -/
def sumOf : List (Expr φ) → Expr φ
  | [] => .num ChainOp.add.identity
  | e :: es => es.foldl (.binary .add) e

/-- A sum with its leaves added from left to right in canonical order. -/
def arranged (e : Expr φ) : Expr φ := sumOf (sort e.summands)

theorem Summand.plain {e : Expr φ} (h : e.Summand) : e.Plain := by
  cases h <;> exact ⟨rfl, nofun⟩

theorem Summand.summands {e : Expr φ} (h : e.Summand) : e.summands = [e] := by
  cases h <;> rfl

theorem IsSum.summand_of_mem {e : Expr φ} (h : e.IsSum) : ∀ l ∈ e.summands, l.Summand := by
  induction h with
  | summand h =>
    rw [h.summands]
    simpa using h
  | add _ _ iha ihb =>
    rw [Expr.summands]
    exact List.forall_mem_append.2 ⟨iha, ihb⟩

theorem IsSum.length_pos {e : Expr φ} (h : e.IsSum) : 0 < e.summands.length := by
  induction h with
  | summand h => simp [h.summands]
  | add _ _ iha ihb => simp [Expr.summands, iha]

theorem isSum_foldl {e : Expr φ} {es : List (Expr φ)} (he : e.IsSum) (hes : ∀ l ∈ es, l.Summand) :
    (es.foldl (.binary .add) e).IsSum ∧ (es.foldl (.binary .add) e).summands = e.summands ++ es := by
  induction es generalizing e with
  | nil => simpa using he
  | cons l es ih =>
    have hl := hes l (by simp)
    obtain ⟨hsum, hsummands⟩ := ih (he.add (.summand hl)) fun l' hl' => hes l' (by simp [hl'])
    refine ⟨hsum, ?_⟩
    rw [List.foldl_cons, hsummands, summands, hl.summands, List.append_assoc, List.singleton_append]

/-- The arrangement of a sum is a sum of the same leaves, in order. -/
theorem IsSum.arranged {e : Expr φ} (h : e.IsSum) : e.arranged.IsSum ∧ e.arranged.summands = sort e.summands := by
  have hsort : ∀ l ∈ sort e.summands, l.Summand := fun l hl => h.summand_of_mem l ((perm_sort _).mem_iff.1 hl)
  have hpos : 0 < (sort e.summands).length := by
    rw [(perm_sort _).length_eq]
    exact h.length_pos
  rw [Expr.arranged]
  obtain ⟨l, ls, hls⟩ := List.exists_cons_of_length_pos hpos
  rw [hls] at hsort ⊢
  obtain ⟨hl, hrest⟩ := List.forall_mem_cons.1 hsort
  have hsum := isSum_foldl (IsSum.summand hl) hrest
  rwa [hl.summands] at hsum

/-! ### literals -/

theorem IsSum.literals_eq {e : Expr φ} (h : e.IsSum) : e.literals = e.summands.flatMap literals := by
  induction h with
  | summand h => rw [h.summands, List.flatMap_singleton]
  | add _ _ iha ihb => rw [literals, iha, ihb, Expr.summands, List.flatMap_append]

theorem IsSum.wellFormed_of_mem {e : Expr φ} (h : e.IsSum) (hfault : e.firstFault? = none) {b : Binding} {x text : String}
    (hmem : .assign b x (.num text) ∈ e.summands) : Literal.WellFormed text := by
  refine firstFault?_eq_none_iff.1 hfault text ?_
  rw [h.literals_eq]
  exact List.mem_flatMap.2 ⟨_, hmem, by simp [literals]⟩

/-- Only the assignments have literals, and those keep their order. -/
theorem flatMap_literals_sort {es : List (Expr φ)} (hes : ∀ e ∈ es, e.Summand) :
    (sort es).flatMap literals = es.flatMap literals := by
  have hfilter : ∀ {es : List (Expr φ)}, (∀ e ∈ es, e.Summand) →
      es.flatMap literals = (es.filter (·.rank = 2)).flatMap literals := by
    intro es hes
    induction es with
    | nil => rfl
    | cons e es ih =>
      have ih := ih fun e' he' => hes e' (by simp [he'])
      cases hes e (by simp) with
      | var name => simpa [literals, rank] using ih
      | assign b name text => simpa [literals, rank] using ih
  have hsort : ∀ e ∈ sort es, e.Summand := fun e he => hes e ((perm_sort es).mem_iff.1 he)
  rw [hfilter hsort, filter_sort, ← hfilter hes]

/-- A sum has its first fault where its arrangement has it. -/
theorem IsSum.firstFault?_arranged {e : Expr φ} (h : e.IsSum) : e.arranged.firstFault? = e.firstFault? := by
  obtain ⟨hsum, hsummands⟩ := h.arranged
  have hliterals : e.arranged.literals = e.literals := by
    rw [hsum.literals_eq, hsummands, flatMap_literals_sort h.summand_of_mem, h.literals_eq]
  rw [firstFault?, firstFault?, hliterals]

/-! ### the passes -/

theorem IsSum.withoutNegation {e : Expr φ} (h : e.IsSum) : e.withoutNegation = e := by
  induction h with
  | summand h => cases h <;> rfl
  | add _ _ iha ihb =>
    show Expr.binary .add (Expr.withoutNegation _) (Expr.withoutNegation _) = _
    rw [iha, ihb]

theorem splice_chain (op : ChainOp) (es : List (Expr φ)) : splice op (.chain op es) = es := if_pos rfl

theorem leveled_toBinary (op : ChainOp) (a b : Expr φ) :
    leveled (.binary op.toBinary a b) = .chain op (splice op (leveled a) ++ splice op (leveled b)) := by
  cases op <;> rfl

theorem IsSum.splice_leveled {e : Expr φ} (h : e.IsSum) : splice .add e.leveled = e.summands := by
  induction h with
  | summand h => cases h <;> rfl
  | @add a b _ _ iha ihb =>
    have hleveled : leveled (.binary .add a b) = _ := leveled_toBinary .add a b
    rw [hleveled, splice_chain, iha, ihb, Expr.summands]

theorem leveled_add {a b : Expr φ} (ha : a.IsSum) (hb : b.IsSum) :
    leveled (.binary .add a b) = .chain .add (summands (.binary .add a b)) := by
  have hleveled : leveled (.binary .add a b) = _ := leveled_toBinary .add a b
  rw [hleveled, ha.splice_leveled, hb.splice_leveled, summands]

end Expr

open RatCalc.Expr

variable {φ : Type} [DecidableEq φ]

theorem Pass.apply_summand (p : Pass) {e : Expr φ} (h : e.Summand) : p.apply e = e := by
  cases h <;> cases p <;> rfl

/-- A pass on a chain whose operands it leaves alone is its rule. -/
theorem Pass.apply_chain (p : Pass) (op : ChainOp) {es : List (Expr φ)} (hes : ∀ e ∈ es, p.apply e = e) :
    p.apply (.chain op es) = p.rule (.chain op es) := by
  have hchildren : ∀ c ∈ (Expr.chain op es).children, bottomUp p.rule c = c := by
    intro c hc
    rw [← p.apply_eq_bottomUp, hes c hc]
  rw [p.apply_eq_bottomUp, bottomUp_eq, mapChildren_eq_self hchildren]

namespace Pipeline

theorem round_eq (e : Expr φ) : round {} e = folded (ordered (withFractionsOutside (leveled (withoutNegation e)))) := rfl

theorem round_summand {e : Expr φ} (h : e.Summand) : round {} e = e := by
  have hpass : ∀ p : Pass, p.apply e = e := fun p => p.apply_summand h
  show Pass.folding.apply (Pass.ordering.apply (Pass.fractions.apply (Pass.leveling.apply (Pass.negation.apply e)))) = e
  simp only [hpass]

/-- The last three passes sort a chain of summands. -/
theorem folded_chain {es : List (Expr φ)} (hes : ∀ e ∈ es, e.Summand) (hlen : 2 ≤ es.length) :
    folded (ordered (withFractionsOutside (.chain .add es))) = .chain .add (sort es) := by
  have hsort : ∀ e ∈ sort es, e.Summand := fun e he => hes e ((perm_sort es).mem_iff.1 he)
  have hfractions : withFractionsOutside (.chain .add es) = .chain .add es :=
    Pass.fractions.apply_chain .add fun e he => Pass.fractions.apply_summand (hes e he)
  have hordered : ordered (.chain .add es) = .chain .add (sort es) :=
    Pass.ordering.apply_chain .add fun e he => Pass.ordering.apply_summand (hes e he)
  have hfolded : folded (.chain .add (sort es)) = foldChain .add (sort es) :=
    Pass.folding.apply_chain .add fun e he => Pass.folding.apply_summand (hsort e he)
  rw [hfractions, hordered, hfolded, foldChain_of_plain fun e he => (hsort e he).plain]
  rw [chainOf_of_two_le (by rwa [(perm_sort es).length_eq]), sort_of_sorted (sorted_sort es)]

/-- The chain of the summands in order is at rest. -/
theorem round_chain_sort {es : List (Expr φ)} (hes : ∀ e ∈ es, e.Summand) (hlen : 2 ≤ es.length) :
    round {} (.chain .add (sort es)) = .chain .add (sort es) := by
  have hsort : ∀ e ∈ sort es, e.Summand := fun e he => hes e ((perm_sort es).mem_iff.1 he)
  have hnegation : withoutNegation (.chain .add (sort es)) = .chain .add (sort es) :=
    Pass.negation.apply_chain .add fun e he => Pass.negation.apply_summand (hsort e he)
  have hleveled : leveled (.chain .add (sort es)) = .chain .add ((sort es).flatMap (splice .add)) :=
    Pass.leveling.apply_chain .add fun e he => Pass.leveling.apply_summand (hsort e he)
  rw [round_eq, hnegation, hleveled, flatMap_splice_of_ne_chain fun e he => (hsort e he).plain.2,
    folded_chain hsort (by rwa [(perm_sort es).length_eq]), sort_of_sorted (sorted_sort es)]

/-- One round brings a sum to rest. -/
theorem round_sum {e : Expr φ} (h : e.IsSum) :
    round {} e = chainOf .add e.summands ∧ round {} (chainOf .add e.summands) = chainOf .add e.summands := by
  cases h with
  | summand h =>
    rw [h.summands]
    exact ⟨round_summand h, round_summand h⟩
  | @add a b ha hb =>
    have hsum := IsSum.add ha hb
    have hlen : 2 ≤ (summands (.binary .add a b)).length := by
      have hapos := ha.length_pos
      have hbpos := hb.length_pos
      rw [summands, List.length_append]
      omega
    rw [chainOf_of_two_le hlen]
    refine ⟨?_, round_chain_sort hsum.summand_of_mem hlen⟩
    rw [round_eq, hsum.withoutNegation, leveled_add ha hb, folded_chain hsum.summand_of_mem hlen]

/-- **Normal forms of sums**, however many rounds are allowed. -/
theorem normalize_sum (n : ℕ) {e : Expr φ} (h : e.IsSum) :
    (withMaxRounds {} n).normalize e = chainOf .add e.summands :=
  normalize_of_round (round_sum h).1 (round_sum h).2 n

end Pipeline

end RatCalc
