import RatCalc.Token
import RatCalc.Proofs.Eval.Normalizing
import RatCalc.Proofs.Normal.Cancellation
import RatCalc.Proofs.Number.Powers

/-!
# Sums after cancelling

A negation has one factor more than what it negates, and the factors of both are evaluated in the same order.  So their
values are opposite if products keep opposite values opposite, which those of numbers do; those of a host are asked to.

* `Opposites` — a notion of opposite values that products keep;
* `opposite_of_negationTarget?` — a negation evaluates to the opposite of what it negates;
* `evaluatesTo_sum` — a chain of `+` evaluates to the sum of what its operands evaluate to;
* `cancelNegations_cancels` — what cancelling does to a list of operands and to their sum.
-/

namespace RatCalc

open Extended RatCalc.Expr

namespace ExtRat

theorem mul_eq_form (a b : ExtRat) : a.mul b = (a.denote.mul b.denote).form := by
  rw [mul, reduce_eq_form, denote_mul]

theorem mul_mul (a b c : ExtRat) : (a.mul b).mul c = a.mul (b.mul c) := by
  simp only [mul_eq_form, denote_form, Extended.mul_assoc]

end ExtRat

variable {φ : Type}

theorem Eval.ofExcept_eq_ok_iff {α : Type} {result : Except EvalError α} {a : α} {m m' : Machine φ} :
    Eval.ofExcept result m = .ok a m' ↔ result = .ok a ∧ m = m' := by
  cases result with
  | error fault => exact ⟨nofun, nofun⟩
  | ok b =>
    constructor
    · intro h
      cases h
      exact ⟨rfl, rfl⟩
    · rintro ⟨h, rfl⟩
      cases h
      rfl

variable [Foreign φ]

/-! ## opposite values -/

/-- A notion of opposite values that agrees with that of numbers and that products keep. -/
structure Opposites (opposite : Value φ → Value φ → Prop) : Prop where
  numbers : ∀ {x y : ExtRat}, opposite (.number x) (.number y) → y = (ExtRat.ofInt (-1)).mul x
  minusOne : ∀ {v w : Value φ}, Value.binary .mul (.number (.ofInt (-1))) v = .ok w → opposite v w
  mul : ∀ {u u' v w w' : Value φ}, opposite u u' → u.binary .mul v = .ok w → u'.binary .mul v = .ok w' → opposite w w'

/-- The products that a host makes are no numbers. -/
def Foreign.NoNumberProducts (φ : Type) [Foreign φ] : Prop :=
  ∀ (x : φ) (v : Value φ) (side : Side) (r : ExtRat), Foreign.binary x .mul v side ≠ some (.ok (.number r))

/-- Under such a host only numbers have a number as their product. -/
theorem Value.number?_of_binary_mul (hhost : Foreign.NoNumberProducts φ) {a b w : Value φ} (h : a.binary .mul b = .ok w) :
    w.number? = a.number?.bind fun x => b.number?.map x.mul := by
  have hforeign : ∀ {x : φ} {v : Value φ} {side : Side},
      (Foreign.binary x .mul v side).getD (.ok (.lifted .mul a b)) = .ok w → w.number? = none := by
    intro x v side h
    cases hx : Foreign.binary x .mul v side with
    | none =>
      rw [hx] at h
      cases h
      rfl
    | some result =>
      rw [hx, Option.getD_some] at h
      cases w with
      | number r => exact absurd (h ▸ hx) (hhost x v side r)
      | _ => rfl
  change a.arithmetic .mul b = .ok w at h
  unfold Value.arithmetic at h
  split at h
  · cases h
    rfl
  · cases h
    cases a <;> rfl
  · cases h
    rfl
  · exact hforeign h
  · rw [hforeign h]
    cases a <;> rfl
  · cases h
    cases a <;> cases b <;> simp_all [Value.number?]

/-- Numbers of opposite sign, and all values that are no numbers. -/
theorem opposites_of_noNumberProducts (hhost : Foreign.NoNumberProducts φ) :
    Opposites fun u u' : Value φ => u'.number? = u.number?.map (ExtRat.ofInt (-1)).mul where
  numbers := Option.some.inj
  minusOne h := Value.number?_of_binary_mul hhost h
  mul {u u' v w w'} hu h h' := by
    rw [Value.number?_of_binary_mul hhost h, Value.number?_of_binary_mul hhost h', hu]
    cases u.number? <;> cases v.number? <;> simp [ExtRat.mul_mul]

theorem Token.noNumberProducts : Foreign.NoNumberProducts Token := by
  intro x v side r h
  have h : Token.binary x .mul v side = some (.ok (.number r)) := h
  unfold Token.binary at h
  split at h <;> simp_all [made]

section Sum

variable {cx : Context φ} {call : Value φ → List (Value φ) → Eval φ (Value φ)} {scope : ScopeId} {m m₁ m₂ : Machine φ}

/-! ## negations -/

/-- The tree evaluates to a fraction. -/
def EvaluatesTo (cx : Context φ) (call : Value φ → List (Value φ) → Eval φ (Value φ)) (scope : ScopeId) (m : Machine φ)
    (e : Expr φ) (q : ℚ) : Prop :=
  ∃ m', eval cx call scope e m = .ok (.number (fraction q).form) m'

theorem eval_of_isLiteral {e : Expr φ} {n : ℤ} (h : e.isLiteral n = true) :
    eval cx call scope e m = .ok (.number (.ofInt n)) m := by
  have hlit : e.literal? = some (.ofInt n) := by simpa [isLiteral] using h
  cases e with
  | num text =>
    rw [eval]
    exact evalLiteral_of_read (Literal.value?_eq_some_iff.1 hlit) m
  | _ => cases hlit

/-- A product of any number of factors is evaluated from the first. -/
theorem eval_productOf {e : Expr φ} {es : List (Expr φ)} {w : Value φ}
    (h : eval cx call scope (productOf (e :: es)) m = .ok w m₁) :
    ∃ v n, eval cx call scope e m = .ok v n ∧ evalChainFrom cx call scope .mul v es n = .ok w m₁ := by
  cases es with
  | nil =>
    refine ⟨w, m₁, h, ?_⟩
    rw [evalChainFrom]
    rfl
  | cons e' es =>
    change eval cx call scope (.chain .mul (e :: e' :: es)) m = .ok w m₁ at h
    rw [eval, evalChain] at h
    exact Eval.bind_eq_ok_iff.1 h

section Opposite

variable {opposite : Value φ → Value φ → Prop} (hopp : Opposites opposite)

include hopp

/-- The same factors behind opposite values. -/
theorem opposite_of_evalChainFrom {es : List (Expr φ)} {u u' w w' : Value φ} (hu : opposite u u')
    (h : evalChainFrom cx call scope .mul u es m = .ok w m₁) (h' : evalChainFrom cx call scope .mul u' es m = .ok w' m₂) :
    opposite w w' := by
  induction es generalizing u u' m with
  | nil =>
    rw [evalChainFrom] at h h'
    cases h
    cases h'
    exact hu
  | cons e es ih =>
    rw [evalChainFrom, Eval.bind_eq_ok_iff] at h h'
    obtain ⟨v, n, hv, h⟩ := h
    obtain ⟨v', n', hv', h'⟩ := h'
    -- the factor has the same value in both, and leaves the same machine
    rw [hv] at hv'
    cases hv'
    obtain ⟨x, n₁, hstep, hrest⟩ := Eval.bind_eq_ok_iff.1 h
    obtain ⟨x', n₁', hstep', hrest'⟩ := Eval.bind_eq_ok_iff.1 h'
    obtain ⟨hx, rfl⟩ := Eval.ofExcept_eq_ok_iff.1 hstep
    obtain ⟨hx', rfl⟩ := Eval.ofExcept_eq_ok_iff.1 hstep'
    exact ih (hopp.mul hu hx hx') hrest hrest'

/-- **Negations.**  The values of a term and of its negation, evaluated from the same machine, are opposite. -/
theorem opposite_of_negationTarget? {e t : Expr φ} (h : e.negationTarget? = some t) {w w' : Value φ}
    (ht : eval cx call scope t m = .ok w m₁) (he : eval cx call scope e m = .ok w' m₂) : opposite w w' := by
  obtain ⟨minusOne, ts, hminus, hts, rfl, rfl⟩ := negationTarget?_eq_some_iff.1 h
  obtain ⟨a, as, rfl⟩ := List.exists_cons_of_ne_nil hts
  obtain ⟨v, n, hv, hrest⟩ := eval_productOf ht
  rw [eval, evalChain] at he
  rw [Eval.bind_of_ok (eval_of_isLiteral hminus), evalChainFrom, Eval.bind_of_ok hv] at he
  obtain ⟨x, n₁, hstep, hrest'⟩ := Eval.bind_eq_ok_iff.1 he
  obtain ⟨hx, rfl⟩ := Eval.ofExcept_eq_ok_iff.1 hstep
  exact opposite_of_evalChainFrom hopp (hopp.minusOne hx) hrest hrest'

theorem EvaluatesTo.eq_neg {e t : Expr φ} (h : e.negationTarget? = some t) {p q : ℚ}
    (he : EvaluatesTo cx call scope m e p) (ht : EvaluatesTo cx call scope m t q) : p = -q := by
  obtain ⟨m₁, he⟩ := he
  obtain ⟨m₂, ht⟩ := ht
  have hnumber := hopp.numbers (opposite_of_negationTarget? hopp h ht he)
  rw [ExtRat.ofInt_form, mul_form] at hnumber
  have hfraction := form_injective hnumber
  rw [Extended.mul, Extended.fraction.injEq] at hfraction
  rw [hfraction, Int.cast_neg, Int.cast_one]
  ring

end Opposite

/-! ## the sum -/

/-- Wherever `P` holds the tree evaluates to the fraction, and afterwards `P` holds again. -/
def EvaluatesThroughout (cx : Context φ) (call : Value φ → List (Value φ) → Eval φ (Value φ)) (scope : ScopeId)
    (P : Machine φ → Prop) (e : Expr φ) (q : ℚ) : Prop :=
  ∀ m, P m → ∃ m', P m' ∧ eval cx call scope e m = .ok (.number (fraction q).form) m'

theorem EvaluatesThroughout.evaluatesTo {P : Machine φ → Prop} {e : Expr φ} {q : ℚ}
    (h : EvaluatesThroughout cx call scope P e q) (hm : P m) : EvaluatesTo cx call scope m e q := by
  obtain ⟨m', -, he⟩ := h m hm
  exact ⟨m', he⟩

variable {es : List (Expr φ)} {v : Expr φ → ℚ} {P : Machine φ → Prop}

theorem evalChainFrom_add (hes : ∀ e ∈ es, EvaluatesThroughout cx call scope P e (v e)) (hm : P m) (p : ℚ) :
    ∃ m', evalChainFrom cx call scope .add (.number (fraction p).form) es m =
      .ok (.number (fraction (p + (es.map v).sum)).form) m' := by
  induction es generalizing p m with
  | nil =>
    refine ⟨m, ?_⟩
    rw [evalChainFrom, List.map_nil, List.sum_nil, add_zero]
    rfl
  | cons e es ih =>
    obtain ⟨he, hes⟩ := List.forall_mem_cons.1 hes
    obtain ⟨m₁, hm₁, he⟩ := he m hm
    obtain ⟨m', hrest⟩ := ih hes hm₁ (p + v e)
    have hnumbers : Value.binary .add (.number (fraction p).form) (.number (fraction (v e)).form : Value φ) =
        .ok (.number (fraction (p + v e)).form) := by
      rw [binary_numbers rfl, BinaryOp.onNumbers, add_fraction_form]
    refine ⟨m', ?_⟩
    rw [List.map_cons, List.sum_cons, ← add_assoc, evalChainFrom]
    refine (Eval.bind_of_ok he).trans ?_
    exact (Eval.bind_of_ok (Eval.ofExcept_eq_ok_iff.2 ⟨hnumbers, rfl⟩)).trans hrest

/-- A chain of `+` evaluates to the sum. -/
theorem evaluatesTo_sum (hes : ∀ e ∈ es, EvaluatesThroughout cx call scope P e (v e)) (hm : P m) :
    EvaluatesTo cx call scope m (.chain .add es) (es.map v).sum := by
  cases es with
  | nil =>
    refine ⟨m, ?_⟩
    rw [eval, evalChain]
    exact evalLiteral_of_value (@value_identity φ (fun _ => none) .add) m
  | cons e es =>
    obtain ⟨he, hes⟩ := List.forall_mem_cons.1 hes
    obtain ⟨m₁, hm₁, he⟩ := he m hm
    obtain ⟨m', hrest⟩ := evalChainFrom_add hes hm₁ (v e)
    refine ⟨m', ?_⟩
    rw [eval, evalChain, List.map_cons, List.sum_cons]
    exact (Eval.bind_of_ok he).trans hrest

variable [DecidableEq φ]

/-- What cancels adds nothing. -/
theorem sum_cancelNegations {opposite : Value φ → Value φ → Prop} (hopp : Opposites opposite)
    (hes : ∀ e ∈ es, EvaluatesTo cx call scope m e (v e)) : ((cancelNegations es).map v).sum = (es.map v).sum := by
  fun_induction cancelNegations es with
  | case1 es rest h _ ih =>
    obtain ⟨e, t, ht, hperm⟩ := perm_of_cancelFirst? h
    rw [List.nil_append] at hperm
    have hmem : ∀ x ∈ e :: t :: rest, EvaluatesTo cx call scope m x (v x) := fun x hx => hes x (hperm.mem_iff.2 hx)
    obtain ⟨he, hmem⟩ := List.forall_mem_cons.1 hmem
    obtain ⟨ht', hrest⟩ := List.forall_mem_cons.1 hmem
    have hopposite : v e = -v t := he.eq_neg hopp ht ht'
    rw [ih hrest, (hperm.map v).sum_eq, List.map_cons, List.map_cons, List.sum_cons, List.sum_cons, hopposite,
      neg_add_cancel_left]
  | case2 es h => rfl

/-- **Cancelling.**  The result is the list without the entries at disjoint pairs of places, each with a canonical negation
and the term that it negates, and in the order of before; it is reached by taking out one such pair after the other, until
there is none.  No entry of it negates another.  Where products keep opposite values opposite, the operands add up to what
they did: the numbers to which they evaluate from one machine, and the chain of them where they can be evaluated one after
the other. -/
theorem cancelNegations_cancels (es : List (Expr φ)) :
    (∃ pairs, OpposedPairs es pairs ∧ cancelNegations es = without es (bothPlaces pairs) ∧
      Removes pairs.length es (cancelNegations es) ∧ cancelFirst? [] (cancelNegations es) = none) ∧
    (∀ (i j : ℕ) (hi : i < (cancelNegations es).length) (hj : j < (cancelNegations es).length), i ≠ j →
      (cancelNegations es)[i].negationTarget? ≠ some (cancelNegations es)[j]) ∧
    (∀ opposite : Value φ → Value φ → Prop, Opposites opposite →
      ∀ (cx : Context φ) (call : Value φ → List (Value φ) → Eval φ (Value φ)) (scope : ScopeId) (v : Expr φ → ℚ)
        (m : Machine φ),
        ((∀ e ∈ es, EvaluatesTo cx call scope m e (v e)) →
          ((cancelNegations es).map v).sum = (es.map v).sum) ∧
        ∀ P : Machine φ → Prop, P m → (∀ e ∈ es, EvaluatesThroughout cx call scope P e (v e)) →
          EvaluatesTo cx call scope m (.chain .add es) (es.map v).sum ∧
            EvaluatesTo cx call scope m (.chain .add (cancelNegations es)) (es.map v).sum) := by
  refine ⟨?_, fun i j hi hj _ => negationTarget?_ne_of_cancelNegations es hi hj, ?_⟩
  · obtain ⟨pairs, hpairs, hrest, hruns⟩ := exists_opposedPairs es
    exact ⟨pairs, hpairs, hrest, hruns, cancelFirst?_cancelNegations es⟩
  · intro opposite hopp cx call scope v m
    refine ⟨sum_cancelNegations hopp, ?_⟩
    intro P hm hes
    have hleft : ∀ e ∈ cancelNegations es, EvaluatesThroughout cx call scope P e (v e) :=
      fun e he => hes e ((sublist_cancelNegations es).subset he)
    have hsum := sum_cancelNegations hopp fun e he => (hes e he).evaluatesTo hm
    refine ⟨evaluatesTo_sum hes hm, ?_⟩
    rw [← hsum]
    exact evaluatesTo_sum hleft hm

end Sum

/-- `7 + -1 * 2 * 3 + 5 + 2 * 3 + -1.0 * 5`, where only the first term has no partner. -/
def Expr.cancellingTerms : List (Expr Token) :=
  [.num "7", .chain .mul [.num "-1", .num "2", .num "3"], .num "5", .chain .mul [.num "2", .num "3"],
    .chain .mul [.num "-1.0", .num "5"]]

theorem Expr.cancelNegations_cancellingTerms : cancelNegations cancellingTerms = [.num "7"] := by decide +kernel

/-- The terms under the host of tokens, from any machine. -/
theorem cancelNegations_cancels_terms :
    (∃ opposite : Value Token → Value Token → Prop, Opposites opposite) ∧
      (∃ pairs, OpposedPairs cancellingTerms pairs ∧ without cancellingTerms (bothPlaces pairs) = [.num "7"]) ∧
      ∃ v : Expr Token → ℚ, (∀ e ∈ cancellingTerms, EvaluatesThroughout {} (callValue {} 0) 0 (fun _ => True) e (v e)) ∧
        (cancellingTerms.map v).sum = 7 ∧ EvaluatesTo {} (callValue {} 0) 0 {} (.chain .add cancellingTerms) 7 := by
  obtain ⟨⟨pairs, hpairs, hrest, -⟩, -, hsum⟩ := cancelNegations_cancels cancellingTerms
  rw [cancelNegations_cancellingTerms] at hrest hsum
  let env : String → Option ℚ := fun _ => none
  let v : Expr Token → ℚ := fun e => (value env e).getD 0
  have h7 : Literal.value? "7" = some ⟨7, 1⟩ := by decide
  have h2 : Literal.value? "2" = some ⟨2, 1⟩ := by decide
  have h3 : Literal.value? "3" = some ⟨3, 1⟩ := by decide
  have h5 : Literal.value? "5" = some ⟨5, 1⟩ := by decide
  have hminus : Literal.value? "-1" = some ⟨-1, 1⟩ := by decide
  have hminus' : Literal.value? "-1.0" = some ⟨-1, 1⟩ := by decide
  have hterms : ∀ e ∈ cancellingTerms, EvaluatesThroughout {} (callValue {} 0) 0 (fun _ => True) e (v e) := by
    intro e he m _
    have hvalue : value env e = some (v e) := by
      simp only [cancellingTerms, List.mem_cons, List.not_mem_nil, or_false] at he
      rcases he with rfl | rfl | rfl | rfl | rfl <;>
        simp [v, value, chainValue, h7, h2, h3, h5, hminus, hminus', ExtRat.fraction?]
    exact ⟨m, trivial, eval_of_names (fun x q hx => by cases hx) hvalue⟩
  have hseven : ([.num "7"].map v).sum = 7 := by simp [v, value, h7, ExtRat.fraction?]
  have hopp := opposites_of_noNumberProducts Token.noNumberProducts
  obtain ⟨hnumbers, hchain⟩ := hsum _ hopp {} (callValue {} 0) 0 v {}
  have htotal := hnumbers fun e he => (hterms e he).evaluatesTo trivial
  rw [hseven] at htotal
  have heval := (hchain (fun _ => True) trivial hterms).1
  rw [← htotal] at heval
  exact ⟨⟨_, hopp⟩, ⟨pairs, hpairs, hrest.symm⟩, v, hterms, htotal.symm, heval⟩

end RatCalc
