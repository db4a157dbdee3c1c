import RatCalc.Proofs.Eval.Direct
import RatCalc.Proofs.Eval.Structure
import RatCalc.Proofs.Normal.Sums
import RatCalc.Token

/-!
# The order in which a sum is evaluated

A sum runs as it is written, from left to right, unless it is normalised: then its variables come first, by name, and its
assignments after them.  The bindings it leaves are the same.  Its value is the same where addition and the summands do not
care for the order, which is so for numbers and not for texts that are joined.

* `SameResults` — evaluations that give the same value and store from the same store;
* `eval_chainOf` — a chain is the sum of its operands from left to right;
* `Atoms` — values of a host that `+` joins as texts;
* `Tally` — a reading of values under which sums of values are sums, with one for numbers, for texts, and for both together;
* `Tally.Readings` — what the summands read as, one after the other, and the store they leave;
* `Interpreter.run_sum` — a sum with and without normalising.
-/

namespace RatCalc

open Extended RatCalc.Expr

variable {φ α β : Type}

/-! ## results that depend on the store only -/

/-- The same value or error, and the same store, from the same store. -/
def SameResults (x y : Eval φ α) : Prop := ∀ ⦃m m' : Machine φ⦄, m.store = m'.store → (x m).result? = (y m').result?

namespace SameResults

theorem pure (a : α) : SameResults (Pure.pure a : Eval φ α) (Pure.pure a) := fun m m' h => by
  show some (Except.ok a, m.store) = some (Except.ok a, m'.store)
  rw [h]

theorem fail (e : EvalError) : SameResults (Eval.fail e : Eval φ α) (Eval.fail e) := fun m m' h => by
  show some (Except.error e, m.store) = some (Except.error e, m'.store)
  rw [h]

theorem ofExcept (r : Except EvalError α) : SameResults (Eval.ofExcept r : Eval φ α) (Eval.ofExcept r) := by
  cases r with
  | ok a => exact pure a
  | error e => exact fail e

theorem define (scope : ScopeId) (name : String) (v : Value φ) :
    SameResults (Eval.define scope name v) (Eval.define scope name v) := fun m m' h => by
  show some (Except.ok (), m.store.define scope name v) = some (Except.ok (), m'.store.define scope name v)
  rw [h]

theorem resolve {cx cx' : Context φ} (h : cx.lookup = cx'.lookup) (scope : ScopeId) (name : String) :
    SameResults (resolve cx scope name) (resolve cx' scope name) := by
  intro m m' hm
  rw [resolve_eq, resolve_eq, Context.names, Context.names, h, hm]
  cases (m'.store.get? scope name).or ((cx'.lookup name).or (standard? name)) with
  | none => simp [Outcome.result?, hm]
  | some v => simp [Outcome.result?, hm]

theorem evalLiteral (text : String) : SameResults (evalLiteral text : Eval φ (Value φ)) (evalLiteral text) := by
  unfold RatCalc.evalLiteral
  split
  · exact pure _
  · exact fail _

theorem bind {x y : Eval φ α} {f g : α → Eval φ β} (hx : SameResults x y) (hf : ∀ a, SameResults (f a) (g a)) :
    SameResults (x >>= f) (y >>= g) := by
  intro m m' hm
  have h := hx hm
  show (Eval.bind x f m).result? = (Eval.bind y g m').result?
  unfold Eval.bind
  cases hxm : x m <;> cases hym : y m' <;> rw [hxm, hym] at h <;> simp [Outcome.result?] at h ⊢
  · obtain ⟨rfl, hstore⟩ := h
    exact hf _ hstore
  · exact h

end SameResults

section Sums

variable [Foreign φ] {cx cx' : Context φ} {call call' : Value φ → List (Value φ) → Eval φ (Value φ)} {scope : ScopeId}

theorem eval_add (a b : Expr φ) :
    eval cx call scope (.binary .add a b) = (do
      let left ← eval cx call scope a
      let right ← eval cx call scope b
      Eval.ofExcept (left.binary .add right)) := by
  rw [eval]
  rfl

/-- The result of a sum depends on the definitions and the store only. -/
theorem Expr.IsSum.sameResults (h : cx.lookup = cx'.lookup) {e : Expr φ} (he : e.IsSum) :
    SameResults (eval cx call scope e) (eval cx' call' scope e) := by
  induction he with
  | summand hs =>
    cases hs with
    | var name =>
      rw [eval, eval]
      exact .resolve h scope name
    | assign b name text =>
      rw [eval, eval, eval, eval]
      exact .bind (.evalLiteral text) fun v => .bind (.define scope name v) fun _ => .pure v
  | add _ _ iha ihb =>
    rw [eval_add, eval_add]
    exact iha.bind fun v => ihb.bind fun w => .ofExcept _

/-! ## chains from left to right -/

theorem eval_foldl_add (e : Expr φ) (es : List (Expr φ)) :
    eval cx call scope (es.foldl (.binary .add) e) =
      (do evalChainFrom cx call scope .add (← eval cx call scope e) es) := by
  induction es generalizing e with
  | nil => simp [evalChainFrom]
  | cons f es ih =>
    rw [List.foldl_cons, ih, eval_add]
    simp only [bind_assoc, evalChainFrom]
    rfl

theorem eval_sumOf (es : List (Expr φ)) : eval cx call scope (sumOf es) = evalChain cx call scope .add es := by
  cases es with
  | nil => rw [sumOf, eval, evalChain]
  | cons e es => rw [sumOf, eval_foldl_add, evalChain]

/-- A chain in normal form is the sum of its operands in order. -/
theorem eval_chainOf (es : List (Expr φ)) : eval cx call scope (chainOf .add es) = eval cx call scope (sumOf (sort es)) := by
  rcases es with _ | ⟨e, _ | ⟨f, es⟩⟩
  · rw [sort_of_sorted .nil, chainOf, sumOf]
  · rw [sort_of_sorted (List.pairwise_singleton _ _), chainOf, sumOf, List.foldl_nil]
  · rw [chainOf_of_two_le (by simp), eval, eval_sumOf]

end Sums

/-! ## readings of values -/

/-- Values of a host that are texts: the sum of two is the two joined, and no other sum is overridden. -/
structure Atoms (φ : Type) [Foreign φ] where
  IsAtom : φ → Prop
  join : ∀ {x y}, IsAtom x → IsAtom y → ∃ z, IsAtom z ∧ Foreign.render z = Foreign.render x ++ Foreign.render y ∧
    Foreign.binary x .add (.foreign y) .left = some (.ok (.foreign z))
  alone : ∀ {x} {v : Value φ} {side}, IsAtom x → (∀ y, IsAtom y → v ≠ .foreign y) → Foreign.binary x .add v side = none

namespace Atoms

variable [Foreign φ] (atoms : Atoms φ) {x : φ}

include atoms

theorem binary_atom {y : φ} (hx : atoms.IsAtom x) (hy : atoms.IsAtom y) :
    ∃ z, atoms.IsAtom z ∧ Foreign.render z = Foreign.render x ++ Foreign.render y ∧
      (Value.foreign x).binary .add (.foreign y) = .ok (.foreign z) := by
  obtain ⟨z, hz, hrender, hbinary⟩ := atoms.join hx hy
  refine ⟨z, hz, hrender, ?_⟩
  show (Foreign.binary x .add (.foreign y) .left).getD _ = _
  rw [hbinary, Option.getD_some]

/-- The sum of an atom and anything else but the unit is lifted, on either side. -/
theorem binary_other (v : Value φ) (hx : atoms.IsAtom x) (hunit : v ≠ .unit) (hv : ∀ y, v ≠ .foreign y) :
    (Value.foreign x).binary .add v = .ok (.lifted .add (.foreign x) v) ∧
      v.binary .add (.foreign x) = .ok (.lifted .add v (.foreign x)) := by
  have hnone : ∀ side, Foreign.binary x .add v side = none := fun side => atoms.alone hx fun y _ => hv y
  cases v with
  | unit => exact absurd rfl hunit
  | foreign y => exact absurd rfl (hv y)
  | _ => simp [Value.binary, Value.arithmetic, hnone]

end Atoms

/-- The atoms among the tokens. -/
def Token.atoms : Atoms Token where
  IsAtom t := t.kind = .atom
  join {x y} hx hy := by
    obtain ⟨_, _, text⟩ := x
    obtain ⟨_, _, text'⟩ := y
    cases hx
    cases hy
    exact ⟨{ kind := .atom, text := text ++ "" ++ text' }, rfl, by simp [Foreign.render, Token.render], rfl⟩
  alone {x v side} hx hv := by
    show Token.binary x .add v side = none
    unfold Token.binary
    split
    · exact absurd rfl (hv _ rfl)
    all_goals simp_all

/-- A reading of values in which sums of values are sums. -/
structure Tally (φ β : Type) [Foreign φ] where
  Reads : Value φ → β → Prop
  add : β → β → β
  zero : β
  add_assoc : ∀ a b c, add (add a b) c = add a (add b c)
  zero_add : ∀ a, add zero a = a
  add_zero : ∀ a, add a zero = a
  binary_add : ∀ {v w a b}, Reads v a → Reads w b → ∃ u, v.binary .add w = .ok u ∧ Reads u (add a b)

namespace Tally

variable [Foreign φ]

section Total

variable (t : Tally φ β)

/-- The sum of several readings. -/
def total (bs : List β) : β := bs.foldr t.add t.zero

theorem total_singleton (b : β) : t.total [b] = b := t.add_zero b

theorem total_append (as bs : List β) : t.total (as ++ bs) = t.add (t.total as) (t.total bs) := by
  induction as with
  | nil => exact (t.zero_add _).symm
  | cons a as ih =>
    show t.add a (t.total (as ++ bs)) = t.add (t.add a (t.total as)) (t.total bs)
    rw [ih, t.add_assoc]

end Total

/-- Numbers as extended rationals. -/
def numbers : Tally φ (Option Extended) where
  Reads v b := ∃ x, b = some x ∧ v = .number x.form
  add := ChainOp.add.combine
  zero := some (fraction 0)
  add_assoc := Std.Associative.assoc
  zero_add := ChainOp.add.neutral_combine
  add_zero := ChainOp.add.combine_neutral
  binary_add := by
    rintro v w a b ⟨x, rfl, rfl⟩ ⟨y, rfl, rfl⟩
    exact ⟨_, binary_numbers rfl _ _, BinaryOp.add.onExtended x y, rfl, by rw [BinaryOp.form_onExtended]⟩

variable (atoms : Atoms φ)

/-- Atoms as their texts. -/
def texts : Tally φ String where
  Reads v text := ∃ x, atoms.IsAtom x ∧ v = .foreign x ∧ Foreign.render x = text
  add := (· ++ ·)
  zero := ""
  add_assoc _ _ _ := String.append_assoc
  zero_add _ := String.empty_append
  add_zero _ := String.append_empty
  binary_add := by
    rintro v w a b ⟨x, hx, rfl, rfl⟩ ⟨y, hy, rfl, rfl⟩
    obtain ⟨z, hz, hrender, hbinary⟩ := atoms.binary_atom hx hy
    exact ⟨.foreign z, hbinary, z, hz, rfl, hrender⟩

theorem total_texts (ts : List String) : (texts atoms).total ts = String.join ts := by
  induction ts with
  | nil => rfl
  | cons text ts ih =>
    rw [String.join_cons, ← ih]
    rfl

/-- Numbers, atoms, and what sums of both are lifted to; all read alike. -/
inductive Addable : Value φ → Prop
  | number (r : ExtRat) : Addable (.number r)
  | atom {x : φ} : atoms.IsAtom x → Addable (.foreign x)
  | lifted (v w : Value φ) : Addable (.lifted .add v w)

theorem Addable.binary {v w : Value φ} (hv : Addable atoms v) (hw : Addable atoms w) :
    ∃ u, v.binary .add w = .ok u ∧ Addable atoms u := by
  cases hv with
  | number r =>
    cases hw with
    | number r' => exact ⟨_, rfl, .number _⟩
    | atom hy => exact ⟨_, (atoms.binary_other (.number r) hy nofun nofun).2, .lifted _ _⟩
    | lifted => exact ⟨_, rfl, .lifted _ _⟩
  | atom hx =>
    cases hw with
    | number r => exact ⟨_, (atoms.binary_other (.number r) hx nofun nofun).1, .lifted _ _⟩
    | atom hy =>
      obtain ⟨z, hz, -, hbinary⟩ := atoms.binary_atom hx hy
      exact ⟨.foreign z, hbinary, .atom hz⟩
    | lifted f g => exact ⟨_, (atoms.binary_other (.lifted .add f g) hx nofun nofun).1, .lifted _ _⟩
  | lifted f g =>
    cases hw with
    | number r => exact ⟨_, rfl, .lifted _ _⟩
    | atom hy => exact ⟨_, (atoms.binary_other (.lifted .add f g) hy nofun nofun).2, .lifted _ _⟩
    | lifted => exact ⟨_, rfl, .lifted _ _⟩

/-- Values that can be added, without a further reading. -/
def addable : Tally φ Unit where
  Reads v _ := Addable atoms v
  add _ _ := ()
  zero := ()
  add_assoc _ _ _ := rfl
  zero_add _ := rfl
  add_zero _ := rfl
  binary_add hv hw := hv.binary atoms hw

end Tally

/-! ## the store after a sum -/

theorem Context.names_define (cx : Context φ) (scope : ScopeId) (s : Store φ) (x : String) (v : Value φ) (y : String) :
    cx.names scope (s.define scope x v) y = cx.names scope s y ∨
      y = x ∧ cx.names scope (s.define scope x v) y = some v := by
  rcases Nat.lt_or_ge scope s.next with hlt | hge
  · rw [Context.names, s.get?_define _ _ hlt]
    by_cases hy : y = x
    · exact .inr ⟨hy, by rw [if_pos hy, Option.some_or]⟩
    · exact .inl (by rw [if_neg hy, Context.names])
  · exact .inl (by rw [s.define_of_le _ _ hge])

namespace Expr

/-- The store after a summand. -/
def settle (scope : ScopeId) (s : Store φ) : Expr φ → Store φ
  | .assign _ x (.num text) =>
    match Literal.read text with
    | .ok r => s.define scope x (.number r)
    | .error _ => s
  | _ => s

/-- The store after several summands. -/
def settled (scope : ScopeId) (es : List (Expr φ)) (s : Store φ) : Store φ := es.foldl (settle scope) s

theorem settled_append (scope : ScopeId) (es fs : List (Expr φ)) (s : Store φ) :
    settled scope (es ++ fs) s = settled scope fs (settled scope es s) := List.foldl_append

theorem settled_vars {es : List (Expr φ)} (hes : ∀ e ∈ es, ∃ x, e = .var x) (scope : ScopeId) (s : Store φ) :
    settled scope es s = s := by
  induction es with
  | nil => rfl
  | cons e es ih =>
    obtain ⟨x, rfl⟩ := hes e (by simp)
    exact ih fun e' he' => hes e' (by simp [he'])

/-- Only assignments change the store, and those keep their order. -/
theorem settled_sort {es : List (Expr φ)} (hes : ∀ e ∈ es, e.Summand) (scope : ScopeId) (s : Store φ) :
    settled scope (sort es) s = settled scope es s := by
  have hfilter : ∀ {es : List (Expr φ)} {s : Store φ}, (∀ e ∈ es, e.Summand) →
      settled scope es s = settled scope (es.filter (·.rank = 2)) s := by
    intro es s hes
    induction es generalizing s with
    | nil => rfl
    | cons e es ih =>
      have ih := fun s => ih (s := s) fun e' he' => hes e' (by simp [he'])
      cases hes e (by simp) with
      | var name => exact ih s
      | assign b name text => exact ih _
  have hsort : ∀ e ∈ sort es, e.Summand := fun e he => hes e ((perm_sort es).mem_iff.1 he)
  rw [hfilter hsort, filter_sort, ← hfilter hes]

end Expr

/-! ## what summands read as -/

namespace Tally

variable [Foreign φ] (t : Tally φ β) (cx : Context φ) (scope : ScopeId)

/-- What a summand reads as in a store. -/
def ReadsAt (s : Store φ) : Expr φ → β → Prop
  | .var x, b => ∃ v, cx.names scope s x = some v ∧ t.Reads v b
  | .assign _ _ (.num text), b => ∃ r, Literal.read text = .ok r ∧ t.Reads (.number r) b
  | _, _ => False

/-- What summands read as one after the other, from a store. -/
inductive Readings : Store φ → List (Expr φ) → List β → Prop
  | nil (s : Store φ) : Readings s [] []
  | cons {s : Store φ} {e : Expr φ} {b : β} {es : List (Expr φ)} {bs : List β} :
      t.ReadsAt cx scope s e b → Readings (settle scope s e) es bs → Readings s (e :: es) (b :: bs)

variable {t cx scope}

theorem Readings.of_append {s : Store φ} {es fs : List (Expr φ)} {bs : List β} (h : t.Readings cx scope s (es ++ fs) bs) :
    ∃ as cs, bs = as ++ cs ∧ t.Readings cx scope s es as ∧ t.Readings cx scope (settled scope es s) fs cs := by
  induction es generalizing s bs with
  | nil => exact ⟨[], bs, rfl, .nil s, h⟩
  | cons e es ih =>
    cases h with
    | cons hb hrest =>
      obtain ⟨as, cs, rfl, has, hcs⟩ := ih hrest
      exact ⟨_ :: as, cs, rfl, .cons hb has, hcs⟩

section Evaluation

variable (call : Value φ → List (Value φ) → Eval φ (Value φ)) {m : Machine φ}

theorem eval_summand {e : Expr φ} {b : β} (he : e.Summand) (h : t.ReadsAt cx scope m.store e b) :
    ∃ u, t.Reads u b ∧ eval cx call scope e m = .ok u { m with store := settle scope m.store e } := by
  cases he with
  | var name =>
    obtain ⟨v, hv, hread⟩ := h
    refine ⟨v, hread, ?_⟩
    rw [eval, resolve_eq, hv]
    rfl
  | assign bd name text =>
    obtain ⟨r, hr, hread⟩ := h
    refine ⟨.number r, hread, ?_⟩
    rw [eval, eval, settle, hr]
    exact Eval.bind_of_ok (evalLiteral_of_read hr m)

/-- **Sums are totals.**  A sum reads as the total of its summands, and leaves the store of its assignments. -/
theorem eval_sum {e : Expr φ} {bs : List β} (he : e.IsSum) (h : t.Readings cx scope m.store e.summands bs) :
    ∃ u, t.Reads u (t.total bs) ∧ eval cx call scope e m = .ok u { m with store := settled scope e.summands m.store } := by
  induction he generalizing m bs with
  | summand hs =>
    rw [hs.summands] at h ⊢
    cases h with
    | cons hb hnil =>
      cases hnil
      rw [t.total_singleton]
      exact eval_summand call hs hb
  | @add a b _ _ iha ihb =>
    rw [summands] at h
    obtain ⟨as, cs, rfl, has, hcs⟩ := h.of_append
    obtain ⟨v, hv, heval⟩ := iha has
    obtain ⟨w, hw, heval'⟩ := ihb (m := { m with store := settled scope a.summands m.store }) hcs
    obtain ⟨u, hu, hread⟩ := t.binary_add hv hw
    refine ⟨u, by rwa [t.total_append], ?_⟩
    rw [eval_add]
    refine (Eval.bind_of_ok heval).trans ((Eval.bind_of_ok heval').trans ?_)
    rw [hu, summands, settled_append]
    rfl

end Evaluation

variable (t) in
/-- A variable that was assigned before reads as the number assigned. -/
def Settles (read : Expr φ → β) (es : List (Expr φ)) : Prop :=
  es.Pairwise fun a b => ∀ bd x text r, a = .assign bd x (.num text) → b = .var x → Literal.read text = .ok r →
    t.Reads (.number r) (read b)

/-- Then summands read as they do at the start. -/
theorem readings_of_start {s : Store φ} {es : List (Expr φ)} {read : Expr φ → β} (hes : ∀ e ∈ es, e.Summand)
    (hstart : ∀ e ∈ es, t.ReadsAt cx scope s e (read e)) (hlater : t.Settles read es) :
    t.Readings cx scope s es (es.map read) := by
  induction es generalizing s with
  | nil => exact .nil s
  | cons e es ih =>
    obtain ⟨hhead, htail⟩ := List.pairwise_cons.1 hlater
    refine .cons (hstart e (by simp)) (ih (fun e' he' => hes e' (by simp [he'])) ?_ htail)
    intro e' he'
    have he₀ := hstart e' (by simp [he'])
    cases hes e (by simp) with
    | var name => exact he₀
    | assign bd x text =>
      obtain ⟨r, hr, -⟩ := hstart _ List.mem_cons_self
      rw [settle, hr]
      cases hes e' (by simp [he']) with
      | assign => exact he₀
      | var y =>
        obtain ⟨v, hv, hread⟩ := he₀
        rcases cx.names_define scope s x (.number r) y with hsame | ⟨rfl, hnew⟩
        · exact ⟨v, hsame.trans hv, hread⟩
        · exact ⟨.number r, hnew, hhead _ he' bd y text r rfl rfl hr⟩

/-- In canonical order no variable comes after an assignment. -/
theorem readings_sort {s : Store φ} {es : List (Expr φ)} {read : Expr φ → β} (hes : ∀ e ∈ es, e.Summand)
    (hstart : ∀ e ∈ es, t.ReadsAt cx scope s e (read e)) :
    t.Readings cx scope s (sort es) ((sort es).map read) := by
  have hmem : ∀ {e}, e ∈ sort es → e ∈ es := (perm_sort es).mem_iff.1
  refine readings_of_start (fun e he => hes e (hmem he)) (fun e he => hstart e (hmem he)) ?_
  refine (sorted_sort es).imp ?_
  rintro a b hle bd x text r rfl rfl -
  exact absurd (cmp_of_rank_two (.inl rfl)) hle

end Tally

/-! ## running sums -/

/-- A number, as all arithmetic gives it. -/
def Value.IsNumber (v : Value φ) : Prop := ∃ r : ExtRat, r.Canonical ∧ v = .number r

/-- An atom, as a value. -/
def Atoms.Holds [Foreign φ] (atoms : Atoms φ) (v : Value φ) : Prop := ∃ x, atoms.IsAtom x ∧ v = .foreign x

namespace Context

variable (cx : Context φ) (scope : ScopeId) (s : Store φ)

/-- The variables of a sum stand for values with a property. -/
def Binds (P : Value φ → Prop) (e : Expr φ) : Prop := ∀ x, .var x ∈ e.summands → ∃ v, cx.names scope s x = some v ∧ P v

variable {cx scope s} in
theorem Binds.mono {P Q : Value φ → Prop} {e : Expr φ} (h : cx.Binds scope s P e) (hPQ : ∀ v, P v → Q v) :
    cx.Binds scope s Q e := by
  intro x hx
  obtain ⟨v, hv, hp⟩ := h x hx
  exact ⟨v, hv, hPQ v hp⟩

/-- The text of what a variable stands for. -/
def text [Foreign φ] : Expr φ → String
  | .var x => ((cx.names scope s x).map Value.render).getD ""
  | _ => ""

end Context

/-- No variable stands to the right of an assignment to it. -/
def Expr.ReadsBeforeAssigning (e : Expr φ) : Prop :=
  e.summands.Pairwise fun a b => ∀ bd x v, a = .assign bd x v → b ≠ .var x

/-- A run as it is seen: the text of its value, or its error, and the store. -/
def Outcome.shown [Foreign φ] (o : Outcome φ (Value φ)) : Option (Except EvalError String × Store φ) :=
  o.result?.map fun (r, s) => (r.map Value.render, s)

theorem Expr.ReadsBeforeAssigning.settles [Foreign φ] {e : Expr φ} (h : e.ReadsBeforeAssigning) {t : Tally φ β}
    {read : Expr φ → β} : t.Settles read e.summands := by
  refine List.Pairwise.imp ?_ h
  intro a b hne bd x text r ha hb _
  exact absurd hb (hne bd x _ ha)

namespace Interpreter

/-- The interpreter with normalising turned on or off. -/
def normalizing (i : Interpreter φ) (b : Bool) : Interpreter φ :=
  { i with context := { i.context with config := { i.context.config with normalizes := b } } }

theorem lookup_normalizing (i : Interpreter φ) (b : Bool) : (i.normalizing b).context.lookup = i.context.lookup := rfl

variable [Foreign φ] [DecidableEq φ] {i : Interpreter φ} {fuel : ℕ} {m : Machine φ} {e : Expr φ}

/-- A fault is found before anything is normalised or evaluated. -/
theorem result?_run_of_fault {text : String} {fault : Literal.Fault} (h : e.firstFault? = some (text, fault)) :
    (i.run fuel e m).result? = some (.error (.malformedLiteral text fault), m.store) := by
  rw [run, h]
  rfl

theorem result?_run_false (he : e.IsSum) (hfault : e.firstFault? = none) :
    ((i.normalizing false).run fuel e m).result? = (eval i.context (callValue i.context fuel) i.top e m).result? := by
  have hrun : (i.normalizing false).run fuel e m = (i.normalizing false).evaluate fuel e m := by
    rw [run, hfault]
    rfl
  rw [hrun, evaluate_eq]
  exact he.sameResults (i.lookup_normalizing false) rfl

theorem result?_run_true (he : e.IsSum) (hfault : e.firstFault? = none) :
    ((i.normalizing true).run fuel e m).result? =
      (eval i.context (callValue i.context fuel) i.top e.arranged m).result? := by
  have hnormal : (i.normalizing true).pipeline.normalize e = chainOf .add e.summands := Pipeline.normalize_sum _ he
  rw [run_eq (i.normalizing true) fuel rfl hfault, hnormal, evaluate_eq, eval_chainOf]
  exact he.arranged.1.sameResults (i.lookup_normalizing true) rfl

/-- **Normalising arranges.**  A sum that is normalised runs as its arrangement does without. -/
theorem result?_run_arranged (he : e.IsSum) :
    ((i.normalizing true).run fuel e m).result? = ((i.normalizing false).run fuel e.arranged m).result? := by
  cases hfault : e.firstFault? with
  | none => rw [result?_run_true he hfault, result?_run_false he.arranged.1 (he.firstFault?_arranged.trans hfault)]
  | some f =>
    obtain ⟨text, fault⟩ := f
    rw [result?_run_of_fault hfault, result?_run_of_fault (he.firstFault?_arranged.trans hfault)]

/-- A sum without faults whose summands have readings, with and without normalising: the totals are over the summands in
canonical order and in theirs, and the store is the same. -/
theorem results_of_readings {t : Tally φ β} {read : Expr φ → β} (he : e.IsSum) (hfault : e.firstFault? = none)
    (hstart : ∀ l ∈ e.summands, t.ReadsAt i.context i.top m.store l (read l)) (hlater : t.Settles read e.summands) :
    ∃ v w, t.Reads v (t.total ((sort e.summands).map read)) ∧ t.Reads w (t.total (e.summands.map read)) ∧
      ((i.normalizing true).run fuel e m).result? = some (.ok v, settled i.top e.summands m.store) ∧
      ((i.normalizing false).run fuel e m).result? = some (.ok w, settled i.top e.summands m.store) := by
  obtain ⟨hsum, hsummands⟩ := he.arranged
  have hsorted := Tally.readings_sort he.summand_of_mem hstart
  rw [← hsummands] at hsorted
  obtain ⟨v, hv, hrunv⟩ := Tally.eval_sum (callValue i.context fuel) hsum hsorted
  obtain ⟨w, hw, hrunw⟩ := Tally.eval_sum (callValue i.context fuel) he
    (Tally.readings_of_start he.summand_of_mem hstart hlater)
  rw [hsummands] at hv hrunv
  refine ⟨v, w, hv, hw, ?_, ?_⟩
  · rw [result?_run_true he hfault, hrunv, settled_sort he.summand_of_mem]
    rfl
  · rw [result?_run_false he hfault, hrunw]
    rfl

/-- Whatever can be added: no error, and the same store. -/
theorem same_store_of_addable (atoms : Atoms φ) (he : e.IsSum) (hfault : e.firstFault? = none)
    (hbound : i.context.Binds i.top m.store (fun v => v.IsNumber ∨ atoms.Holds v) e) :
    ∃ v w s, ((i.normalizing true).run fuel e m).result? = some (.ok v, s) ∧
      ((i.normalizing false).run fuel e m).result? = some (.ok w, s) := by
  have hstart : ∀ l ∈ e.summands, (Tally.addable atoms).ReadsAt i.context i.top m.store l () := by
    intro l hl
    cases he.summand_of_mem l hl with
    | var x =>
      obtain ⟨v, hv, ⟨r, -, rfl⟩ | ⟨a, ha, rfl⟩⟩ := hbound x hl
      · exact ⟨_, hv, .number r⟩
      · exact ⟨_, hv, .atom ha⟩
    | assign bd x text =>
      obtain ⟨r, hr⟩ := he.wellFormed_of_mem hfault hl
      exact ⟨r, hr, .number r⟩
  have hlater : (Tally.addable atoms).Settles (fun _ => ()) e.summands :=
    List.pairwise_of_forall fun _ _ _ _ _ r _ _ _ => .number r
  obtain ⟨v, w, -, -, hon, hoff⟩ := results_of_readings he hfault hstart hlater
  exact ⟨v, w, _, hon, hoff⟩

/-- Numbers: the same sum, since its summands may be added in any order. -/
theorem same_result_of_numbers (he : e.IsSum) (hfault : e.firstFault? = none)
    (hbound : i.context.Binds i.top m.store Value.IsNumber e) (hreads : e.ReadsBeforeAssigning) :
    ((i.normalizing true).run fuel e m).result? = ((i.normalizing false).run fuel e m).result? := by
  have hstart : ∀ l ∈ e.summands, Tally.numbers.ReadsAt i.context i.top m.store l
      (number (i.context.extended i.top m.store) l.assigned) := by
    intro l hl
    cases he.summand_of_mem l hl with
    | var x =>
      obtain ⟨_, hv, r, hr, rfl⟩ := hbound x hl
      refine ⟨_, hv, r.denote, ?_, by rw [ExtRat.form_denote hr]⟩
      show i.context.extended i.top m.store x = _
      rw [Context.extended, hv]
    | assign bd x text =>
      obtain ⟨r, hr⟩ := he.wellFormed_of_mem hfault hl
      have hvalue := Literal.value?_eq_some_iff.2 hr
      refine ⟨r, hr, r.denote, ?_, by rw [ExtRat.form_denote (Literal.canonical_value? hvalue)]⟩
      rw [assigned, number, hvalue, Option.map_some]
  obtain ⟨v, w, ⟨x, hx, rfl⟩, ⟨y, hy, rfl⟩, hon, hoff⟩ := results_of_readings he hfault hstart hreads.settles
  have hperm := ChainOp.add.gather_perm
    ((perm_sort e.summands).map fun l => number (i.context.extended i.top m.store) l.assigned)
  cases hx.symm.trans (hperm.trans hy)
  rw [hon, hoff]

/-- Atoms: the texts joined in canonical order, and in the order they are written. -/
theorem shown_of_atoms (atoms : Atoms φ) (he : e.IsSum) (hvars : ∀ l ∈ e.summands, ∃ x, l = .var x)
    (hbound : i.context.Binds i.top m.store atoms.Holds e) :
    ((i.normalizing true).run fuel e m).shown =
        some (.ok (String.join ((sort e.summands).map (i.context.text i.top m.store))), m.store) ∧
      ((i.normalizing false).run fuel e m).shown =
        some (.ok (String.join (e.summands.map (i.context.text i.top m.store))), m.store) := by
  have hfault : e.firstFault? = none := by
    refine firstFault?_eq_none_iff.2 ?_
    intro text htext
    rw [he.literals_eq] at htext
    obtain ⟨l, hl, htext⟩ := List.mem_flatMap.1 htext
    obtain ⟨x, rfl⟩ := hvars l hl
    simp [literals] at htext
  have hstart : ∀ l ∈ e.summands, (Tally.texts atoms).ReadsAt i.context i.top m.store l (i.context.text i.top m.store l) := by
    intro l hl
    obtain ⟨x, rfl⟩ := hvars l hl
    obtain ⟨_, hv, a, ha, rfl⟩ := hbound x hl
    refine ⟨_, hv, a, ha, rfl, ?_⟩
    rw [Context.text, hv]
    rfl
  have hreads : e.ReadsBeforeAssigning := by
    refine List.pairwise_of_forall_mem_list ?_
    rintro a ha b - bd x v rfl
    obtain ⟨y, hy⟩ := hvars _ ha
    cases hy
  obtain ⟨v, w, ⟨a, -, rfl, hv⟩, ⟨b, -, rfl, hw⟩, hon, hoff⟩ := results_of_readings he hfault hstart hreads.settles
  rw [Tally.total_texts] at hv hw
  rw [Outcome.shown, Outcome.shown, hon, hoff, settled_vars hvars, ← hv, ← hw]
  exact ⟨rfl, rfl⟩

/-- **Sums with and without normalising.**  Let the variables of a sum stand for numbers, or for atoms, which `+` joins as
texts.  Normalised, the sum runs as if it were written in canonical order: the variables by name, then the assignments.
Compared with the sum as it is written,

* either both runs fail with the same error or neither does, and they leave the same bindings;
* if all variables are numbers, none of them to the right of an assignment to it, the value is the same;
* if all summands are variables for atoms, the texts are joined by the order of names, so the value is the same if the
  names are in order. -/
theorem run_sum (atoms : Atoms φ) (i : Interpreter φ) (fuel : ℕ) (m : Machine φ) {e : Expr φ} (he : e.IsSum)
    (hbound : i.context.Binds i.top m.store (fun v => v.IsNumber ∨ atoms.Holds v) e) :
    let on := (i.normalizing true).run fuel e m
    let off := (i.normalizing false).run fuel e m
    on.result? = ((i.normalizing false).run fuel e.arranged m).result? ∧
      (∃ r r' s, on.result? = some (r, s) ∧ off.result? = some (r', s) ∧ ∀ error, r = .error error ↔ r' = .error error) ∧
      (i.context.Binds i.top m.store Value.IsNumber e → e.ReadsBeforeAssigning → on.result? = off.result?) ∧
      ((∀ l ∈ e.summands, ∃ x, l = .var x) → i.context.Binds i.top m.store atoms.Holds e →
        on.shown = some (.ok (String.join ((sort e.summands).map (i.context.text i.top m.store))), m.store) ∧
        off.shown = some (.ok (String.join (e.summands.map (i.context.text i.top m.store))), m.store) ∧
        (Sorted e.summands → on.shown = off.shown)) := by
  intro on off
  refine ⟨result?_run_arranged he, ?_, ?_, ?_⟩
  · cases hfault : e.firstFault? with
    | none =>
      obtain ⟨v, w, s, hon, hoff⟩ := same_store_of_addable atoms he hfault hbound
      exact ⟨_, _, s, hon, hoff, fun error => iff_of_false nofun nofun⟩
    | some f => exact ⟨_, _, _, result?_run_of_fault hfault, result?_run_of_fault hfault, fun error => Iff.rfl⟩
  · intro hnumbers hreads
    cases hfault : e.firstFault? with
    | none => exact same_result_of_numbers he hfault hnumbers hreads
    | some f => exact (result?_run_of_fault hfault).trans (result?_run_of_fault hfault).symm
  · intro hvars hatoms
    obtain ⟨hon, hoff⟩ := shown_of_atoms atoms he hvars hatoms
    refine ⟨hon, hoff, ?_⟩
    intro hsorted
    rw [hon, hoff, sort_of_sorted hsorted]

end Interpreter

/-! ## examples -/

/-- A token that is an atom. -/
def Token.atom (text : String) : Value Token := .foreign { kind := .atom, text := text }

theorem Token.holds_atom (text : String) : Token.atoms.Holds (Token.atom text) := ⟨{ kind := .atom, text := text }, rfl, rfl⟩

/-- `b` stands for the text `x`, and `a` for `y`. -/
def Machine.bindingAtoms : Machine Token := .ofBindings [("b", Token.atom "x"), ("a", Token.atom "y")]

/-- Normalised, `b + a` joins the texts the other way round. -/
theorem Interpreter.run_sum_swapped :
    let i : Interpreter Token := { top := 0 }
    let m := Machine.bindingAtoms
    let e : Expr Token := .binary .add (.var "b") (.var "a")
    e.IsSum ∧ i.context.Binds i.top m.store (fun v => v.IsNumber ∨ Token.atoms.Holds v) e ∧
      ((i.normalizing false).run 0 e m).shown = some (.ok "xy", m.store) ∧
      ((i.normalizing true).run 0 e m).shown = some (.ok "yx", m.store) := by
  intro i m e
  have he : e.IsSum := .add (.summand (.var "b")) (.summand (.var "a"))
  have hb : i.context.names i.top m.store "b" = some (Token.atom "x") := Context.names_ofBindings rfl
  have ha : i.context.names i.top m.store "a" = some (Token.atom "y") := Context.names_ofBindings rfl
  have hbound : i.context.Binds i.top m.store Token.atoms.Holds e := by
    intro x hx
    have hx : x = "b" ∨ x = "a" := by simpa [e, summands] using hx
    rcases hx with rfl | rfl
    · exact ⟨_, hb, Token.holds_atom "x"⟩
    · exact ⟨_, ha, Token.holds_atom "y"⟩
  have hvars : ∀ l ∈ e.summands, ∃ x, l = .var x := by simp [e, summands]
  have htext : i.context.text i.top m.store (.var "b") = "x" ∧ i.context.text i.top m.store (.var "a") = "y" := by
    rw [Context.text, Context.text, hb, ha]
    exact ⟨rfl, rfl⟩
  have hsort : sort e.summands = [.var "a", .var "b"] := by
    have hcmp : cmp (.var "b" : Expr Token) (.var "a") = .gt := by decide
    simp [e, summands, sort, List.mergeSort, hcmp]
  refine ⟨he, ?_, ?_, ?_⟩
  · exact hbound.mono fun _ => .inr
  · rw [(shown_of_atoms Token.atoms he hvars hbound).2]
    simp only [e, summands, List.cons_append, List.nil_append, List.map_cons, List.map_nil, htext]
    rfl
  · rw [(shown_of_atoms Token.atoms he hvars hbound).1, hsort]
    simp only [List.map_cons, List.map_nil, htext]
    rfl

/-- `c` stands for one half and `a` for three, and two names for texts. -/
def Machine.bindingBoth : Machine Token :=
  .ofBindings [("c", .number ⟨1, 2⟩), ("a", .number ⟨3, 1⟩), ("hello", Token.atom "he"), ("world", Token.atom "wo")]

/-- `(c + (x = 2)) + a` and `hello + world`, with and without normalising. -/
theorem Interpreter.run_sum_unsorted :
    let i : Interpreter Token := { top := 0 }
    let m := Machine.bindingBoth
    let e : Expr Token := .binary .add (.binary .add (.var "c") (.assign .fresh "x" (.num "2"))) (.var "a")
    let f : Expr Token := .binary .add (.var "hello") (.var "world")
    (e.IsSum ∧ i.context.Binds i.top m.store (fun v => v.IsNumber ∨ Token.atoms.Holds v) e ∧
      i.context.Binds i.top m.store Value.IsNumber e ∧ e.ReadsBeforeAssigning ∧
      ((i.normalizing true).run 0 e m).result? = ((i.normalizing false).run 0 e m).result?) ∧
    (f.IsSum ∧ i.context.Binds i.top m.store (fun v => v.IsNumber ∨ Token.atoms.Holds v) f ∧
      i.context.Binds i.top m.store Token.atoms.Holds f ∧ Sorted f.summands ∧
      ((i.normalizing true).run 0 f m).shown = ((i.normalizing false).run 0 f m).shown) := by
  intro i m e f
  have he : e.IsSum := .add (.add (.summand (.var "c")) (.summand (.assign .fresh "x" "2"))) (.summand (.var "a"))
  have hf : f.IsSum := .add (.summand (.var "hello")) (.summand (.var "world"))
  have hnumbers : i.context.Binds i.top m.store Value.IsNumber e := by
    intro x hx
    have hx : x = "c" ∨ x = "a" := by simpa [e, summands] using hx
    rcases hx with rfl | rfl
    · exact ⟨_, Context.names_ofBindings rfl, ⟨1, 2⟩, by decide, rfl⟩
    · exact ⟨_, Context.names_ofBindings rfl, ⟨3, 1⟩, by decide, rfl⟩
  have hatoms : i.context.Binds i.top m.store Token.atoms.Holds f := by
    intro x hx
    have hx : x = "hello" ∨ x = "world" := by simpa [f, summands] using hx
    rcases hx with rfl | rfl
    · exact ⟨_, Context.names_ofBindings rfl, Token.holds_atom "he"⟩
    · exact ⟨_, Context.names_ofBindings rfl, Token.holds_atom "wo"⟩
  have hreads : e.ReadsBeforeAssigning := by
    simp [Expr.ReadsBeforeAssigning, e, summands]
  have hsorted : Sorted f.summands := by
    have hcmp : cmp (.var "hello" : Expr Token) (.var "world") ≠ .gt := by decide
    simpa [Sorted, f, summands] using hcmp
  have hvars : ∀ l ∈ f.summands, ∃ x, l = .var x := by simp [f, summands]
  obtain ⟨-, -, hsame, -⟩ := run_sum Token.atoms i 0 m he (hnumbers.mono fun _ => .inl)
  obtain ⟨-, -, -, hjoined⟩ := run_sum Token.atoms i 0 m hf (hatoms.mono fun _ => .inr)
  exact ⟨⟨he, hnumbers.mono fun _ => .inl, hnumbers, hreads, hsame hnumbers hreads⟩,
    hf, hatoms.mono fun _ => .inr, hatoms, hsorted, (hjoined hvars hatoms).2.2 hsorted⟩

end RatCalc
