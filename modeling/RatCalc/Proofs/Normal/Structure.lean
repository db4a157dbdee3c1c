import RatCalc.Proofs.Normal.Meaning
import RatCalc.Proofs.Normal.Termination
import RatCalc.Proofs.Number.Canonical

/-!
# Structural passes

Turning signs and differences into sums and products, leveling and ordering only need the laws of sums and products, and
those hold of infinities and of the undefined number too.  So these three passes keep the number of every tree, with no
condition on its parts.

* `BinaryOp.onExtended`, `UnaryOp.onExtended` — the operators on extended rationals;
* `ChainOp.combine` — one more operand of a chain, associative and commutative with an identity;
* `number env e` — the number of a tree of arithmetic, in an environment of extended rationals;
* `number_bottomUp` — a pass keeps numbers if its rule does;
* `number_positiveRule`, `number_levelRule`, `number_orderRule` — the three rules; `Pass.number_apply` — the passes.
-/

namespace RatCalc

open Extended

/-! ## operators on extended rationals -/

namespace Extended

theorem neg_one_mul (x : Extended) : (fraction (-1)).mul x = x.neg := by
  cases x <;> simp [Extended.mul, Extended.neg, side, infinityOf_of_pos, infinityOf_of_neg]

theorem mul_hundredth (x : Extended) : x.mul (fraction (1 / 100)) = x.percent := by
  cases x with
  | fraction q => simp [Extended.mul, Extended.percent, div_eq_mul_inv]
  | infinity => simp [Extended.mul, Extended.percent, side, infinityOf_of_pos]
  | negInfinity => norm_num [Extended.mul, Extended.percent, side, infinityOf_of_neg]
  | undefined => rfl

end Extended

/-- The operator between extended rationals, through their pairs. -/
def BinaryOp.onExtended (op : BinaryOp) (x y : Extended) : Extended := (op.onNumbers x.form y.form).denote

def UnaryOp.onExtended (op : UnaryOp) (x : Extended) : Extended := (op.onNumber x.form).denote

theorem BinaryOp.canonical_onNumbers (op : BinaryOp) (a b : ExtRat) : (op.onNumbers a b).Canonical := by
  cases op with
  | add | sub => exact ExtRat.canonical_add _ _
  | mul | div => exact ExtRat.canonical_mul _ _
  | mod => exact ExtRat.canonical_mod _ _
  | pow => exact ExtRat.canonical_pow _ _
  | _ => exact ExtRat.canonical_undefined

theorem UnaryOp.canonical_onNumber (op : UnaryOp) (x : Extended) : (op.onNumber x.form).Canonical := by
  cases op with
  | plus => exact canonical_form x
  | minus => exact (canonical_form x).neg
  | percent => exact ExtRat.canonical_mul _ _

theorem BinaryOp.form_onExtended (op : BinaryOp) (x y : Extended) :
    (op.onExtended x y).form = op.onNumbers x.form y.form := ExtRat.form_denote (op.canonical_onNumbers _ _)

theorem UnaryOp.form_onExtended (op : UnaryOp) (x : Extended) : (op.onExtended x).form = op.onNumber x.form :=
  ExtRat.form_denote (op.canonical_onNumber x)

theorem BinaryOp.onExtended_add (x y : Extended) : BinaryOp.add.onExtended x y = x.add y := by
  rw [onExtended, onNumbers, add_form, denote_form]

theorem BinaryOp.onExtended_sub (x y : Extended) : BinaryOp.sub.onExtended x y = x.add y.neg := by
  rw [onExtended, onNumbers, sub_form, denote_form]
  rfl

theorem BinaryOp.onExtended_mul (x y : Extended) : BinaryOp.mul.onExtended x y = x.mul y := by
  rw [onExtended, onNumbers, mul_form, denote_form]

theorem UnaryOp.onExtended_plus (x : Extended) : UnaryOp.plus.onExtended x = x := denote_form x

theorem UnaryOp.onExtended_minus (x : Extended) : UnaryOp.minus.onExtended x = x.neg := by
  rw [onExtended, onNumber, neg_form, denote_form]

theorem UnaryOp.onExtended_percent (x : Extended) : UnaryOp.percent.onExtended x = x.percent := by
  rw [onExtended, onNumber, percent_form, denote_form]

namespace ChainOp

variable (op : ChainOp)

theorem onExtended_comm (x y : Extended) : op.toBinary.onExtended x y = op.toBinary.onExtended y x := by
  cases op with
  | add => simp only [toBinary, BinaryOp.onExtended_add, Extended.add_comm x]
  | mul => simp only [toBinary, BinaryOp.onExtended_mul, Extended.mul_comm x]

theorem onExtended_assoc (x y z : Extended) :
    op.toBinary.onExtended (op.toBinary.onExtended x y) z = op.toBinary.onExtended x (op.toBinary.onExtended y z) := by
  cases op with
  | add => simp only [toBinary, BinaryOp.onExtended_add, Extended.add_assoc]
  | mul => simp only [toBinary, BinaryOp.onExtended_mul, Extended.mul_assoc]

theorem neutral_onExtended (x : Extended) : op.toBinary.onExtended (fraction op.neutral) x = x := by
  cases op with
  | add => exact (BinaryOp.onExtended_add _ _).trans (Extended.zero_add x)
  | mul => exact (BinaryOp.onExtended_mul _ _).trans (Extended.one_mul x)

/-- One more operand of a chain; a chain has a number only if all operands do. -/
def combine (x y : Option Extended) : Option Extended := Option.map₂ op.toBinary.onExtended x y

instance : Std.Commutative op.combine := ⟨fun _ _ => Option.map₂_comm op.onExtended_comm⟩

instance : Std.Associative op.combine := ⟨fun _ _ _ => Option.map₂_assoc op.onExtended_assoc⟩

theorem neutral_combine (x : Option Extended) : op.combine (some (fraction op.neutral)) x = x :=
  Option.map₂_left_identity op.neutral_onExtended x

theorem combine_neutral (x : Option Extended) : op.combine x (some (fraction op.neutral)) = x :=
  (Std.Commutative.comm _ _).trans (op.neutral_combine x)

/-- The operands of a chain taken together. -/
def gather (xs : List (Option Extended)) : Option Extended := xs.foldr op.combine (some (fraction op.neutral))

theorem gather_cons (x : Option Extended) (xs : List (Option Extended)) : op.gather (x :: xs) = op.combine x (op.gather xs) :=
  rfl

theorem gather_append (xs ys : List (Option Extended)) : op.gather (xs ++ ys) = op.combine (op.gather xs) (op.gather ys) := by
  induction xs with
  | nil => exact (op.neutral_combine _).symm
  | cons x xs ih =>
    rw [List.cons_append, op.gather_cons, ih, op.gather_cons]
    exact (Std.Associative.assoc _ _ _).symm

theorem gather_perm {xs ys : List (Option Extended)} (h : xs.Perm ys) : op.gather xs = op.gather ys := h.foldr_op_eq

end ChainOp

namespace Expr

variable {φ : Type}

/-! ## the number of a tree -/

mutual
/-- The number of a tree of arithmetic. -/
def number (env : String → Option Extended) : Expr φ → Option Extended
  | .num text => (Literal.value? text).map ExtRat.denote
  | .var name => env name
  | .unary op _ e => (number env e).map op.onExtended
  | .binary op a b => if op.isArithmetic then Option.map₂ op.onExtended (number env a) (number env b) else none
  | .chain op es => op.gather (numbers env es)
  | _ => none
/-- The numbers of several trees. -/
def numbers (env : String → Option Extended) : List (Expr φ) → List (Option Extended)
  | [] => []
  | e :: es => number env e :: numbers env es
end

variable {env : String → Option Extended}

theorem numbers_eq_map (es : List (Expr φ)) : numbers env es = es.map (number env) := by
  induction es with
  | nil => rfl
  | cons e es ih => rw [numbers, ih, List.map_cons]

theorem number_chain (op : ChainOp) (es : List (Expr φ)) :
    number env (.chain op es) = op.gather (es.map (number env)) := by
  rw [number, numbers_eq_map]

theorem number_binary {op : BinaryOp} (hop : op.isArithmetic = true) (a b : Expr φ) :
    number env (.binary op a b) = Option.map₂ op.onExtended (number env a) (number env b) := by
  rw [number, if_pos hop]

theorem number_toBinary (op : ChainOp) (a b : Expr φ) :
    number env (.binary op.toBinary a b) = op.combine (number env a) (number env b) :=
  number_binary (by cases op <;> rfl) a b

theorem number_num {text : String} {q : ℚ} (h : Literal.value? text = some (fraction q).form) :
    number env (.num text : Expr φ) = some (fraction q) := by
  rw [number, h, Option.map_some, denote_form]

theorem number_mapChildren {f : Expr φ → Expr φ} {e : Expr φ} (h : ∀ c ∈ e.children, number env (f c) = number env c) :
    number env (e.mapChildren f) = number env e := by
  cases e with
  | unary op p e => rw [mapChildren, number, h e (by simp [children]), number]
  | binary op a b => rw [mapChildren, number, h a (by simp [children]), h b (by simp [children]), number]
  | chain op es =>
    rw [mapChildren, number_chain, number_chain, List.map_map]
    exact congrArg op.gather (List.map_congr_left h)
  | _ => simp only [mapChildren, number]

/-- **Passes.**  If a rule keeps the number of a node, then its pass keeps the numbers of trees. -/
theorem number_bottomUp {rule : Expr φ → Expr φ} (h : ∀ e, number env (rule e) = number env e) (e : Expr φ) :
    number env (bottomUp rule e) = number env e := by
  induction e using childInduction with
  | step e ih => rw [bottomUp_eq, h, number_mapChildren ih]

/-! ## the rules -/

theorem number_negated (e : Expr φ) : number env (negated e) = (number env e).map Extended.neg := by
  have hone : number env (.num "-1" : Expr φ) = some (fraction (-1)) := number_num (by decide)
  have hmul : (fun x => BinaryOp.mul.onExtended (fraction (-1)) x) = Extended.neg :=
    funext fun x => (BinaryOp.onExtended_mul _ _).trans (neg_one_mul x)
  rw [negated, mul, number_binary rfl, hone, Option.map₂_coe_left, hmul]

theorem number_positiveRule (e : Expr φ) : number env (positiveRule e) = number env e := by
  unfold positiveRule
  split
  · rename_i e
    rw [number, funext UnaryOp.onExtended_plus, Option.map_id']
  · rename_i e
    rw [number_negated, number, funext UnaryOp.onExtended_minus]
  · rename_i e
    have hcent : number env (.num "0.01" : Expr φ) = some (fraction (1 / 100)) := number_num (by decide +kernel)
    have hmul : (fun x => BinaryOp.mul.onExtended x (fraction (1 / 100))) = UnaryOp.percent.onExtended :=
      funext fun x => by rw [BinaryOp.onExtended_mul, mul_hundredth, UnaryOp.onExtended_percent]
    rw [mul, number_binary rfl, hcent, Option.map₂_coe_right, hmul, number]
  · rename_i a b
    have hsub : (fun x y => BinaryOp.add.onExtended x (Extended.neg y)) = BinaryOp.sub.onExtended :=
      funext₂ fun x y => by rw [BinaryOp.onExtended_add, BinaryOp.onExtended_sub]
    rw [number_binary rfl, number_binary rfl, number_negated, Option.map₂_map_right, hsub]
  · rfl

theorem gather_splice (op : ChainOp) (e : Expr φ) : op.gather ((splice op e).map (number env)) = number env e := by
  have hself : op.gather ([e].map (number env)) = number env e := op.combine_neutral _
  unfold splice
  split
  · rename_i op' es
    split
    · rename_i hop
      rw [hop, number_chain]
    · exact hself
  · exact hself

theorem gather_flatMap_splice (op : ChainOp) (es : List (Expr φ)) :
    op.gather ((es.flatMap (splice op)).map (number env)) = op.gather (es.map (number env)) := by
  induction es with
  | nil => rfl
  | cons e es ih =>
    rw [List.flatMap_cons, List.map_append, op.gather_append, gather_splice, ih, List.map_cons, op.gather_cons]

theorem number_levelRule (e : Expr φ) : number env (levelRule e) = number env e := by
  unfold levelRule
  split
  · rename_i o a b
    split
    · rename_i op hop
      obtain rfl : o = op.toBinary := by
        cases o <;> simp [ChainOp.ofBinary?] at hop <;> subst hop <;> rfl
      rw [number_chain, List.map_append, op.gather_append, gather_splice, gather_splice, number_toBinary]
    · rfl
  · rename_i op es
    rw [number_chain, gather_flatMap_splice, number_chain]
  · rfl

theorem number_orderRule (e : Expr φ) : number env (orderRule e) = number env e := by
  unfold orderRule
  split
  · rename_i op es
    rw [number_chain, op.gather_perm ((perm_sort es).map _), number_chain]
  · rfl

end Expr

/-! ## the passes -/

variable {φ : Type} [DecidableEq φ]

/-- The passes that move operands and do not compute. -/
def Pass.IsStructural (p : Pass) : Prop := p = negation ∨ p = leveling ∨ p = ordering

/-- **Structural passes keep numbers**, whatever the numbers are. -/
theorem Pass.number_apply {p : Pass} (hp : p.IsStructural) (env : String → Option Extended) (e : Expr φ) :
    (p.apply e).number env = e.number env := by
  rcases hp with rfl | rfl | rfl
  · exact Expr.number_bottomUp Expr.number_positiveRule e
  · exact Expr.number_bottomUp Expr.number_levelRule e
  · exact Expr.number_bottomUp Expr.number_orderRule e

end RatCalc
