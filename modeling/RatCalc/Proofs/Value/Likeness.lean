import RatCalc.Eval.Call
import Mathlib.Data.List.Forall2

/-!
# Likeness of values

Two values are alike if they differ only in the numbers of the scopes that their closures were made in.  Which numbers
may stand for each other, and which bodies closures may have, is left open.

* `Value.closures` — the closures in a value;
* `Value.Alike scopes bodies v v'` — the likeness; `alike_self_iff` — what it says of one value;
* `Foreign.Respects` — hosts that make values that are alike of values that are alike;
* `alike_binary`, `alike_unary`, `alike_extremum`, … — so do the operations of the calculator, with the same errors.
-/

namespace RatCalc

variable {φ : Type}

/-! ## closures in values -/

/-- A closure by itself. -/
structure Closure (φ : Type) where
  params : List String
  body : Expr φ
  scope : ScopeId

namespace Value

mutual
/-- The closures that a value is or is made of. -/
def closures : Value φ → List (Closure φ)
  | .number _ | .unit | .foreign _ | .builtin _ => []
  | .closure params body scope => [⟨params, body, scope⟩]
  | .supplied bound f => closuresOfList bound ++ closures f
  | .composed f g | .lifted _ f g => closures f ++ closures g
  | .liftedUnary _ f => closures f
def closuresOfList : List (Value φ) → List (Closure φ)
  | [] => []
  | v :: vs => closures v ++ closuresOfList vs
end

theorem closuresOfList_eq (vs : List (Value φ)) : closuresOfList vs = vs.flatMap closures := by
  induction vs with
  | nil => rfl
  | cons v vs ih => simp [closuresOfList, ih]

theorem closures_standard? {x : String} {v : Value φ} (h : standard? x = some v) : v.closures = [] := by
  rcases Option.or_eq_some_iff.1 h with hc | ⟨-, hb⟩
  · have hconstants : ∀ p ∈ (constants : List (String × Value φ)), p.2.closures = [] := by simp [constants, closures]
    obtain ⟨as, bs, hmem, -⟩ := List.lookup_eq_some_iff.1 hc
    exact hconstants (x, v) (by rw [hmem]; simp)
  · obtain ⟨b, -, rfl⟩ := Option.map_eq_some_iff.1 hb
    rfl

/-- The values that a value is made of. -/
def parts : Value φ → List (Value φ)
  | .supplied bound f => f :: bound
  | .composed f g | .lifted _ f g => [f, g]
  | .liftedUnary _ f => [f]
  | _ => []

mutual
/-- What a value inherits from its parts holds of every value. -/
theorem partInduction {P : Value φ → Prop} (step : ∀ v : Value φ, (∀ p ∈ v.parts, P p) → P v) : ∀ v, P v
  | .number _ | .unit | .foreign _ | .builtin _ | .closure _ _ _ => step _ (by simp [parts])
  | .supplied bound f => step _ (by
      simpa only [parts, List.forall_mem_cons] using ⟨partInduction step f, partInductionList step bound⟩)
  | .composed f g => step _ (by simpa [parts] using ⟨partInduction step f, partInduction step g⟩)
  | .lifted _ f g => step _ (by simpa [parts] using ⟨partInduction step f, partInduction step g⟩)
  | .liftedUnary _ f => step _ (by simpa [parts] using partInduction step f)
theorem partInductionList {P : Value φ → Prop} (step : ∀ v : Value φ, (∀ p ∈ v.parts, P p) → P v) :
    ∀ vs : List (Value φ), ∀ v ∈ vs, P v
  | [] => by simp
  | v :: vs => by simpa using ⟨partInduction step v, partInductionList step vs⟩
end

/-! ## likeness -/

section

variable (scopes : ScopeId → ScopeId → Prop) (bodies : Expr φ → Prop)

/-- The same value up to the scopes of its closures. -/
inductive Alike : Value φ → Value φ → Prop
  | number (r : ExtRat) : Alike (.number r) (.number r)
  | unit : Alike .unit .unit
  | foreign (x : φ) : Alike (.foreign x) (.foreign x)
  | builtin (b : Builtin) : Alike (.builtin b) (.builtin b)
  | closure {params : List String} {body : Expr φ} {i i' : ScopeId} (hbody : bodies body) (hscope : scopes i i') :
      Alike (.closure params body i) (.closure params body i')
  | supplied {bound bound' : List (Value φ)} {f f' : Value φ} (hbound : List.Forall₂ Alike bound bound')
      (hf : Alike f f') : Alike (.supplied bound f) (.supplied bound' f')
  | composed {f f' g g' : Value φ} (hf : Alike f f') (hg : Alike g g') : Alike (.composed f g) (.composed f' g')
  | lifted {op : BinaryOp} {f f' g g' : Value φ} (hf : Alike f f') (hg : Alike g g') :
      Alike (.lifted op f g) (.lifted op f' g')
  | liftedUnary {op : UnaryOp} {f f' : Value φ} (hf : Alike f f') : Alike (.liftedUnary op f) (.liftedUnary op f')

end

variable {scopes scopes' : ScopeId → ScopeId → Prop} {bodies bodies' : Expr φ → Prop} {v v' w w' : Value φ}

theorem Alike.mono (h : v.Alike scopes bodies v') (hscopes : ∀ i i', scopes i i' → scopes' i i')
    (hbodies : ∀ e, bodies e → bodies' e) : v.Alike scopes' bodies' v' := by
  induction v using partInduction generalizing v' with
  | step v ih =>
    cases h with
    | number r => exact .number r
    | unit => exact .unit
    | foreign x => exact .foreign x
    | builtin b => exact .builtin b
    | closure hbody hscope => exact .closure (hbodies _ hbody) (hscopes _ _ hscope)
    | @supplied bound bound' f f' hbound hf =>
      refine .supplied ?_ (ih f (by simp [parts]) hf)
      rw [List.forall₂_iff_zip] at hbound ⊢
      exact ⟨hbound.1, fun h => ih _ (by simp [parts, (List.of_mem_zip h).1]) (hbound.2 h)⟩
    | composed hf hg => exact .composed (ih _ (by simp [parts]) hf) (ih _ (by simp [parts]) hg)
    | lifted hf hg => exact .lifted (ih _ (by simp [parts]) hf) (ih _ (by simp [parts]) hg)
    | liftedUnary hf => exact .liftedUnary (ih _ (by simp [parts]) hf)

/-- If only equal scopes may stand for each other, then only equal values are alike. -/
theorem Alike.eq (h : v.Alike scopes bodies v') (hscopes : ∀ i i', scopes i i' → i = i') : v = v' := by
  induction v using partInduction generalizing v' with
  | step v ih =>
    cases h with
    | number | unit | foreign | builtin => rfl
    | closure _ hscope => rw [hscopes _ _ hscope]
    | @supplied bound bound' f f' hbound hf =>
      have heq : bound = bound' := by
        rw [← List.forall₂_eq_eq_eq]
        rw [List.forall₂_iff_zip] at hbound ⊢
        exact ⟨hbound.1, fun h => ih _ (by simp [parts, (List.of_mem_zip h).1]) (hbound.2 h)⟩
      rw [heq, ih f (by simp [parts]) hf]
    | composed hf hg => rw [ih _ (by simp [parts]) hf, ih _ (by simp [parts]) hg]
    | lifted hf hg => rw [ih _ (by simp [parts]) hf, ih _ (by simp [parts]) hg]
    | liftedUnary hf => rw [ih _ (by simp [parts]) hf]

/-- A value is like itself if the closures in it are allowed to keep their scopes. -/
theorem alike_self_iff : v.Alike scopes bodies v ↔ ∀ c ∈ v.closures, bodies c.body ∧ scopes c.scope c.scope := by
  induction v using partInduction with
  | step v ih =>
    cases v with
    | number r => simpa [closures] using Alike.number r
    | unit => simpa [closures] using Alike.unit
    | foreign x => simpa [closures] using Alike.foreign x
    | builtin b => simpa [closures] using Alike.builtin b
    | closure params body i =>
      simp only [closures, List.mem_singleton, forall_eq]
      exact ⟨fun | .closure hbody hscope => ⟨hbody, hscope⟩, fun h => .closure h.1 h.2⟩
    | supplied bound f =>
      have hbound : List.Forall₂ (Alike scopes bodies) bound bound ↔
          ∀ c ∈ bound.flatMap closures, bodies c.body ∧ scopes c.scope c.scope := by
        simp only [List.forall₂_same, List.mem_flatMap, forall_exists_index, and_imp]
        exact ⟨fun h c v hv => (ih v (by simp [parts, hv])).1 (h v hv) c,
          fun h v hv => (ih v (by simp [parts, hv])).2 fun c => h c v hv⟩
      rw [closures, List.forall_mem_append, closuresOfList_eq, ← hbound, ← ih f (by simp [parts])]
      exact ⟨fun | .supplied hbound hf => ⟨hbound, hf⟩, fun h => .supplied h.1 h.2⟩
    | composed f g =>
      rw [closures, List.forall_mem_append, ← ih f (by simp [parts]), ← ih g (by simp [parts])]
      exact ⟨fun | .composed hf hg => ⟨hf, hg⟩, fun h => .composed h.1 h.2⟩
    | lifted op f g =>
      rw [closures, List.forall_mem_append, ← ih f (by simp [parts]), ← ih g (by simp [parts])]
      exact ⟨fun | .lifted hf hg => ⟨hf, hg⟩, fun h => .lifted h.1 h.2⟩
    | liftedUnary op f =>
      rw [closures, ← ih f (by simp [parts])]
      exact ⟨fun | .liftedUnary hf => hf, fun h => .liftedUnary h⟩

theorem alike_of_closures_eq_nil (h : v.closures = []) : v.Alike scopes bodies v := alike_self_iff.2 (by simp [h])

/-! ## what values that are alike have in common -/

theorem Alike.isFunction_eq (h : v.Alike scopes bodies v') : v.isFunction = v'.isFunction := by cases h <;> rfl

theorem Alike.isUnit_eq (h : v.Alike scopes bodies v') : v.isUnit = v'.isUnit := by cases h <;> rfl

variable [Foreign φ]

theorem Alike.kind_eq (h : v.Alike scopes bodies v') : v.kind = v'.kind := by cases h <;> rfl

theorem Alike.isTruthy_eq (h : v.Alike scopes bodies v') : v.isTruthy = v'.isTruthy := by cases h <;> rfl

theorem Alike.takesLeft_eq (op : BinaryOp) (h : v.Alike scopes bodies v') : takesLeft op v = takesLeft op v' := by
  unfold takesLeft
  rw [h.isTruthy_eq]

theorem Alike.decides_eq (op : BinaryOp) (h : v.Alike scopes bodies v') : decides op v = decides op v' := by
  unfold decides
  split
  · exact h.takesLeft_eq _
  · exact h.takesLeft_eq _
  · rfl

end Value

/-! ## results -/

/-- The literal of a program that is no number, as an error. -/
def EvalError.IsMalformed : EvalError → Prop
  | .malformedLiteral _ _ => True
  | _ => False

section

variable {α β : Type}

/-- Values that are related, or the same error, one of those that are allowed. -/
inductive SameResult (related : α → α → Prop) (errors : EvalError → Prop) :
    Except EvalError α → Except EvalError α → Prop
  | ok {a a' : α} (h : related a a') : SameResult related errors (.ok a) (.ok a')
  | error {e : EvalError} (h : errors e) : SameResult related errors (.error e) (.error e)

variable {related : α → α → Prop} {related' : β → β → Prop} {errors : EvalError → Prop}

namespace SameResult

theorem bind {x x' : Except EvalError α} {f f' : α → Except EvalError β} (hx : SameResult related errors x x')
    (hf : ∀ a a', related a a' → SameResult related' errors (f a) (f' a')) :
    SameResult related' errors (x >>= f) (x' >>= f') := by
  cases hx with
  | ok h => exact hf _ _ h
  | error h => exact .error h

/-- The results of a host's operation, or else values. -/
theorem getD {r r' : Option (Except EvalError α)} {a a' : α} (hr : Option.Rel (SameResult related errors) r r')
    (ha : related a a') : SameResult related errors (r.getD (.ok a)) (r'.getD (.ok a')) := by
  cases hr with
  | none => exact .ok ha
  | some h => exact h

end SameResult

end

/-- Hosts whose values answer in the same way when the values they are given are alike. -/
structure Foreign.Respects (φ : Type) [Foreign φ] (scopes : ScopeId → ScopeId → Prop) (bodies : Expr φ → Prop)
    (errors : EvalError → Prop) : Prop where
  binary : ∀ (x : φ) (op : BinaryOp) {v v' : Value φ} (side : Side), v.Alike scopes bodies v' →
    Option.Rel (SameResult (Value.Alike scopes bodies) errors) (Foreign.binary x op v side)
      (Foreign.binary x op v' side)
  unary : ∀ (x : φ) (op : UnaryOp),
    Option.Rel (SameResult (Value.Alike scopes bodies) errors) (Foreign.unary x op) (Foreign.unary x op)
  compare : ∀ (x : φ) {v v' : Value φ}, v.Alike scopes bodies v' → Foreign.compare x v = Foreign.compare x v'
  call : ∀ (x : φ) {args args' : List (Value φ)}, List.Forall₂ (Value.Alike scopes bodies) args args' →
    Option.Rel (SameResult (Value.Alike scopes bodies) errors) (Foreign.call x args) (Foreign.call x args')

variable [Foreign φ] {scopes : ScopeId → ScopeId → Prop} {bodies : Expr φ → Prop} {errors : EvalError → Prop}

/-- If scopes stand for themselves only, it is enough to know of the results of one and the same operation. -/
theorem Foreign.respects_of_self (hscopes : ∀ i i', scopes i i' → i = i')
    (hbinary : ∀ (x : φ) op v side r, v.Alike scopes bodies v → Foreign.binary x op v side = some r →
      SameResult (Value.Alike scopes bodies) errors r r)
    (hunary : ∀ (x : φ) op r, Foreign.unary x op = some r → SameResult (Value.Alike scopes bodies) errors r r)
    (hcall : ∀ (x : φ) args r, List.Forall₂ (Value.Alike scopes bodies) args args → Foreign.call x args = some r →
      SameResult (Value.Alike scopes bodies) errors r r) : Foreign.Respects φ scopes bodies errors := by
  have hself : ∀ {r : Option (Except EvalError (Value φ))},
      (∀ result, r = some result → SameResult (Value.Alike scopes bodies) errors result result) →
        Option.Rel (SameResult (Value.Alike scopes bodies) errors) r r := by
    rintro (_ | result) h
    · exact .none
    · exact .some (h result rfl)
  refine ⟨?_, ?_, ?_, ?_⟩
  · intro x op v v' side hv
    obtain rfl := hv.eq hscopes
    exact hself fun result => hbinary x op v side result hv
  · exact fun x op => hself (hunary x op)
  · intro x v v' hv
    rw [hv.eq hscopes]
  · intro x args args' hargs
    have heq : args = args' := List.forall₂_eq_eq_eq ▸ hargs.imp fun _ _ hv => hv.eq hscopes
    subst heq
    exact hself fun result => hcall x args result hargs

section Operations

variable (herrors : ∀ e : EvalError, ¬ e.IsMalformed → errors e) {v v' w w' : Value φ}

namespace Value

section Host

variable (hhost : Foreign.Respects φ scopes bodies errors)
include hhost

theorem alike_arithmetic (op : BinaryOp) (hv : v.Alike scopes bodies v') (hw : w.Alike scopes bodies w') :
    SameResult (Alike scopes bodies) errors (arithmetic op v w) (arithmetic op v' w') := by
  have hlifted : SameResult (Alike scopes bodies) errors (.ok (.lifted op v w)) (.ok (.lifted op v' w')) :=
    .ok (.lifted hv hw)
  have hleft : ∀ x, SameResult (Alike scopes bodies) errors
      ((Foreign.binary x op w .left).getD (.ok (.lifted op (.foreign x) w)))
      ((Foreign.binary x op w' .left).getD (.ok (.lifted op (.foreign x) w'))) :=
    fun x => .getD (hhost.binary x op .left hw) (.lifted (.foreign x) hw)
  have hright : ∀ y, SameResult (Alike scopes bodies) errors
      ((Foreign.binary y op v .right).getD (.ok (.lifted op v (.foreign y))))
      ((Foreign.binary y op v' .right).getD (.ok (.lifted op v' (.foreign y)))) :=
    fun y => .getD (hhost.binary y op .right hv) (.lifted hv (.foreign y))
  cases hv with
  | unit => exact .ok .unit
  | number r =>
    cases hw with
    | unit => exact .ok .unit
    | number s => exact .ok (.number _)
    | foreign y => exact hright y
    | _ => exact hlifted
  | foreign x =>
    cases hw with
    | unit => exact .ok .unit
    | _ => exact hleft x
  | _ =>
    cases hw with
    | unit => exact .ok .unit
    | foreign y => exact hright y
    | _ => exact hlifted

theorem alike_unary (op : UnaryOp) (hv : v.Alike scopes bodies v') :
    SameResult (Alike scopes bodies) errors (unary op v) (unary op v') := by
  have hlifted : SameResult (Alike scopes bodies) errors (.ok (.liftedUnary op v)) (.ok (.liftedUnary op v')) :=
    .ok (.liftedUnary hv)
  cases hv with
  | unit => exact .ok .unit
  | number r => exact .ok (.number _)
  | foreign x => exact .getD (hhost.unary x op) (.liftedUnary (.foreign x))
  | _ => exact hlifted

include herrors

omit hhost in
theorem alike_decided (op : BinaryOp) (hv : v.Alike scopes bodies v') (hw : w.Alike scopes bodies w')
    (o : Option Ordering) :
    SameResult (Alike scopes bodies) errors (compare.decided op v w o) (compare.decided op v' w' o) := by
  cases o with
  | some o => exact .ok (.number _)
  | none =>
    unfold compare.decided
    rw [hv.kind_eq, hw.kind_eq]
    exact .error (herrors _ id)

theorem alike_compare (op : BinaryOp) (hv : v.Alike scopes bodies v') (hw : w.Alike scopes bodies w') :
    SameResult (Alike scopes bodies) errors (compare op v w) (compare op v' w') := by
  have hdecided := alike_decided herrors op hv hw
  have hleft : ∀ x, Foreign.compare x w = Foreign.compare x w' := fun x => hhost.compare x hw
  have hright : ∀ y, Foreign.compare y v = Foreign.compare y v' := fun y => hhost.compare y hv
  cases hv with
  | unit => exact .ok .unit
  | number r =>
    cases hw with
    | unit => exact .ok .unit
    | number s => exact .ok (.number _)
    | foreign y => exact hdecided _
    | _ => exact hdecided none
  | foreign x =>
    cases hw with
    | unit => exact .ok .unit
    | _ =>
      unfold compare
      dsimp only
      rw [hleft]
      exact hdecided _
  | _ =>
    cases hw with
    | unit => exact .ok .unit
    | foreign y =>
      unfold compare
      dsimp only
      rw [hright]
      exact hdecided _
    | _ => exact hdecided none

/-- **Operators** give like values of like values. -/
theorem alike_binary (op : BinaryOp) (hv : v.Alike scopes bodies v') (hw : w.Alike scopes bodies w') :
    SameResult (Alike scopes bodies) errors (binary op v w) (binary op v' w') := by
  have hcompose : (Value.compose v w).Alike scopes bodies (Value.compose v' w') := by
    unfold Value.compose
    rw [hv.isUnit_eq, hw.isUnit_eq]
    split
    · exact .unit
    · exact .composed hv hw
  have hlogical : (Value.logical op v w).Alike scopes bodies (Value.logical op v' w') := by
    unfold Value.logical
    rw [hv.takesLeft_eq]
    split
    · exact hv
    · exact hw
  cases op with
  | compose => exact .ok hcompose
  | and | or => exact .ok hlogical
  | eq | ne | lt | le | gt | ge => exact alike_compare herrors hhost _ hv hw
  | add | sub | mul | div | mod | pow => exact alike_arithmetic hhost _ hv hw

end Host

end Value

/-! ## functions of numbers -/

namespace Builtin

include herrors

theorem alike_numeric (b : Builtin) (hv : v.Alike scopes bodies v') :
    SameResult Eq errors (b.numeric v) (b.numeric v') := by
  have hkind := hv.kind_eq
  cases hv with
  | number r => exact .ok rfl
  | unit => exact .ok rfl
  | _ =>
    unfold numeric
    dsimp only
    rw [hkind]
    exact .error (herrors _ id)

theorem alike_mapNumber (b : Builtin) (f : ExtRat → ExtRat) (hv : v.Alike scopes bodies v') :
    SameResult (Value.Alike scopes bodies) errors (b.mapNumber f v) (b.mapNumber f v') := by
  refine (alike_numeric herrors b hv).bind ?_
  rintro (_ | r) _ rfl
  · exact .ok .unit
  · exact .ok (.number _)

theorem alike_rootOf (hv : v.Alike scopes bodies v') (hw : w.Alike scopes bodies w') :
    SameResult (Value.Alike scopes bodies) errors (rootOf v w) (rootOf v' w') := by
  refine (alike_numeric herrors root hw).bind ?_
  rintro (_ | r) _ rfl
  · exact .ok .unit
  · dsimp only
    split
    · exact alike_mapNumber herrors root _ hv
    · exact .error (herrors _ id)

theorem alike_extremum (b : Builtin) (keep : Ordering) (best : Option ExtRat) {vs vs' : List (Value φ)}
    (hvs : List.Forall₂ (Value.Alike scopes bodies) vs vs') :
    SameResult (Value.Alike scopes bodies) errors (extremum b keep best vs) (extremum b keep best vs') := by
  induction hvs generalizing best with
  | nil => cases best <;> exact .ok (by constructor)
  | cons hv _ ih =>
    rw [extremum, extremum]
    refine (alike_numeric herrors b hv).bind ?_
    rintro (_ | r) _ rfl
    · exact .ok .unit
    · dsimp only
      split
      · exact ih _
      · split
        · exact .ok (.number _)
        · exact ih _

end Builtin

end Operations

end RatCalc
