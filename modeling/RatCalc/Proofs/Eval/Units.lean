import RatCalc.Proofs.Eval.Extrema

/-!
# Units among numbers

A numeric function that meets the unit among its arguments returns it.  It does not always meet it: `min` and `max` end
early at numbers that do not compare, and `root` looks at its degree first.

* `Builtin.absorbs` — whether the unit is met;
* `Builtin.extremum_units` — the loop of `min` and `max`, by induction on the arguments to come;
* `Interpreter.call_units` — what a call with numbers and units returns, whatever the function.
-/

namespace RatCalc

variable {φ : Type}

/-- A number as a value, and the unit where there is none. -/
def Value.ofNumber? : Option ExtRat → Value φ
  | some r => .number r
  | none => .unit

namespace Builtin

/-- The functions that take numbers only. -/
def IsNumeric : Builtin → Prop
  | limit _ | compose => False
  | _ => True

/-- The numbers before the first unit. -/
def leading (args : List (Option ExtRat)) : List ExtRat := (args.takeWhile Option.isSome).reduceOption

@[simp]
theorem leading_unit (args : List (Option ExtRat)) : leading (none :: args) = [] := rfl

@[simp]
theorem leading_number (r : ExtRat) (args : List (Option ExtRat)) : leading (some r :: args) = r :: leading args := rfl

/-- Numbers that `min` and `max` get through: all of them are defined, unless there is only one. -/
def Ordered (rs : List ExtRat) : Prop := rs.length ≤ 1 ∨ ∀ r ∈ rs, r.isUndefined = false

instance (rs : List ExtRat) : Decidable (Ordered rs) := inferInstanceAs (Decidable (_ ∨ _))

theorem ordered_cons {r : ExtRat} {rs : List ExtRat} (hr : r.isUndefined = false) :
    Ordered (r :: rs) ↔ ∀ s ∈ rs, s.isUndefined = false := by
  cases rs with
  | nil => simp [Ordered]
  | cons s rs => simp [Ordered, hr]

theorem not_ordered {r s : ExtRat} {rs : List ExtRat} (hundefined : s.isUndefined = true ∨ r.isUndefined = true) :
    ¬Ordered (r :: s :: rs) := by
  rintro (hlength | hdefined)
  · simp at hlength
  · rcases hundefined with h | h
    · simp [hdefined s] at h
    · simp [hdefined r] at h

/-- Whether a unit among these arguments is the result: `min` and `max` have to get there, and a number that is the degree
of a root has to be one. -/
def absorbs : Builtin → List (Option ExtRat) → Bool
  | min, args | max, args => Ordered (leading args)
  | root, [_, some n] => (degree? n).isSome
  | _, _ => true

variable [Foreign φ] {b : Builtin} {keep : Ordering}

/-! ## the loop -/

theorem extremum_unit (b : Builtin) (keep : Ordering) (best : Option ExtRat) (vs : List (Value φ)) :
    extremum b keep best (.unit :: vs) = .ok .unit := rfl

/-- **The loop with a unit to come** ends there, or earlier at numbers without an order. -/
theorem extremum_units (b : Builtin) (keep : Ordering) (r : ExtRat) {args : List (Option ExtRat)} (hunit : none ∈ args) :
    extremum b keep (some r) (args.map Value.ofNumber?) =
      if Ordered (r :: leading args) then .ok (.unit : Value φ) else .ok (.number .undefined) := by
  induction args generalizing r with
  | nil => exact absurd hunit List.not_mem_nil
  | cons arg args ih =>
    cases arg with
    | none =>
      rw [leading_unit, if_pos (.inl le_rfl)]
      exact extremum_unit b keep (some r) _
    | some s =>
      have hunit : none ∈ args := by simpa using hunit
      have hnext : extremum b keep (some r) (.number s :: args.map Value.ofNumber?) = _ := extremum_next (φ := φ) b r s _
      rw [leading_number]
      refine hnext.trans ?_
      cases hcmp : s.cmp? r with
      | none => exact (if_neg (not_ordered (ExtRat.cmp?_eq_none_iff.1 hcmp))).symm
      | some o =>
        obtain ⟨hs, hr⟩ : s.isUndefined = false ∧ r.isUndefined = false := by
          have hdefined := mt ExtRat.cmp?_eq_none_iff.2 (by simp [hcmp] : s.cmp? r ≠ none)
          simpa using hdefined
        have hbest : (if o = keep then s else r).isUndefined = false := by
          split
          · exact hs
          · exact hr
        have hsame : Ordered ((if o = keep then s else r) :: leading args) ↔ Ordered (r :: s :: leading args) := by
          rw [ordered_cons hbest, ordered_cons hr, List.forall_mem_cons]
          exact (and_iff_right hs).symm
        exact (ih _ hunit).trans (if_congr hsame rfl rfl)

theorem extremum_units_first (b : Builtin) (keep : Ordering) {args : List (Option ExtRat)} (hunit : none ∈ args) :
    extremum b keep none (args.map Value.ofNumber?) =
      if Ordered (leading args) then .ok (.unit : Value φ) else .ok (.number .undefined) := by
  cases args with
  | nil => exact absurd hunit List.not_mem_nil
  | cons arg args =>
    cases arg with
    | none =>
      rw [leading_unit, if_pos (.inl zero_le_one)]
      exact extremum_unit b keep none _
    | some r => exact extremum_units b keep r (by simpa using hunit)

/-! ## the other functions -/

/-- The numeric functions are those of one number, the two that look for an extremum, and `root`. -/
theorem IsNumeric.cases (hb : b.IsNumeric) :
    (∃ f, b.onNumber? = some f) ∨ (∃ keep, b.keeps? = some keep) ∨ b = root := by
  cases b <;> first | exact .inl ⟨_, rfl⟩ | exact .inr (.inl ⟨_, rfl⟩) | exact .inr (.inr rfl) | exact hb.elim

variable (call : Value φ → List (Value φ) → Eval φ (Value φ))

theorem run_unit {f : ExtRat → ExtRat} (hf : b.onNumber? = some f) : b.run call [.unit] = Eval.ofExcept (.ok .unit) := by
  cases b <;> cases hf <;> rfl

theorem rootOf_unit (n : ExtRat) : rootOf .unit (.number n) =
    if (degree? n).isSome then .ok (.unit : Value φ)
    else .error (.invalidArgument "root" "degree must be a positive integer") := by
  cases h : degree? n with
  | none =>
    simp only [rootOf, numeric, h, bind, Except.bind]
    rfl
  | some degree => simp [rootOf, mapNumber, numeric, h, bind, Except.bind, pure, Except.pure]

/-- **What the functions make of units**, as values or errors. -/
theorem run_units (hb : b.IsNumeric) {args : List (Option ExtRat)} (harity : b.arity.accepts args.length = true)
    (hunit : none ∈ args) :
    b.run call (args.map Value.ofNumber?) = Eval.ofExcept (
      if b.absorbs args then .ok .unit
      else if b = root then .error (.invalidArgument "root" "degree must be a positive integer")
      else .ok (.number .undefined)) := by
  rcases hb.cases with ⟨f, hf⟩ | ⟨keep, hkeep⟩ | rfl
  · -- a function of one number has the unit for its only argument
    have hlength : args.length = 1 := by cases b <;> cases hf <;> simpa [arity, Arity.accepts] using harity
    have habsorbs : b.absorbs [none] = true := by cases b <;> cases hf <;> rfl
    obtain ⟨arg, rfl⟩ := List.length_eq_one_iff.1 hlength
    obtain rfl : none = arg := by simpa using hunit
    rw [if_pos habsorbs]
    exact run_unit call hf
  · have habsorbs : b.absorbs args = decide (Ordered (leading args)) := by cases b <;> cases hkeep <;> rfl
    have hroot : b ≠ root := by rintro rfl; cases hkeep
    have hloop := extremum_units_first (φ := φ) b keep hunit
    obtain ⟨arg, args, rfl⟩ := List.exists_cons_of_ne_nil (List.ne_nil_of_mem hunit)
    rw [List.map_cons] at hloop ⊢
    rw [run_of_keeps hkeep, hloop, habsorbs, if_neg hroot]
    simp only [decide_eq_true_eq]
  · have hlength : args.length = 2 := by simpa [arity, Arity.accepts] using harity
    obtain ⟨v, n, rfl⟩ := List.length_eq_two.1 hlength
    cases n with
    | none => rfl
    | some n =>
      obtain rfl : none = v := by simpa using hunit
      exact congrArg Eval.ofExcept (rootOf_unit n)

end Builtin

namespace Interpreter

variable [Foreign φ] (i : Interpreter φ) {b : Builtin} {m : Machine φ}

/-- **A unit among numbers.**  A numeric function that is called with numbers and at least one unit returns the unit if it
meets it.  Otherwise `min` and `max` return the undefined number, having met two numbers of which one is undefined, and
`root` fails because of its degree. -/
theorem call_units (hdepth : m.depth < i.context.config.maxDepth) (hb : b.IsNumeric) {args : List (Option ExtRat)}
    (harity : b.arity.accepts args.length = true) (hunit : none ∈ args) (n : ℕ) :
    i.call (n + 1) (.builtin b) (args.map Value.ofNumber?) m =
      if b.absorbs args then .ok .unit m
      else if b = .root then .error (.invalidArgument "root" "degree must be a positive integer") m
      else .ok (.number .undefined) m := by
  rw [i.call_builtin hdepth (fun call => Builtin.run_units call hb harity hunit)]
  split
  · rfl
  · split <;> rfl

/-- The unit after two numbers that compare, and before one that would not. -/
theorem call_units_max :
    let i : Interpreter Empty := { top := 0 }
    let m : Machine Empty := {}
    let args : List (Option ExtRat) := [some .negInfinity, some ⟨1, 2⟩, none, some .undefined]
    m.depth < i.context.config.maxDepth ∧ Builtin.max.IsNumeric ∧ Builtin.max.arity.accepts args.length = true ∧
      none ∈ args ∧
      i.call 1 (.builtin .max) [.number .negInfinity, .number ⟨1, 2⟩, .unit, .number .undefined] m = .ok .unit m := by
  intro i m args
  have hdepth : m.depth < i.context.config.maxDepth := by decide
  have hnumeric : Builtin.max.IsNumeric := trivial
  have harity : Builtin.max.arity.accepts args.length = true := rfl
  have hunit : none ∈ args := by decide
  exact ⟨hdepth, hnumeric, harity, hunit, i.call_units hdepth hnumeric harity hunit 0⟩

/-- A unit that is not met: after an undefined number that is not the first, and before a number that is no degree. -/
theorem call_units_unmet :
    let i : Interpreter Empty := { top := 0 }
    let m : Machine Empty := {}
    i.call 1 (.builtin .min) [.number ⟨1, 1⟩, .number .undefined, .unit] m = .ok (.number .undefined) m ∧
      i.call 1 (.builtin .root) [.unit, .number ⟨0, 1⟩] m =
        .error (.invalidArgument "root" "degree must be a positive integer") m :=
  ⟨rfl, rfl⟩

end Interpreter

end RatCalc
