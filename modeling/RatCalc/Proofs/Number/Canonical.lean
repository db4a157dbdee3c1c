import RatCalc.Number.Power
import RatCalc.Number.Snap
import RatCalc.Proofs.Number.Decimal

/-!
# Canonical form

Every way to make a number gives lowest terms, with `0/0` allowed, and so a pair determines what it stands for.

* `canonical_add`, `Canonical.neg`, … — one lemma for each operation; the second kind needs its operand canonical, because
  the operation may build the pair directly or hand the operand back;
* `Reachable` — the numbers that constructors, literals and operations make of each other;
* `canonical_of_reachable` — these are canonical.
-/

namespace RatCalc.ExtRat

open Extended

/-! ## constructors -/

theorem canonical_ofInt (n : ℤ) : (ofInt n).Canonical := .inl (Nat.gcd_one_right _)

theorem canonical_ofFraction (n d : ℤ) : (ofFraction n d).Canonical := by
  unfold ofFraction
  split
  · exact canonical_reduce _ _
  · exact canonical_reduce _ _

theorem canonical_undefined : undefined.Canonical := .inr ⟨rfl, rfl⟩

theorem canonical_scaled (n k : ℤ) : (Literal.scaled n k).Canonical := by
  rw [Literal.scaled_form]
  exact canonical_form _

/-- The decimals that doubles become, whatever the number of grids searched. -/
theorem canonical_search (x : Double) (fuel : ℕ) (p : ℤ) : (x.search fuel p).Canonical := by
  induction fuel generalizing p with
  | zero => exact canonical_reduce _ _
  | succ fuel ih =>
    rw [Double.search]
    split
    · exact canonical_scaled _ _
    · exact ih (p - 1)

/-! ## operations -/

variable {a b : ExtRat}

theorem Canonical.neg (h : a.Canonical) : a.neg.Canonical := by
  obtain ⟨x, rfl⟩ := canonical_iff.1 h
  rw [neg_form]
  exact canonical_form _

theorem Canonical.abs (h : a.Canonical) : a.abs.Canonical := by
  obtain ⟨x, rfl⟩ := canonical_iff.1 h
  rw [abs_form]
  exact canonical_form _

theorem canonical_signum (a : ExtRat) : a.signum.Canonical := by
  unfold signum
  split
  · exact canonical_undefined
  · exact canonical_ofInt _

theorem canonical_recip (a : ExtRat) : a.recip.Canonical := canonical_ofFraction _ _

theorem canonical_add (a b : ExtRat) : (a.add b).Canonical := by
  unfold add
  split
  · exact canonical_undefined
  · split
    · exact canonical_reduce _ _
    · exact canonical_reduce _ _

theorem canonical_mul (a b : ExtRat) : (a.mul b).Canonical := canonical_reduce _ _

theorem canonical_mod (a b : ExtRat) : (a.mod b).Canonical := by
  unfold mod
  split
  · exact canonical_undefined
  · exact canonical_add _ _

theorem Canonical.floor (h : a.Canonical) : a.floor.Canonical := by
  unfold ExtRat.floor
  split
  · exact canonical_ofInt _
  · exact h

theorem Canonical.round (h : a.Canonical) : a.round.Canonical := by
  unfold ExtRat.round
  split
  · exact h
  · split
    · exact (canonical_add _ _).floor.neg
    · exact (canonical_add _ _).floor

theorem Canonical.snap (h : a.Canonical) : a.snap.Canonical := by
  have hcut : ∀ k up, (a.abs.cutAt k up).Canonical := fun k up => canonical_reduce _ _
  unfold ExtRat.snap
  split
  · exact h
  · split
    · exact h
    · split
      · exact (hcut _ _).neg
      · exact hcut _ _

/-! ## powers and roots -/

theorem canonical_ofFloat (x : Float) : (ofFloat x).Canonical := by
  unfold ofFloat
  split
  · exact canonical_undefined
  · split
    · split <;> decide
    · split
      · exact canonical_ofInt 0
      · split
        · exact (canonical_search _ _ _).neg
        · exact canonical_search _ _ _

theorem canonical_powNat (a : ExtRat) (e : ℕ) : (a.powNat e).Canonical := by
  unfold powNat
  split
  · exact canonical_reduce _ _
  · exact canonical_undefined

theorem canonical_powInt (a : ExtRat) (e : ℤ) : (a.powInt e).Canonical := by
  unfold powInt
  split
  · exact canonical_recip _
  · exact canonical_powNat _ _

theorem canonical_rootOfPositive (a : ExtRat) (degree : ℕ) : (a.rootOfPositive degree).Canonical := by
  unfold rootOfPositive
  dsimp only
  split
  · exact canonical_reduce _ _
  · -- the text of a root that is cut is read back, or refused
    cases hread : (Decimal.root? a.num.natAbs a.den degree rootPlaces).bind Literal.value? with
    | none => exact canonical_undefined
    | some r =>
      obtain ⟨text, -, htext⟩ := Option.bind_eq_some_iff.1 hread
      exact Literal.canonical_value? htext

theorem Canonical.nthRoot (h : a.Canonical) (degree : ℕ) : (a.nthRoot degree).Canonical := by
  have hroot : (if maxRootDegree < degree then a.abs.rootByDouble degree
      else a.abs.rootOfPositive degree).Canonical := by
    split
    · exact canonical_ofFloat _
    · exact canonical_rootOfPositive _ _
  unfold ExtRat.nthRoot
  split
  · exact canonical_undefined
  · split
    · exact h
    · split
      · exact canonical_undefined
      · split
        · exact h
        · dsimp only
          split
          · exact hroot.neg
          · exact hroot

theorem canonical_pow (a b : ExtRat) : (a.pow b).Canonical := by
  unfold pow
  split
  · exact canonical_ofInt 1
  · split
    · exact canonical_undefined
    · split
      · exact canonical_powInt _ _
      · split
        · exact (canonical_powInt _ _).nthRoot _
        · exact canonical_ofFloat _

/-! ## reachable numbers -/

/-- The numbers that can be made: from integers, literals and doubles, and by the operations from each other. -/
inductive Reachable : ExtRat → Prop
  | ofFraction (n d : ℤ) : Reachable (ofFraction n d)
  | ofInt (n : ℤ) : Reachable (ofInt n)
  | undefined : Reachable undefined
  | infinity : Reachable infinity
  | negInfinity : Reachable negInfinity
  | literal {text : String} {r : ExtRat} (h : Literal.read text = .ok r) : Reachable r
  | ofFloat (x : Float) : Reachable (ofFloat x)
  | neg {a : ExtRat} (ha : Reachable a) : Reachable a.neg
  | abs {a : ExtRat} (ha : Reachable a) : Reachable a.abs
  | signum {a : ExtRat} (ha : Reachable a) : Reachable a.signum
  | recip {a : ExtRat} (ha : Reachable a) : Reachable a.recip
  | add {a b : ExtRat} (ha : Reachable a) (hb : Reachable b) : Reachable (a.add b)
  | sub {a b : ExtRat} (ha : Reachable a) (hb : Reachable b) : Reachable (a.sub b)
  | mul {a b : ExtRat} (ha : Reachable a) (hb : Reachable b) : Reachable (a.mul b)
  | div {a b : ExtRat} (ha : Reachable a) (hb : Reachable b) : Reachable (a.div b)
  | mod {a b : ExtRat} (ha : Reachable a) (hb : Reachable b) : Reachable (a.mod b)
  | percent {a : ExtRat} (ha : Reachable a) : Reachable a.percent
  | powInt {a : ExtRat} (ha : Reachable a) (e : ℤ) : Reachable (a.powInt e)
  | pow {a b : ExtRat} (ha : Reachable a) (hb : Reachable b) : Reachable (a.pow b)
  | nthRoot {a : ExtRat} (ha : Reachable a) (degree : ℕ) : Reachable (a.nthRoot degree)
  | floor {a : ExtRat} (ha : Reachable a) : Reachable a.floor
  | ceil {a : ExtRat} (ha : Reachable a) : Reachable a.ceil
  | round {a : ExtRat} (ha : Reachable a) : Reachable a.round
  | snap {a : ExtRat} (ha : Reachable a) : Reachable a.snap

theorem Reachable.canonical {r : ExtRat} (h : Reachable r) : r.Canonical := by
  induction h with
  | ofFraction n d => exact canonical_ofFraction n d
  | ofInt n => exact canonical_ofInt n
  | undefined | infinity | negInfinity => decide
  | literal h => exact Literal.canonical_value? (Literal.value?_eq_some_iff.2 h)
  | ofFloat x => exact canonical_ofFloat x
  | neg _ ih => exact ih.neg
  | abs _ ih => exact ih.abs
  | signum => exact canonical_signum _
  | recip => exact canonical_recip _
  | add | sub => exact canonical_add _ _
  | mul | div | percent => exact canonical_mul _ _
  | mod => exact canonical_mod _ _
  | powInt _ e => exact canonical_powInt _ e
  | pow => exact canonical_pow _ _
  | nthRoot _ degree ih => exact ih.nthRoot degree
  | floor _ ih => exact ih.floor
  | ceil _ ih => exact ih.neg.floor.neg
  | round _ ih => exact ih.round
  | snap _ ih => exact ih.snap

/-- Denominator zero leaves three canonical pairs. -/
theorem Canonical.eq_of_den_eq_zero (h : a.Canonical) (hd : a.den = 0) :
    a = infinity ∨ a = negInfinity ∨ a = undefined := by
  obtain ⟨x, rfl⟩ := canonical_iff.1 h
  cases x with
  | fraction q => exact absurd hd q.den_nz
  | infinity => exact .inl rfl
  | negInfinity => exact .inr (.inl rfl)
  | undefined => exact .inr (.inr rfl)

/-- A canonical pair is known by what it stands for. -/
theorem Canonical.eq_iff_denote_eq (ha : a.Canonical) (hb : b.Canonical) : a = b ↔ a.denote = b.denote := by
  constructor
  · rintro rfl
    rfl
  · intro h
    rw [← form_denote ha, h, form_denote hb]

/-- **Canonical form is an invariant of the numbers.**  Whatever sequence of constructors and operations made them,
numbers are in lowest terms or `0/0` (no denominator is negative, by its type); those with denominator zero are the two
infinities and the undefined number, and two are equal exactly when they stand for the same extended rational. -/
theorem canonical_of_reachable (ha : Reachable a) (hb : Reachable b) :
    (Nat.gcd a.num.natAbs a.den = 1 ∨ a = ⟨0, 0⟩) ∧
      (a.den = 0 → a = infinity ∨ a = negInfinity ∨ a = undefined) ∧
      (a = b ↔ a.denote = b.denote) := by
  refine ⟨?_, ha.canonical.eq_of_den_eq_zero, ha.canonical.eq_iff_denote_eq hb.canonical⟩
  rcases ha.canonical with hgcd | ⟨hn, hd⟩
  · exact .inl hgcd
  · right
    rcases a with ⟨n, d⟩
    simp_all

/-- Minus five by zero, and seven by zero with its sign changed. -/
theorem canonical_of_reachable_negInfinity :
    let a := (ofInt (-5)).div zero
    let b := (ofFraction 7 0).neg
    Reachable a ∧ Reachable b ∧ a.den = 0 ∧ (a = infinity ∨ a = negInfinity ∨ a = undefined) ∧
      (a = b ↔ a.denote = b.denote) := by
  have ha : Reachable ((ofInt (-5)).div zero) := .div (.ofInt _) (.ofInt _)
  have hb : Reachable (ofFraction 7 0).neg := .neg (.ofFraction _ _)
  obtain ⟨-, hzero, heq⟩ := canonical_of_reachable ha hb
  exact ⟨ha, hb, by decide, hzero (by decide), heq⟩

end RatCalc.ExtRat
