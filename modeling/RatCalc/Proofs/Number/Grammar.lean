import RatCalc.Proofs.Number.Decimal

/-!
# The grammar of literals

Which texts are numbers, and which numbers they are, said without the reader.

* `IsSign`, `IsMantissa`, `IsExponent` — the parts of a decimal literal, each with what it stands for;
* `Denotes` — a text and its number: one of the names, or the parts one after the other;
* `takeSign_sign`, `splitExponent_append`, `readMantissa_mantissa` — the reader takes the parts of a literal apart;
* `read_eq_ok_iff` — it accepts the texts of the grammar and no others, with the number that they denote.
-/

namespace RatCalc.Literal

open Extended

/-! ## the grammar -/

def Digits (cs : List Char) : Prop := ∀ c ∈ cs, c.isDigit

/-- A sign that may be missing, and the factor it stands for. -/
inductive IsSign : List Char → ℤ → Prop
  | missing : IsSign [] 1
  | plus : IsSign ['+'] 1
  | minus : IsSign ['-'] (-1)

/-- Digits with at most one point, the number that all of them make, and how many stand after the point. -/
inductive IsMantissa : List Char → ℕ → ℕ → Prop
  | whole {ds : List Char} (hds : Digits ds) (hne : ds ≠ []) : IsMantissa ds (Nat.ofDigitChars 10 ds 0) 0
  | pointed {as bs : List Char} (has : Digits as) (hbs : Digits bs) (hne : as ++ bs ≠ []) :
      IsMantissa (as ++ '.' :: bs) (Nat.ofDigitChars 10 (as ++ bs) 0) bs.length

/-- An exponent that may be missing. -/
inductive IsExponent : List Char → ℤ → Prop
  | missing : IsExponent [] 0
  | marked {mark : Char} {s ds : List Char} {σ : ℤ} (hmark : mark = 'e' ∨ mark = 'E') (hs : IsSign s σ)
      (hds : Digits ds) (hne : ds ≠ []) : IsExponent (mark :: (s ++ ds)) (σ * Nat.ofDigitChars 10 ds 0)

/-- A text and the number that it denotes. -/
inductive Denotes : String → ExtRat → Prop
  | infinity : Denotes "Infinity" .infinity
  | plusInfinity : Denotes "+Infinity" .infinity
  | minusInfinity : Denotes "-Infinity" .negInfinity
  | undefined : Denotes "Undefined" .undefined
  | decimal {s ms es : List Char} {σ k : ℤ} {n p : ℕ} (hs : IsSign s σ) (hm : IsMantissa ms n p) (he : IsExponent es k)
      (hk : |k| ≤ 4096) : Denotes (String.ofList (s ++ ms ++ es)) (fraction (σ * n * 10 ^ (k - p))).form

/-! ## signs -/

/-- No sign at the start. -/
def StartsUnsigned (cs : List Char) : Prop := cs.head? ≠ some '+' ∧ cs.head? ≠ some '-'

theorem takeSign_of_unsigned {cs : List Char} (h : StartsUnsigned cs) : takeSign cs = (false, cs) := by
  obtain ⟨hp, hm⟩ := h
  unfold takeSign
  split
  · exact absurd rfl hm
  · exact absurd rfl hp
  · rfl

theorem takeSign_sign {s cs : List Char} {σ : ℤ} (hs : IsSign s σ) (hcs : StartsUnsigned cs) :
    ∃ negative, takeSign (s ++ cs) = (negative, cs) ∧ ∀ n, signed negative n = σ * n := by
  cases hs with
  | missing => exact ⟨false, takeSign_of_unsigned hcs, fun n => by simp [signed]⟩
  | plus => exact ⟨false, rfl, fun n => by simp [signed]⟩
  | minus => exact ⟨true, rfl, fun n => by simp [signed]⟩

theorem exists_sign (cs : List Char) :
    ∃ s σ, IsSign s σ ∧ cs = s ++ (takeSign cs).2 ∧ ∀ n, signed (takeSign cs).1 n = σ * n := by
  unfold takeSign
  split
  · exact ⟨_, _, .minus, rfl, fun n => by simp [signed]⟩
  · exact ⟨_, _, .plus, rfl, fun n => by simp [signed]⟩
  · exact ⟨_, _, .missing, rfl, fun n => by simp [signed]⟩

theorem startsUnsigned_cons {c : Char} (hc : c.isDigit ∨ c = '.') (cs : List Char) : StartsUnsigned (c :: cs) := by
  rcases hc with hc | rfl
  · have hp := ne_of_isDigit hc (show '+'.isDigit = false by decide)
    have hm := ne_of_isDigit hc (show '-'.isDigit = false by decide)
    simp [StartsUnsigned, hp, hm]
  · simp [StartsUnsigned]

/-! ## exponents -/

theorem all_isDigit_iff {cs : List Char} : cs.all Char.isDigit = true ↔ Digits cs := by simp [Digits]

theorem startsUnsigned_digits {ds : List Char} (hds : Digits ds) (hne : ds ≠ []) : StartsUnsigned ds := by
  obtain ⟨d, ds, rfl⟩ := List.exists_cons_of_ne_nil hne
  exact startsUnsigned_cons (.inl (hds d (by simp))) ds

/-- Digits under a sign, as long as the integer has 64 bits. -/
theorem readExponent?_sign {s ds : List Char} {σ : ℤ} (hs : IsSign s σ) (hds : Digits ds) (hne : ds ≠ [])
    (hk : |σ * Nat.ofDigitChars 10 ds 0| ≤ 4096) :
    readExponent? (s ++ ds) = some (σ * Nat.ofDigitChars 10 ds 0) := by
  obtain ⟨negative, htake, hsigned⟩ := takeSign_sign hs (startsUnsigned_digits hds hne)
  have hvalue : signed negative (digitsValue ds) = σ * Nat.ofDigitChars 10 ds 0 := hsigned _
  have hbounds := abs_le.1 hk
  unfold readExponent?
  rw [htake]
  simp only [hvalue, all_isDigit_iff.2 hds, Bool.not_true, Bool.or_false, List.isEmpty_iff, hne, if_false]
  rw [if_pos (by omega)]

theorem exponent_of_readExponent? {mark : Char} (hmark : mark = 'e' ∨ mark = 'E') {cs : List Char} {k : ℤ}
    (h : readExponent? cs = some k) : IsExponent (mark :: cs) k := by
  obtain ⟨s, σ, hs, hcs, hsigned⟩ := exists_sign cs
  unfold readExponent? at h
  generalize takeSign cs = parts at h hcs hsigned
  obtain ⟨negative, ds⟩ := parts
  dsimp only at h hcs hsigned
  split at h
  · cases h
  · rename_i hdigits
    simp only [Bool.or_eq_true, List.isEmpty_iff, Bool.not_eq_true', not_or, Bool.not_eq_false] at hdigits
    split at h
    · cases h
      rw [hsigned, hcs]
      exact .marked hmark hs (all_isDigit_iff.1 hdigits.2) hdigits.1
    · cases h

theorem isExponentMark_iff {c : Char} : isExponentMark c = true ↔ c = 'e' ∨ c = 'E' := by simp [isExponentMark]

/-- A text without marks before an exponent. -/
theorem splitExponent_append {ms es : List Char} {k : ℤ} (hms : ∀ c ∈ ms, isExponentMark c = false)
    (he : IsExponent es k) (hk : |k| ≤ 4096) : splitExponent (ms ++ es) = .ok (ms, k) := by
  have hall : ∀ c ∈ ms, (!isExponentMark c) = true := by
    intro c hc
    rw [hms c hc]
    rfl
  unfold splitExponent
  cases he with
  | missing =>
    rw [List.append_nil, List.dropWhile_eq_nil_iff.2 hall]
  | marked hmark hs hds hne =>
    have hmark := isExponentMark_iff.2 hmark
    rw [List.dropWhile_append_of_pos hall, List.takeWhile_append_of_pos hall, List.dropWhile_cons_of_neg (by simp [hmark]),
      List.takeWhile_cons_of_neg (by simp [hmark])]
    simp only [readExponent?_sign hs hds hne hk, List.append_nil]

theorem of_splitExponent {cs ms : List Char} {k : ℤ} (h : splitExponent cs = .ok (ms, k)) :
    ∃ es, cs = ms ++ es ∧ IsExponent es k := by
  have hsplit := (List.takeWhile_append_dropWhile (p := (!isExponentMark ·)) (l := cs)).symm
  unfold splitExponent at h
  split at h
  · cases h
    exact ⟨[], (List.append_nil _).symm, .missing⟩
  · rename_i mark tail hdrop
    split at h
    · rename_i k' hread
      cases h
      rw [hdrop] at hsplit
      have hmark : isExponentMark mark = true := by
        have hne : cs.dropWhile (!isExponentMark ·) ≠ [] := by simp [hdrop]
        have hhead := List.head_dropWhile_not (!isExponentMark ·) hne
        simp only [hdrop, List.head_cons] at hhead
        simpa using hhead
      exact ⟨mark :: tail, hsplit, exponent_of_readExponent? (isExponentMark_iff.1 hmark) hread⟩
    · cases h

/-! ## mantissas -/

/-- A mantissa starts with a digit or its point, and holds no exponent mark. -/
theorem IsMantissa.chars {ms : List Char} {n p : ℕ} (h : IsMantissa ms n p) :
    (∃ c cs, ms = c :: cs ∧ (c.isDigit ∨ c = '.')) ∧ ∀ c ∈ ms, isExponentMark c = false := by
  cases h with
  | whole hds hne =>
    obtain ⟨d, ds, rfl⟩ := List.exists_cons_of_ne_nil hne
    exact ⟨⟨d, ds, rfl, .inl (hds d (by simp))⟩, fun c hc => isExponentMark_of_isDigit (hds c hc)⟩
  | @pointed as bs has hbs hne =>
    refine ⟨?_, ?_⟩
    · cases as with
      | nil => exact ⟨'.', bs, rfl, .inr rfl⟩
      | cons a as => exact ⟨a, _, rfl, .inl (has a (by simp))⟩
    · intro c hc
      rcases List.mem_append.1 hc with hc | hc
      · exact isExponentMark_of_isDigit (has c hc)
      · rcases List.mem_cons.1 hc with rfl | hc
        · decide
        · exact isExponentMark_of_isDigit (hbs c hc)

theorem isMantissa_pointed {whole places : List Char} (hw : Digits whole) (hp : Digits places) (hne : whole ≠ []) :
    IsMantissa (pointed whole places) (Nat.ofDigitChars 10 (whole ++ places) 0) places.length := by
  unfold pointed
  split
  · rename_i h
    rw [h, List.append_nil]
    exact .whole hw hne
  · exact .pointed hw hp (by simp [hne])

theorem readMantissa_of_split (negative : Bool) (k : ℤ) {ms as bs : List Char} (hsplit : splitPoint ms = (as, bs))
    (has : Digits as) (hbs : Digits bs) (hne : as ++ bs ≠ []) :
    readMantissa negative ms k = .ok (scaled (signed negative (digitsValue (as ++ bs))) (k - bs.length)) := by
  have hall : (as ++ bs).all Char.isDigit = true := all_isDigit_iff.2 (List.forall_mem_append.2 ⟨has, hbs⟩)
  have hempty : (as.isEmpty && bs.isEmpty) = false := by
    rw [← Bool.not_eq_true, Bool.and_eq_true, List.isEmpty_iff, List.isEmpty_iff, ← List.append_eq_nil_iff]
    exact hne
  simp only [readMantissa, hsplit, hempty, hall, Bool.not_true, Bool.false_eq_true, if_false]

theorem readMantissa_mantissa {ms : List Char} {n p : ℕ} (h : IsMantissa ms n p) (negative : Bool) (k : ℤ) :
    readMantissa negative ms k = .ok (scaled (signed negative n) (k - p)) := by
  cases h with
  | @whole ds hds hne =>
    have hread := readMantissa_of_split negative k (splitPoint_digits hds) hds (by simp [Digits]) (by simpa using hne)
    rwa [List.append_nil] at hread
  | pointed has hbs hne => exact readMantissa_of_split negative k (splitPoint_point _ has) has hbs hne

/-- With a point the rest starts with it, and without one there is no rest. -/
theorem splitPoint_cases (ms : List Char) :
    ∃ as bs, splitPoint ms = (as, bs) ∧ (ms = as ∧ bs = [] ∨ ms = as ++ '.' :: bs) := by
  have hsplit := (List.takeWhile_append_dropWhile (p := (· != '.')) (l := ms)).symm
  refine ⟨_, _, rfl, ?_⟩
  cases hdrop : ms.dropWhile (· != '.') with
  | nil =>
    rw [hdrop, List.append_nil] at hsplit
    exact .inl ⟨hsplit, rfl⟩
  | cons c bs =>
    have hc : c = '.' := by
      have hhead := List.head_dropWhile_not (· != '.') (l := ms) (by simp [hdrop])
      simp only [hdrop, List.head_cons] at hhead
      simpa using hhead
    rw [hdrop, hc] at hsplit
    exact .inr hsplit

theorem of_readMantissa {negative : Bool} {ms : List Char} {k : ℤ} {r : ExtRat}
    (h : readMantissa negative ms k = .ok r) :
    ∃ n p, IsMantissa ms n p ∧ r = scaled (signed negative n) (k - p) := by
  obtain ⟨as, bs, hsplit, hms⟩ := splitPoint_cases ms
  simp only [readMantissa, hsplit] at h
  split at h
  · cases h
  · rename_i hempty
    split at h
    · cases h
    · rename_i hdigits
      obtain ⟨has, hbs⟩ := List.forall_mem_append.1 (all_isDigit_iff.1 (by simpa using hdigits))
      have hne : as ++ bs ≠ [] := by simpa using hempty
      cases h
      rcases hms with ⟨rfl, rfl⟩ | rfl
      · rw [List.append_nil] at hne ⊢
        exact ⟨_, _, .whole has hne, rfl⟩
      · exact ⟨_, _, .pointed has hbs hne, rfl⟩

/-! ## literals -/

theorem readPlain_parts {s ms es : List Char} {σ k : ℤ} {n p : ℕ} (hs : IsSign s σ) (hm : IsMantissa ms n p)
    (he : IsExponent es k) (hk : |k| ≤ 4096) :
    readPlain (s ++ ms ++ es) = .ok (fraction (σ * n * 10 ^ (k - p))).form := by
  obtain ⟨⟨c, cs, hcs, hc⟩, hmarks⟩ := hm.chars
  have hunsigned : StartsUnsigned (ms ++ es) := by
    rw [hcs]
    exact startsUnsigned_cons hc _
  obtain ⟨negative, htake, hsigned⟩ := takeSign_sign hs hunsigned
  have hempty : (s ++ (ms ++ es)).isEmpty = false := by simp [hcs]
  have hrange : ¬ maxExponent < k.natAbs := by
    have hbounds := abs_le.1 hk
    unfold maxExponent
    omega
  rw [List.append_assoc, readPlain, hempty, htake]
  simp only [splitExponent_append hmarks he hk, hrange, Bool.false_eq_true, if_false]
  rw [readMantissa_mantissa hm, hsigned, scaled_form]
  push_cast
  rfl

theorem of_readPlain {cs : List Char} {r : ExtRat} (h : readPlain cs = .ok r) :
    ∃ s ms es σ n p k, cs = s ++ ms ++ es ∧ IsSign s σ ∧ IsMantissa ms n p ∧ IsExponent es k ∧ |k| ≤ 4096 ∧
      r = (fraction (σ * n * 10 ^ (k - p))).form := by
  obtain ⟨s, σ, hs, hcs, hsigned⟩ := exists_sign cs
  simp only [readPlain] at h
  split at h
  · cases h
  · split at h
    · cases h
    · rename_i ms k hsplit
      obtain ⟨es, hrest, he⟩ := of_splitExponent hsplit
      split at h
      · cases h
      · rename_i hrange
        obtain ⟨n, p, hm, rfl⟩ := of_readMantissa h
        refine ⟨s, ms, es, σ, n, p, k, ?_, hs, hm, he, ?_, ?_⟩
        · rw [List.append_assoc, ← hrest]
          exact hcs
        · rw [maxExponent] at hrange
          exact abs_le.2 (by omega)
        · rw [hsigned, scaled_form]
          push_cast
          rfl

/-- The names start with a letter, after their sign if they have one; a decimal literal does not. -/
theorem ne_name {s ms es : List Char} {σ : ℤ} {n p : ℕ} (hs : IsSign s σ) (hm : IsMantissa ms n p) {name : String}
    (hname : (takeSign name.toList).2.head? = some 'I' ∨ (takeSign name.toList).2.head? = some 'U') :
    String.ofList (s ++ ms ++ es) ≠ name := by
  rintro rfl
  obtain ⟨⟨c, cs, rfl, hc⟩, -⟩ := hm.chars
  obtain ⟨negative, htake, -⟩ := takeSign_sign hs (startsUnsigned_cons hc (cs ++ es))
  rw [String.toList_ofList, List.append_assoc, List.cons_append, htake] at hname
  rcases hname with h | h
  · obtain rfl : c = 'I' := by simpa using h
    revert hc
    decide
  · obtain rfl : c = 'U' := by simpa using h
    revert hc
    decide

/-- **The reader accepts exactly the grammar**, and gives each text of it the number that the text denotes. -/
theorem read_eq_ok_iff {text : String} {r : ExtRat} : read text = .ok r ↔ Denotes text r := by
  constructor
  · intro h
    unfold read at h
    split at h
    · rename_i hname
      cases h
      rcases hname with rfl | rfl
      · exact .infinity
      · exact .plusInfinity
    · split at h
      · rename_i hname
        cases h
        rw [hname]
        exact .minusInfinity
      · split at h
        · rename_i hname
          cases h
          rw [hname]
          exact .undefined
        · obtain ⟨s, ms, es, σ, n, p, k, htext, hs, hm, he, hk, rfl⟩ := of_readPlain h
          rw [← String.ofList_toList (s := text), htext]
          exact .decimal hs hm he hk
  · intro h
    cases h with
    | infinity => rfl
    | plusInfinity => rfl
    | minusInfinity => rfl
    | undefined => rfl
    | decimal hs hm he hk =>
      rw [read, if_neg, if_neg, if_neg, String.toList_ofList, readPlain_parts hs hm he hk]
      · exact ne_name hs hm (.inr (by decide))
      · exact ne_name hs hm (.inl (by decide))
      · rintro (h | h)
        · exact ne_name hs hm (.inl (by decide)) h
        · exact ne_name hs hm (.inl (by decide)) h

example : read "5." = .ok ⟨5, 1⟩ ∧ read ".5" = .ok ⟨1, 2⟩ ∧ read "." = .error .noDigits := by decide

end RatCalc.Literal
