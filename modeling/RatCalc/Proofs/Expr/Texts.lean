import RatCalc.Expr.Operator
import Mathlib

/-!
# Texts that end where the next begins

* `append_inj_of_head` — a text of characters of one kind ends at the first of another kind;
* `Closes`, `ReadsAs` — a text that is read up to a comma, a closing parenthesis or the end;
* `listed_inj` — a list in parentheses can be read if its entries can;
* `symbol_append_inj` — so can the symbols of operators.
-/

namespace RatCalc

/-! ## texts -/

/-- Characters of one kind before others end where the others begin. -/
theorem append_inj_of_head {p : Char → Bool} {w w' s s' : List Char} (hw : ∀ c ∈ w, p c = true)
    (hw' : ∀ c ∈ w', p c = true) (hs : ∀ c ∈ s.head?, p c = false) (hs' : ∀ c ∈ s'.head?, p c = false)
    (h : w ++ s = w' ++ s') : w = w' ∧ s = s' := by
  have hstop : ∀ {w s : List Char}, (∀ c ∈ w, p c = true) → (∀ c ∈ s.head?, p c = false) →
      (w ++ s).takeWhile p = w := by
    intro w s hw hs
    rw [List.takeWhile_append_of_pos hw]
    cases s with
    | nil => simp
    | cons c s => rw [List.takeWhile_cons_of_neg (by simp [hs c rfl]), List.append_nil]
  have hwords : w = w' := by rw [← hstop hw hs, h, hstop hw' hs']
  subst hwords
  exact ⟨rfl, List.append_cancel_left h⟩

/-- The text has a first character, with the property. -/
def Starts (p : Char → Prop) (s : List Char) : Prop := ∃ c cs, s = c :: cs ∧ p c

theorem Starts.append {p : Char → Prop} {s : List Char} (h : Starts p s) (t : List Char) : Starts p (s ++ t) := by
  obtain ⟨c, cs, rfl, hc⟩ := h
  exact ⟨c, cs ++ t, rfl, hc⟩

theorem Starts.ne_cons {p : Char → Prop} {s : List Char} (h : Starts p s) {d : Char} (hd : ¬ p d) (t : List Char) :
    s ≠ d :: t := by
  obtain ⟨c, cs, rfl, hc⟩ := h
  rintro ⟨⟩
  exact hd hc

theorem Starts.imp {p q : Char → Prop} {s : List Char} (h : Starts p s) (hpq : ∀ c, p c → q c) : Starts q s := by
  obtain ⟨c, cs, rfl, hc⟩ := h
  exact ⟨c, cs, rfl, hpq c hc⟩

/-- What may come behind an expression: the end, a comma or a closing parenthesis. -/
def Closes (s : List Char) : Prop := ∀ c ∈ s.head?, c = ',' ∨ c = ')'

theorem closes_nil : Closes [] := nofun

theorem closes_cons {c : Char} (s : List Char) (h : c = ',' ∨ c = ')') : Closes (c :: s) := by
  rintro _ ⟨⟩
  exact h

/-! ## lists -/

/-- Texts with commas between them. -/
def listed (ts : List (List Char)) : List Char := [',', ' '].intercalate ts

theorem listed_cons (t : List Char) (ts : List (List Char)) : listed (t :: ts) = t ++ ts.flatMap (',' :: ' ' :: ·) := by
  induction ts generalizing t with
  | nil => simp [listed]
  | cons u us ih =>
    have ih := ih u
    rw [listed] at ih ⊢
    rw [List.intercalate_cons_cons, ih]
    simp

section Listed

variable {α : Type} {text : α → List Char} {domain : α → Prop} {as bs : List α} {s t : List Char}

/-- The text of `a` tells it from the others of the domain, and ends where something closes. -/
def ReadsAs (text : α → List Char) (domain : α → Prop) (a : α) : Prop :=
  ∀ ⦃b s t⦄, domain b → Closes s → Closes t → text a ++ s = text b ++ t → a = b ∧ s = t

theorem closes_flatMap (text : α → List Char) (as : List α) (s : List Char) :
    Closes (as.flatMap (',' :: ' ' :: text ·) ++ ')' :: s) := by
  cases as with
  | nil => exact closes_cons _ (.inr rfl)
  | cons a as => exact closes_cons _ (.inl rfl)

theorem flatMap_inj (has : ∀ a ∈ as, ReadsAs text domain a) (hbs : ∀ b ∈ bs, domain b)
    (h : as.flatMap (',' :: ' ' :: text ·) ++ ')' :: s = bs.flatMap (',' :: ' ' :: text ·) ++ ')' :: t) :
    as = bs ∧ s = t := by
  induction as generalizing bs with
  | nil =>
    cases bs with
    | nil => simpa using h
    | cons b bs => simp at h
  | cons a as ih =>
    cases bs with
    | nil => simp at h
    | cons b bs =>
      simp only [List.flatMap_cons, List.cons_append, List.append_assoc, List.cons.injEq, true_and] at h
      obtain ⟨ha, has⟩ := List.forall_mem_cons.1 has
      obtain ⟨hb, hbs⟩ := List.forall_mem_cons.1 hbs
      obtain ⟨hab, hrest⟩ := ha hb (closes_flatMap text as s) (closes_flatMap text bs t) h
      obtain ⟨htail, hst⟩ := ih has hbs hrest
      exact ⟨by rw [hab, htail], hst⟩

/-- A list before a closing parenthesis can be read if its entries can. -/
theorem listed_inj (has : ∀ a ∈ as, ReadsAs text domain a) (hbs : ∀ b ∈ bs, domain b)
    (hstart : ∀ x ∈ as ++ bs, Starts (· ≠ ')') (text x))
    (h : listed (as.map text) ++ ')' :: s = listed (bs.map text) ++ ')' :: t) : as = bs ∧ s = t := by
  cases as with
  | nil =>
    cases bs with
    | nil => simpa using h
    | cons b bs =>
      rw [List.map_cons, listed_cons, List.append_assoc] at h
      exact absurd h.symm (((hstart b (by simp)).append _).ne_cons (by simp) _)
  | cons a as =>
    rw [List.map_cons, listed_cons, List.append_assoc] at h
    cases bs with
    | nil => exact absurd h (((hstart a (by simp)).append _).ne_cons (by simp) _)
    | cons b bs =>
      rw [List.map_cons, listed_cons, List.append_assoc, List.flatMap_map, List.flatMap_map] at h
      obtain ⟨ha, has⟩ := List.forall_mem_cons.1 has
      obtain ⟨hb, hbs⟩ := List.forall_mem_cons.1 hbs
      obtain ⟨hab, hrest⟩ := ha hb (closes_flatMap text as s) (closes_flatMap text bs t) h
      obtain ⟨htail, hst⟩ := flatMap_inj has hbs hrest
      exact ⟨by rw [hab, htail], hst⟩

end Listed

/-! ## words -/

/-- A text of digits. -/
def IsNumeral (s : String) : Prop := s ≠ "" ∧ ∀ c ∈ s.toList, c.isDigit = true

/-- A text of letters; the names of operators are not left out. -/
def IsName (s : String) : Prop := s ≠ "" ∧ ∀ c ∈ s.toList, c.isAlpha = true

theorem IsNumeral.isAlphanum {s : String} (h : IsNumeral s) : ∀ c ∈ s.toList, c.isAlphanum = true :=
  fun c hc => by simp [Char.isAlphanum, h.2 c hc]

theorem IsName.isAlphanum {s : String} (h : IsName s) : ∀ c ∈ s.toList, c.isAlphanum = true :=
  fun c hc => by simp [Char.isAlphanum, h.2 c hc]

theorem starts_of_ne_empty {s : String} {p : Char → Prop} (hne : s ≠ "") (h : ∀ c ∈ s.toList, p c) : Starts p s.toList := by
  cases hs : s.toList with
  | nil => exact absurd (String.toList_injective (hs.trans String.toList_empty.symm)) hne
  | cons c cs => exact ⟨c, cs, rfl, h c (by simp [hs])⟩

theorem IsName.starts {s : String} (h : IsName s) : Starts (· ≠ ')') s.toList :=
  (starts_of_ne_empty h.1 h.2).imp fun c => by rintro hc rfl; cases hc

theorem not_isAlpha_of_isDigit {c : Char} (h : c.isDigit = true) : c.isAlpha = false := by
  grind [Char.isDigit, Char.isAlpha, Char.isUpper, Char.isLower]

theorem readsAs_name {p : String} (h : IsName p) : ReadsAs String.toList IsName p := by
  intro q s t hq hs ht htext
  have hnot : ∀ {s : List Char}, Closes s → ∀ c ∈ s.head?, c.isAlpha = false := by
    intro s hs c hc
    rcases hs c hc with rfl | rfl <;> decide
  obtain ⟨hpq, hst⟩ := append_inj_of_head h.2 hq.2 (hnot hs) (hnot ht) htext
  exact ⟨String.toList_injective hpq, hst⟩

/-! ## symbols -/

/-- The mark of an operator on one operand. -/
def IsMark (c : Char) : Prop := c = '+' ∨ c = '-' ∨ c = '%'

instance : DecidablePred IsMark := fun _ => inferInstanceAs (Decidable (_ ∨ _ ∨ _))

theorem IsMark.ne_space {c : Char} (h : IsMark c) : c ≠ ' ' := by rcases h with rfl | rfl | rfl <;> decide

theorem IsMark.not_closes {c : Char} (h : IsMark c) (s : List Char) : ¬ Closes (c :: s) := by
  intro hclose
  have hc := hclose c rfl
  rcases h with rfl | rfl | rfl <;> revert hc <;> decide

namespace UnaryOp

variable {op op' : UnaryOp} {s t : List Char}

theorem exists_toList_symbol (op : UnaryOp) : ∃ c, op.symbol.toList = [c] ∧ IsMark c := by
  cases op <;> exact ⟨_, rfl, by decide⟩

theorem ofSymbol?_symbol (op : UnaryOp) : ofSymbol? op.symbol = some op := by cases op <;> decide

theorem symbol_injective : Function.Injective symbol := by
  intro op op' h
  have hop := op.ofSymbol?_symbol
  rw [h, op'.ofSymbol?_symbol] at hop
  exact (Option.some.inj hop).symm

theorem symbol_append_inj (h : op.symbol.toList ++ s = op'.symbol.toList ++ t) : op = op' ∧ s = t := by
  obtain ⟨c, hc, -⟩ := op.exists_toList_symbol
  obtain ⟨c', hc', -⟩ := op'.exists_toList_symbol
  obtain ⟨hops, hst⟩ := List.append_inj h (by rw [hc, hc', List.length_singleton, List.length_singleton])
  exact ⟨symbol_injective (String.toList_injective hops), hst⟩

end UnaryOp

namespace BinaryOp

variable {op op' : BinaryOp} {s t : List Char}

theorem ofSymbol?_symbol (op : BinaryOp) : ofSymbol? op.symbol = some op := by cases op <;> decide

theorem symbol_injective : Function.Injective symbol := by
  intro op op' h
  have hop := op.ofSymbol?_symbol
  rw [h, op'.ofSymbol?_symbol] at hop
  exact (Option.some.inj hop).symm

theorem ne_space_of_mem_symbol (op : BinaryOp) : ∀ c ∈ op.symbol.toList, (c != ' ') = true := by
  cases op <;> simp [symbol]

/-- A symbol ends at the space behind it. -/
theorem symbol_append_inj (h : op.symbol.toList ++ ' ' :: s = op'.symbol.toList ++ ' ' :: t) : op = op' ∧ s = t := by
  obtain ⟨hops, hst⟩ :=
    append_inj_of_head op.ne_space_of_mem_symbol op'.ne_space_of_mem_symbol (by simp) (by simp) h
  exact ⟨symbol_injective (String.toList_injective hops), List.tail_eq_of_cons_eq hst⟩

end BinaryOp

end RatCalc
