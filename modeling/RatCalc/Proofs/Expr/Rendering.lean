import RatCalc.Token
import RatCalc.Proofs.Expr.Texts

/-!
# Texts tell trees apart

An operand is a word, or a text in parentheses, with any number of calls behind it; where it ends is seen from the next
character.  So the text of an expression can be read from the left, and from it the tree.

* `Infix` — trees of literals, variables, operators, calls and functions, with words for all names and numbers;
* `Readable`, `ReadableOperand` — a text tells the tree, and the place where it ends;
* `readable` — every such tree is readable, by induction on the tree;
* `render_injOn` — no two of them have the same text.
-/

namespace RatCalc

namespace Expr

variable {φ : Type}

/-- Trees of literals, variables, operators, calls and functions, all of whose names and numbers are words. -/
inductive Infix : Expr φ → Prop
  | num {text : String} : IsNumeral text → Infix (.num text)
  | var {name : String} : IsName name → Infix (.var name)
  | unary (op : UnaryOp) (place : Place) {e : Expr φ} : Infix e → Infix (.unary op place e)
  | binary (op : BinaryOp) {a b : Expr φ} : Infix a → Infix b → Infix (.binary op a b)
  | apply {f : Expr φ} {as : List (Expr φ)} : Infix f → (∀ a ∈ as, Infix a) → Infix (.apply f as)
  | lambda {ps : List String} {e : Expr φ} : (∀ p ∈ ps, IsName p) → Infix e → Infix (.lambda ps e)

/-- A literal or a variable. -/
inductive Word : Expr φ → Prop
  | num {text : String} : IsNumeral text → Word (.num text)
  | var {name : String} : IsName name → Word (.var name)

def isCall : Expr φ → Bool
  | .apply .. => true
  | _ => false

theorem Word.toInfix {e : Expr φ} (h : e.Word) : e.Infix := by
  cases h with
  | num h => exact .num h
  | var h => exact .var h

theorem Word.isAtomic {e : Expr φ} (h : e.Word) : e.isAtomic = true := by cases h <;> rfl

theorem Infix.word_or_not_isAtomic {e : Expr φ} (h : e.Infix) (hcall : e.isCall = false) :
    e.Word ∨ e.isAtomic = false := by
  cases h with
  | num h => exact .inl (.num h)
  | var h => exact .inl (.var h)
  | apply => cases hcall
  | _ => exact .inr rfl

/-- A tree with calls behind it. -/
def applied (f : Expr φ) (calls : List (List (Expr φ))) : Expr φ := calls.foldl .apply f

/-- Every tree is one that is no call with calls behind it. -/
theorem Infix.exists_applied {e : Expr φ} (h : e.Infix) :
    ∃ f calls, f.Infix ∧ f.isCall = false ∧ (∀ as ∈ calls, ∀ a ∈ as, a.Infix) ∧ e = applied f calls := by
  induction h with
  | @apply f as _ has ihf _ =>
    obtain ⟨g, calls, hg, hcall, hcalls, rfl⟩ := ihf
    refine ⟨g, calls ++ [as], hg, hcall, ?_, by simp [applied]⟩
    exact List.forall_mem_append.2 ⟨hcalls, by simpa using has⟩
  | num h => exact ⟨_, [], .num h, rfl, by simp, rfl⟩
  | var h => exact ⟨_, [], .var h, rfl, by simp, rfl⟩
  | unary op place h _ => exact ⟨_, [], .unary op place h, rfl, by simp, rfl⟩
  | binary op ha hb _ _ => exact ⟨_, [], .binary op ha hb, rfl, by simp, rfl⟩
  | lambda hps h _ => exact ⟨_, [], .lambda hps h, rfl, by simp, rfl⟩

/-! ## texts of trees -/

section Texts

variable [ForeignKind φ]

def chars (e : Expr φ) : List Char := e.render.toList

/-- The text as an operand. -/
def operandChars (e : Expr φ) : List Char := (asOperand e e.render).toList

theorem operandChars_of_isAtomic {e : Expr φ} (h : e.isAtomic = true) : e.operandChars = e.chars := by
  rw [operandChars, asOperand, if_pos h, chars]

theorem toList_parenthesized (text : String) : (parenthesized text).toList = '(' :: (text.toList ++ [')']) := by
  rw [parenthesized, String.toList_append, String.toList_append]
  rfl

theorem operandChars_of_not_isAtomic {e : Expr φ} (h : e.isAtomic = false) :
    e.operandChars = '(' :: (e.chars ++ [')']) := by
  rw [operandChars, asOperand, if_neg (by simp [h]), toList_parenthesized, chars]

theorem renderList_eq_map (es : List (Expr φ)) : renderList es = es.map render := by
  induction es with
  | nil => rfl
  | cons e es ih => rw [renderList, ih, List.map_cons]

theorem toList_commas (ts : List String) : (String.intercalate ", " ts).toList = listed (ts.map String.toList) := by
  rw [String.toList_intercalate]
  rfl

theorem chars_before (op : UnaryOp) (e : Expr φ) : chars (.unary op .before e) = op.symbol.toList ++ e.operandChars := by
  rw [chars, render, String.toList_append, operandChars]

theorem chars_after (op : UnaryOp) (e : Expr φ) : chars (.unary op .after e) = e.operandChars ++ op.symbol.toList := by
  rw [chars, render, String.toList_append, operandChars]

theorem chars_binary (op : BinaryOp) (a b : Expr φ) :
    chars (.binary op a b) = a.operandChars ++ ' ' :: (op.symbol.toList ++ ' ' :: b.operandChars) := by
  rw [chars, render]
  simp [operandChars]

theorem chars_apply (f : Expr φ) (as : List (Expr φ)) :
    chars (.apply f as) = f.operandChars ++ '(' :: (listed (as.map chars) ++ [')']) := by
  have hargs : (as.map render).map String.toList = as.map chars := List.map_map
  rw [chars, render, String.toList_append, toList_parenthesized, toList_commas, renderList_eq_map, hargs, operandChars]

theorem chars_lambda (ps : List String) (e : Expr φ) :
    chars (.lambda ps e) =
      '(' :: (listed (ps.map String.toList) ++ ')' :: ' ' :: '-' :: '>' :: ' ' :: e.operandChars) := by
  rw [chars, render, String.toList_append, String.toList_append, toList_parenthesized, toList_commas, operandChars]
  simp

/-! ## first characters -/

/-- The first characters of operands. -/
def OperandStart (c : Char) : Prop := c.isAlphanum = true ∨ c = '('

instance : DecidablePred OperandStart := fun _ => inferInstanceAs (Decidable (_ ∨ _))

theorem not_operandStart_of_isMark {c : Char} (h : IsMark c) : ¬ OperandStart c := by
  rcases h with rfl | rfl | rfl <;> decide

/-- What may come behind an operand with its calls. -/
def Bounds (s : List Char) : Prop := ∀ c ∈ s.head?, ¬ OperandStart c

theorem starts_operandChars {e : Expr φ} (h : e.Infix) : Starts OperandStart e.operandChars := by
  have hatomic : ∀ {e : Expr φ}, (e.isAtomic = true → Starts OperandStart e.chars) → Starts OperandStart e.operandChars := by
    intro e hchars
    cases hatom : e.isAtomic with
    | true => rw [operandChars_of_isAtomic hatom]; exact hchars hatom
    | false => rw [operandChars_of_not_isAtomic hatom]; exact ⟨_, _, rfl, .inr rfl⟩
  induction h with
  | num h => exact hatomic fun _ => starts_of_ne_empty h.1 fun c hc => .inl (h.isAlphanum c hc)
  | var h => exact hatomic fun _ => starts_of_ne_empty h.1 fun c hc => .inl (h.isAlphanum c hc)
  | apply _ _ ihf _ =>
    refine hatomic fun _ => ?_
    rw [chars_apply]
    exact ihf.append _
  | _ => exact hatomic nofun

theorem starts_chars {e : Expr φ} (h : e.Infix) :
    Starts (fun c => OperandStart c ∨ IsMark c) e.chars := by
  have hatomic : e.isAtomic = true → Starts (fun c => OperandStart c ∨ IsMark c) e.chars := by
    intro hatom
    rw [← operandChars_of_isAtomic hatom]
    exact (starts_operandChars h).imp fun _ => .inl
  cases h with
  | unary op place h =>
    cases place with
    | before =>
      obtain ⟨c, hc, hmark⟩ := op.exists_toList_symbol
      rw [chars_before, hc]
      exact ⟨c, _, rfl, .inr hmark⟩
    | after =>
      rw [chars_after]
      exact ((starts_operandChars h).imp fun _ => .inl).append _
  | binary op h =>
    rw [chars_binary]
    exact ((starts_operandChars h).imp fun _ => .inl).append _
  | lambda =>
    rw [chars_lambda]
    exact ⟨_, _, rfl, .inl (.inr rfl)⟩
  | _ => exact hatomic rfl

theorem starts_chars_ne {e : Expr φ} (h : e.Infix) : Starts (· ≠ ')') e.chars := by
  refine (starts_chars h).imp ?_
  rintro _ hc rfl
  rcases hc with hc | hc
  · exact absurd hc (by decide)
  · exact absurd hc (by simp [IsMark])

/-! ## words -/

theorem Word.isAlphanum {e : Expr φ} (h : e.Word) : ∀ c ∈ e.chars, c.isAlphanum = true := by
  cases h with
  | num h => exact h.isAlphanum
  | var h => exact h.isAlphanum

theorem Word.starts {e : Expr φ} (h : e.Word) : Starts (·.isAlphanum = true) e.chars := by
  cases h with
  | num h => exact starts_of_ne_empty h.1 h.isAlphanum
  | var h => exact starts_of_ne_empty h.1 h.isAlphanum

/-- Digits are no letters, so a literal is no variable. -/
theorem num_ne_var {text name : String} (ht : IsNumeral text) (hn : IsName name) : text ≠ name := by
  rintro rfl
  obtain ⟨c, cs, htext, hc⟩ := starts_of_ne_empty ht.1 ht.2
  have halpha := hn.2 c (by simp [htext])
  rw [not_isAlpha_of_isDigit hc] at halpha
  cases halpha

theorem Word.eq_of_chars {a b : Expr φ} (ha : a.Word) (hb : b.Word) (h : a.chars = b.chars) : a = b := by
  cases ha with
  | num ha =>
    cases hb with
    | num hb => exact congrArg Expr.num (String.toList_injective h)
    | var hb => exact absurd (String.toList_injective h) (num_ne_var ha hb)
  | var ha =>
    cases hb with
    | num hb => exact absurd (String.toList_injective h).symm (num_ne_var hb ha)
    | var hb => exact congrArg Expr.var (String.toList_injective h)

/-! ## calls -/

/-- The text of calls. -/
def callChars (calls : List (List (Expr φ))) : List Char := calls.flatMap fun as => '(' :: (listed (as.map chars) ++ [')'])

theorem operandChars_applied (f : Expr φ) (calls : List (List (Expr φ))) :
    operandChars (applied f calls) = f.operandChars ++ callChars calls := by
  induction calls generalizing f with
  | nil => simp [applied, callChars]
  | cons as calls ih =>
    have happly : operandChars (.apply f as) = f.operandChars ++ '(' :: (listed (as.map chars) ++ [')']) := by
      rw [operandChars_of_isAtomic rfl, chars_apply]
    rw [applied, List.foldl_cons, ← applied, ih, happly, callChars, callChars, List.flatMap_cons]
    simp

/-- The text tells the tree, before anything that closes. -/
def Readable (e : Expr φ) : Prop := ReadsAs chars Infix e

variable {calls calls' : List (List (Expr φ))} {s t : List Char}

theorem not_isAlphanum_callChars (calls : List (List (Expr φ))) (hs : Bounds s) :
    ∀ c ∈ (callChars calls ++ s).head?, c.isAlphanum = false := by
  cases calls with
  | nil => exact fun c hc => Bool.eq_false_iff.2 fun h => hs c hc (.inl h)
  | cons as calls =>
    rintro _ ⟨⟩
    decide

theorem callChars_inj (hcalls : ∀ as ∈ calls, ∀ a ∈ as, a.Infix ∧ a.Readable)
    (hcalls' : ∀ as ∈ calls', ∀ a ∈ as, a.Infix) (hs : Bounds s) (ht : Bounds t)
    (h : callChars calls ++ s = callChars calls' ++ t) : calls = calls' ∧ s = t := by
  have hcall : ∀ {as : List (Expr φ)} {calls : List (List (Expr φ))} {s t : List Char}, Bounds s →
      s ≠ callChars (as :: calls) ++ t := by
    rintro as calls s t hs rfl
    exact hs '(' rfl (.inr rfl)
  induction calls generalizing calls' with
  | nil =>
    cases calls' with
    | nil => exact ⟨rfl, h⟩
    | cons bs calls' => exact absurd h (hcall hs)
  | cons as calls ih =>
    cases calls' with
    | nil => exact absurd h.symm (hcall ht)
    | cons bs calls' =>
      obtain ⟨has, hcalls⟩ := List.forall_mem_cons.1 hcalls
      obtain ⟨hbs, hcalls'⟩ := List.forall_mem_cons.1 hcalls'
      simp only [callChars, List.flatMap_cons, List.cons_append, List.append_assoc, List.nil_append, List.cons.injEq,
        true_and] at h
      have hstart : ∀ x ∈ as ++ bs, Starts (· ≠ ')') x.chars :=
        List.forall_mem_append.2 ⟨fun a ha => starts_chars_ne (has a ha).1, fun b hb => starts_chars_ne (hbs b hb)⟩
      obtain ⟨hargs, hrest⟩ := listed_inj (fun a ha => (has a ha).2) hbs hstart h
      obtain ⟨htail, hst⟩ := ih hcalls hcalls' hrest
      exact ⟨by rw [hargs, htail], hst⟩

/-! ## operands -/

/-- The text tells the operand and the calls behind it, if the arguments can be read. -/
def ReadableOperand (a : Expr φ) : Prop :=
  ∀ ⦃calls⦄, (∀ as ∈ calls, ∀ x ∈ as, x.Infix ∧ x.Readable) → ∀ ⦃b s t⦄, b.Infix → Bounds s → Bounds t →
    operandChars (applied a calls) ++ s = b.operandChars ++ t → applied a calls = b ∧ s = t

theorem ReadableOperand.eq {a b : Expr φ} (h : a.ReadableOperand) (hb : b.Infix) (hs : Bounds s) (ht : Bounds t)
    (htext : a.operandChars ++ s = b.operandChars ++ t) : a = b ∧ s = t :=
  @h [] (by simp) b s t hb hs ht htext

theorem ReadableOperand.apply {f : Expr φ} {as : List (Expr φ)} (h : f.ReadableOperand)
    (has : ∀ a ∈ as, a.Infix ∧ a.Readable) : ReadableOperand (.apply f as) := by
  intro calls hcalls
  exact @h (as :: calls) (List.forall_mem_cons.2 ⟨has, hcalls⟩)

/-- It is enough to read what stands before the calls. -/
theorem readableOperand_of_head {a : Expr φ}
    (h : ∀ ⦃b s t⦄, b.Infix → b.isCall = false → (∀ c ∈ s.head?, c.isAlphanum = false) →
      (∀ c ∈ t.head?, c.isAlphanum = false) → a.operandChars ++ s = b.operandChars ++ t → a = b ∧ s = t) :
    a.ReadableOperand := by
  intro calls hcalls b s t hb hs ht htext
  obtain ⟨f, calls', hf, hcall, hcalls', rfl⟩ := hb.exists_applied
  rw [operandChars_applied, operandChars_applied, List.append_assoc, List.append_assoc] at htext
  obtain ⟨rfl, hrest⟩ :=
    h hf hcall (not_isAlphanum_callChars calls hs) (not_isAlphanum_callChars calls' ht) htext
  obtain ⟨rfl, hst⟩ := callChars_inj hcalls hcalls' hs ht hrest
  exact ⟨rfl, hst⟩

/-- A word does not begin with a parenthesis. -/
theorem Word.operandChars_ne {a b : Expr φ} (ha : a.Word) (hb : b.isAtomic = false) :
    a.operandChars ++ s ≠ b.operandChars ++ t := by
  rw [operandChars_of_isAtomic ha.isAtomic, operandChars_of_not_isAtomic hb]
  exact (ha.starts.append s).ne_cons (by decide) _

theorem Word.readableOperand {a : Expr φ} (ha : a.Word) : a.ReadableOperand := by
  refine readableOperand_of_head fun b s t hb hcall hs ht h => ?_
  rcases hb.word_or_not_isAtomic hcall with hb | hb
  · rw [operandChars_of_isAtomic ha.isAtomic, operandChars_of_isAtomic hb.isAtomic] at h
    obtain ⟨hchars, hst⟩ := append_inj_of_head ha.isAlphanum hb.isAlphanum hs ht h
    exact ⟨ha.eq_of_chars hb hchars, hst⟩
  · exact absurd h (ha.operandChars_ne hb)

/-- Parentheses around a text that can be read. -/
theorem Readable.readableOperand {a : Expr φ} (ha : a.isAtomic = false) (h : a.Readable) : a.ReadableOperand := by
  refine readableOperand_of_head fun b s t hb hcall hs ht htext => ?_
  rcases hb.word_or_not_isAtomic hcall with hb' | hb'
  · exact absurd htext.symm (hb'.operandChars_ne ha)
  · rw [operandChars_of_not_isAtomic ha, operandChars_of_not_isAtomic hb'] at htext
    simp only [List.cons_append, List.append_assoc, List.nil_append, List.cons.injEq, true_and] at htext
    obtain ⟨hab, hrest⟩ := h hb (closes_cons _ (.inr rfl)) (closes_cons _ (.inr rfl)) htext
    exact ⟨hab, List.tail_eq_of_cons_eq hrest⟩

/-! ## leading operands -/

/-- The text begins with an operand, and the rest of it follows. -/
inductive Leads : Expr φ → Expr φ → List Char → Prop
  | atom {e : Expr φ} : e.isAtomic = true → Leads e e []
  | after (op : UnaryOp) (e : Expr φ) : Leads (.unary op .after e) e op.symbol.toList
  | binary (op : BinaryOp) (a b : Expr φ) :
      Leads (.binary op a b) a (' ' :: (op.symbol.toList ++ ' ' :: b.operandChars))

variable {e l : Expr φ} {rest : List Char}

theorem Leads.chars_eq (h : Leads e l rest) : e.chars = l.operandChars ++ rest := by
  cases h with
  | atom h => rw [operandChars_of_isAtomic h, List.append_nil]
  | after op => exact chars_after op l
  | binary op _ b => exact chars_binary op l b

theorem Leads.operand (h : Leads e l rest) (he : e.Infix) : l.Infix := by
  cases h with
  | atom => exact he
  | after => cases he with | unary _ _ he => exact he
  | binary => cases he with | binary _ ha => exact ha

theorem bounds_of_closes (h : Closes s) : Bounds s := by
  intro c hc
  rcases h c hc with rfl | rfl <;> decide

theorem Leads.bounds (h : Leads e l rest) (hs : Closes s) : Bounds (rest ++ s) := by
  cases h with
  | atom => exact bounds_of_closes hs
  | after op =>
    obtain ⟨c, hc, hmark⟩ := op.exists_toList_symbol
    rw [hc]
    rintro _ ⟨⟩
    exact not_operandStart_of_isMark hmark
  | binary =>
    rintro _ ⟨⟩
    decide

/-- Any other text begins with the mark of an operator, or with parameters. -/
theorem Infix.exists_leads (h : e.Infix) :
    (∃ op a, a.Infix ∧ e = .unary op .before a) ∨
    (∃ ps a, (∀ p ∈ ps, IsName p) ∧ a.Infix ∧ e = .lambda ps a) ∨ ∃ l rest, Leads e l rest := by
  cases h with
  | unary op place h =>
    cases place with
    | before => exact .inl ⟨op, _, h, rfl⟩
    | after => exact .inr (.inr ⟨_, _, .after op _⟩)
  | lambda hps h => exact .inr (.inl ⟨_, _, hps, h, rfl⟩)
  | binary op => exact .inr (.inr ⟨_, _, .binary op _ _⟩)
  | _ => exact .inr (.inr ⟨_, _, .atom rfl⟩)

/-- The operand does not read as the parameters of a function. -/
def NoParams (l : Expr φ) : Prop :=
  ∀ ⦃ps : List String⦄ ⦃s t : List Char⦄, (∀ p ∈ ps, IsName p) →
    l.operandChars ++ s ≠ '(' :: (listed (ps.map String.toList) ++ ')' :: t)

theorem Word.noParams (h : e.Word) : e.NoParams := by
  intro ps s t _
  rw [operandChars_of_isAtomic h.isAtomic]
  exact (h.starts.append s).ne_cons (by decide) _

/-- A text that begins with an operand can be read if the operand can, and what follows tells the rest. -/
theorem readable_of_leads (h : Leads e l rest) (he : e.Infix) (hl : l.ReadableOperand) (hparams : l.NoParams)
    (hrest : ∀ ⦃b rest' s t⦄, b.Infix → Leads b l rest' → Closes s → Closes t → rest ++ s = rest' ++ t → e = b ∧ s = t) :
    e.Readable := by
  intro b s t hb hs ht htext
  rw [h.chars_eq, List.append_assoc] at htext
  rcases hb.exists_leads with ⟨op, a, ha, rfl⟩ | ⟨ps, a, hps, ha, rfl⟩ | ⟨l', rest', h'⟩
  · -- a mark is no first character of an operand
    obtain ⟨c, hc, hmark⟩ := op.exists_toList_symbol
    rw [chars_before, hc] at htext
    exact absurd htext (((starts_operandChars (h.operand he)).append _).ne_cons (not_operandStart_of_isMark hmark) _)
  · rw [chars_lambda] at htext
    simp only [List.cons_append, List.append_assoc] at htext
    exact absurd htext (hparams hps)
  · rw [h'.chars_eq, List.append_assoc] at htext
    obtain ⟨rfl, hst⟩ := hl.eq (h'.operand hb) (h.bounds hs) (h'.bounds ht) htext
    exact hrest hb h' hs ht hst

/-! ## reading -/

/-- Nothing that follows a leading operand closes. -/
theorem Leads.eq_of_closes (h : Leads e l rest) (hs : Closes (rest ++ s)) : e = l ∧ rest = [] := by
  cases h with
  | atom => exact ⟨rfl, rfl⟩
  | after op =>
    obtain ⟨c, hc, hmark⟩ := op.exists_toList_symbol
    rw [hc] at hs
    exact absurd hs (hmark.not_closes s)
  | binary => exact absurd (hs ' ' rfl) (by decide)

theorem readable_of_isAtomic (he : e.Infix) (hatom : e.isAtomic = true) (h : e.ReadableOperand) (hparams : e.NoParams) :
    e.Readable := by
  refine readable_of_leads (.atom hatom) he h hparams fun b rest s t _ hlead hs _ htext => ?_
  rw [List.nil_append] at htext
  obtain ⟨rfl, rfl⟩ := hlead.eq_of_closes (htext ▸ hs)
  exact ⟨rfl, htext⟩

theorem readable_after (op : UnaryOp) (he : e.Infix) (h : e.ReadableOperand) (hparams : e.NoParams) :
    Readable (.unary op .after e) := by
  refine readable_of_leads (.after op e) (.unary op .after he) h hparams fun b rest s t _ hlead _ ht htext => ?_
  obtain ⟨c, hc, hmark⟩ := op.exists_toList_symbol
  cases hlead with
  | atom =>
    rw [List.nil_append] at htext
    obtain ⟨-, hnil⟩ := (Leads.after op e).eq_of_closes (htext ▸ ht)
    rw [hc] at hnil
    cases hnil
  | after op' =>
    obtain ⟨rfl, hst⟩ := UnaryOp.symbol_append_inj htext
    exact ⟨rfl, hst⟩
  | binary =>
    rw [hc] at htext
    exact absurd (List.cons_eq_cons.1 htext).1 hmark.ne_space

theorem readable_binary (op : BinaryOp) {a b : Expr φ} (ha : a.Infix) (hb : b.Infix) (h : a.ReadableOperand)
    (hparams : a.NoParams) (hright : b.ReadableOperand) : Readable (.binary op a b) := by
  refine readable_of_leads (.binary op a b) (.binary op ha hb) h hparams fun b' rest s t hb' hlead hs ht htext => ?_
  cases hlead with
  | atom =>
    rw [List.nil_append] at htext
    obtain ⟨-, hnil⟩ := (Leads.binary op a b).eq_of_closes (htext ▸ ht)
    cases hnil
  | after op' =>
    obtain ⟨c, hc, hmark⟩ := op'.exists_toList_symbol
    rw [hc] at htext
    exact absurd (List.cons_eq_cons.1 htext).1.symm hmark.ne_space
  | binary op' _ b' =>
    cases hb' with
    | binary _ _ hb' =>
      simp only [List.cons_append, List.append_assoc, List.cons.injEq, true_and] at htext
      obtain ⟨rfl, hoperand⟩ := BinaryOp.symbol_append_inj htext
      obtain ⟨rfl, hst⟩ := hright.eq hb' (bounds_of_closes hs) (bounds_of_closes ht) hoperand
      exact ⟨rfl, hst⟩

theorem readable_before (op : UnaryOp) (h : e.ReadableOperand) : Readable (.unary op .before e) := by
  intro b s t hb hs ht htext
  obtain ⟨c, hc, hmark⟩ := op.exists_toList_symbol
  rw [chars_before, List.append_assoc] at htext
  rcases hb.exists_leads with ⟨op', a, ha, rfl⟩ | ⟨ps, a, -, -, rfl⟩ | ⟨l, rest, hlead⟩
  · rw [chars_before, List.append_assoc] at htext
    obtain ⟨rfl, hoperand⟩ := UnaryOp.symbol_append_inj htext
    obtain ⟨rfl, hst⟩ := h.eq ha (bounds_of_closes hs) (bounds_of_closes ht) hoperand
    exact ⟨rfl, hst⟩
  · rw [hc, chars_lambda] at htext
    exact absurd (.inr (List.cons_eq_cons.1 htext).1) (not_operandStart_of_isMark hmark)
  · rw [hc, hlead.chars_eq, List.append_assoc] at htext
    exact absurd htext.symm
      (((starts_operandChars (hlead.operand hb)).append _).ne_cons (not_operandStart_of_isMark hmark) _)

theorem Word.readable (h : e.Word) : e.Readable :=
  readable_of_isAtomic h.toInfix h.isAtomic h.readableOperand h.noParams

/-- An operand in parentheses is more than a word, and parameters are words. -/
theorem Infix.noParams (h : e.Infix) : e.NoParams := by
  intro ps s t hps htext
  obtain ⟨f, calls, hf, hcall, -, rfl⟩ := h.exists_applied
  rw [operandChars_applied, List.append_assoc] at htext
  rcases hf.word_or_not_isAtomic hcall with hword | hatom
  · exact hword.noParams hps htext
  · rw [operandChars_of_not_isAtomic hatom] at htext
    simp only [List.cons_append, List.append_assoc, List.nil_append, List.cons.injEq, true_and] at htext
    cases ps with
    | nil => exact absurd htext (((starts_chars_ne hf).append _).ne_cons (by simp) _)
    | cons p ps =>
      -- what stands in the parentheses would be the variable `p`, which stands without
      rw [List.map_cons, listed_cons, List.append_assoc, List.flatMap_map] at htext
      have hp : Word (.var p : Expr φ) := .var (hps p (by simp))
      obtain ⟨rfl, -⟩ := hp.readable hf (closes_flatMap String.toList ps t) (closes_cons _ (.inr rfl)) htext.symm
      cases hatom

theorem readable_lambda {ps : List String} (hps : ∀ p ∈ ps, IsName p) (h : e.ReadableOperand) :
    Readable (.lambda ps e) := by
  intro b s t hb hs ht htext
  rw [chars_lambda] at htext
  simp only [List.cons_append, List.append_assoc] at htext
  rcases hb.exists_leads with ⟨op, a, -, rfl⟩ | ⟨qs, a, hqs, ha, rfl⟩ | ⟨l, rest, hlead⟩
  · obtain ⟨c, hc, hmark⟩ := op.exists_toList_symbol
    rw [chars_before, hc] at htext
    exact absurd (.inr (List.cons_eq_cons.1 htext).1.symm) (not_operandStart_of_isMark hmark)
  · rw [chars_lambda] at htext
    simp only [List.cons_append, List.append_assoc, List.cons.injEq, true_and] at htext
    have hstart : ∀ p ∈ ps ++ qs, Starts (· ≠ ')') p.toList :=
      List.forall_mem_append.2 ⟨fun p hp => (hps p hp).starts, fun q hq => (hqs q hq).starts⟩
    obtain ⟨rfl, hbody⟩ := listed_inj (fun p hp => readsAs_name (hps p hp)) hqs hstart htext
    simp only [List.cons.injEq, true_and] at hbody
    obtain ⟨rfl, hst⟩ := h.eq ha (bounds_of_closes hs) (bounds_of_closes ht) hbody
    exact ⟨rfl, hst⟩
  · rw [hlead.chars_eq, List.append_assoc] at htext
    exact absurd htext.symm ((hlead.operand hb).noParams hps)

/-- **Every tree can be read.**  A call is read as an operand first, any other tree as a text first. -/
theorem readable {e : Expr φ} (h : e.Infix) : e.Readable ∧ e.ReadableOperand := by
  induction h with
  | num h => exact ⟨(Word.num h).readable, (Word.num h).readableOperand⟩
  | var h => exact ⟨(Word.var h).readable, (Word.var h).readableOperand⟩
  | apply hf has ihf ihas =>
    have hoperand := ihf.2.apply fun a ha => ⟨has a ha, (ihas a ha).1⟩
    have hcall := Infix.apply hf has
    exact ⟨readable_of_isAtomic hcall rfl hoperand hcall.noParams, hoperand⟩
  | @unary op place e h ih =>
    have htext : Readable (.unary op place e) := by
      cases place with
      | before => exact readable_before op ih.2
      | after => exact readable_after op h ih.2 h.noParams
    exact ⟨htext, htext.readableOperand rfl⟩
  | binary op ha hb iha ihb =>
    have htext := readable_binary op ha hb iha.2 ha.noParams ihb.2
    exact ⟨htext, htext.readableOperand rfl⟩
  | lambda hps _ ih =>
    have htext := readable_lambda hps ih.2
    exact ⟨htext, htext.readableOperand rfl⟩

/-- **Texts are unambiguous.**  Two trees with the same text are the same, even where names are those of operators. -/
theorem render_injOn : Set.InjOn (render : Expr φ → String) {e | e.Infix} := by
  intro a ha b hb h
  have htext : a.chars ++ [] = b.chars ++ [] := by rw [chars, chars, h]
  exact ((readable ha).1 hb closes_nil closes_nil htext).1

end Texts

/-- The call of a negated function, `(-f)(x)`. -/
def callOfNegation : Expr Token := .apply (.unary .minus .before (.var "f")) [.var "x"]

/-- The negated call of a function, `-f(x)`. -/
def negationOfCall : Expr Token := .unary .minus .before (.apply (.var "f") [.var "x"])

theorem render_injOn_calls :
    callOfNegation.Infix ∧ negationOfCall.Infix ∧ callOfNegation ≠ negationOfCall ∧
      callOfNegation.render ≠ negationOfCall.render := by
  have hf : IsName "f" := ⟨by simp, by simp⟩
  have hx : IsName "x" := ⟨by simp, by simp⟩
  have hcall : callOfNegation.Infix := .apply (.unary .minus .before (.var hf)) (by simpa using .var hx)
  have hneg : negationOfCall.Infix := .unary .minus .before (.apply (.var hf) (by simpa using .var hx))
  have hne : callOfNegation ≠ negationOfCall := nofun
  exact ⟨hcall, hneg, hne, fun h => hne (render_injOn hcall hneg h)⟩

end Expr

end RatCalc
