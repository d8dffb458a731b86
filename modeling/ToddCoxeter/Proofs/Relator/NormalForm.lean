import Mathlib
import ToddCoxeter.Proofs.Relator.Grammar

/-! # Tokens as a normal form

Many texts have the same tokens: blanks may stand anywhere between them, and primes may be written for
exponents.  Each token of a text is written as a letter or a parenthesis with exponents behind it
(`Token.Shaped`), and a text is spread out of tokens if it consists of their texts in their order, with blanks
anywhere around them (`Token.Spread`).  Since no token begins with a digit, and blanks are no digits, the
digits of an exponent end where its token does, so such a text has just these tokens, and it denotes what every
other text with them denotes (`Token.ofText_normalForm`). -/

namespace ToddCoxeter

theorem Exponent.EndsDigits.blanks_append {cs gap : List Char} (h : EndsDigits cs)
    (hgap : ∀ c ∈ gap, Text.isBlank c) : EndsDigits (gap ++ cs) := by
  cases gap with
  | nil => exact h
  | cons c gap =>
      have hblank := hgap c List.mem_cons_self
      refine endsDigits_cons (Bool.eq_false_iff.2 fun hdigit => ?_) _
      exact absurd hblank (by simp [Text.isBlank_eq_false_of_isDigit hdigit])

namespace Lexeme

variable {cs : List Char} {ls : List Lexeme}

theorem Written.blanks_append (h : Written cs ls) {gap : List Char} (hgap : ∀ c ∈ gap, Text.isBlank c) :
    Written (gap ++ cs) ls := by
  induction gap with
  | nil => exact h
  | cons c gap ih =>
      obtain ⟨hc, hgap⟩ := List.forall_mem_cons.1 hgap
      exact .blank hc (ih hgap)

end Lexeme

/-! ### Tokens in a row -/

namespace Token

variable {t : Token} {ts : List Token} {cs : List Char} {ls : List Lexeme}

theorem written_exponents_append {es : List Exponent} (hes : ∀ e ∈ es, e.Spelled)
    (hends : Exponent.EndsDigits cs) (h : Lexeme.Written cs ls) :
    Lexeme.Written (es.flatMap (fun e => '^' :: e.chars) ++ cs) (es.map .exponent ++ ls) ∧
      Exponent.EndsDigits (es.flatMap (fun e => '^' :: e.chars) ++ cs) := by
  induction es with
  | nil => exact ⟨h, hends⟩
  | cons e es ih =>
      obtain ⟨he, hes⟩ := List.forall_mem_cons.1 hes
      obtain ⟨hw, hnext⟩ := ih hes
      rw [List.flatMap_cons, List.append_assoc]
      exact ⟨.power he hnext hw, Exponent.endsDigits_cons (by decide) _⟩

/-- A token is read before anything that does not begin with a digit. -/
theorem Spelled.written_append (ht : t.Spelled) (hends : Exponent.EndsDigits cs)
    (h : Lexeme.Written cs ls) : Lexeme.Written (t.chars ++ cs) (t.lexemes ++ ls) := by
  obtain ⟨mark, es⟩ := t
  have hes := (written_exponents_append ht.exponents hends h).1
  cases mark with
  | letter c => exact .letter (ht.letter c rfl) hes
  | opening => exact .opening hes
  | closing => exact .closing hes

theorem Spelled.endsDigits_append (ht : t.Spelled) (cs : List Char) :
    Exponent.EndsDigits (t.chars ++ cs) := by
  refine Exponent.endsDigits_cons ?_ _
  cases hmark : t.mark with
  | letter c => exact Text.isDigit_eq_false_of_isLatinLetter (ht.letter c hmark)
  | opening => decide
  | closing => decide

/-! ### Texts that are spread out of tokens -/

/-- The text is made of the tokens in their order, with blanks anywhere before, between and behind them. -/
inductive Spread : List Token → List Char → Prop
  | nil (gap : List Char) : (∀ c ∈ gap, Text.isBlank c) → Spread [] gap
  | cons (gap : List Char) {t : Token} {ts : List Token} {cs : List Char} :
      (∀ c ∈ gap, Text.isBlank c) → Spread ts cs → Spread (t :: ts) (gap ++ (t.chars ++ cs))

theorem Spread.blanks_append (h : Spread ts cs) {gap : List Char} (hgap : ∀ c ∈ gap, Text.isBlank c) :
    Spread ts (gap ++ cs) := by
  cases h with
  | nil _ hblank => exact .nil _ (List.forall_mem_append.2 ⟨hgap, hblank⟩)
  | cons _ hblank h =>
      rw [← List.append_assoc]
      exact .cons _ (List.forall_mem_append.2 ⟨hgap, hblank⟩) h

theorem spread_flatMap_chars (ts : List Token) : Spread ts (ts.flatMap chars) := by
  induction ts with
  | nil => exact .nil [] (by simp)
  | cons t ts ih => exact .cons [] (by simp) ih

theorem spread_intercalate {sep : String} (hsep : ∀ c ∈ sep.toList, Text.isBlank c) (ts : List Token) :
    Spread ts (sep.intercalate (ts.map text)).toList := by
  have htext : String.toList ∘ text = chars := funext fun _ => String.toList_ofList
  rw [String.toList_intercalate, List.map_map, htext]
  induction ts with
  | nil => exact .nil [] (by simp)
  | cons t ts ih =>
      cases ts with
      | nil => simpa using spread_flatMap_chars [t]
      | cons u us =>
          rw [List.map_cons, List.map_cons, List.intercalate_cons_cons, List.append_assoc]
          exact .cons [] (by simp) (ih.blanks_append hsep)

/-- Such a text writes the lexemes of the tokens. -/
theorem Spread.written (h : Spread ts cs) (hts : ∀ t ∈ ts, t.Spelled) :
    Lexeme.Written cs (ts.flatMap lexemes) ∧ Exponent.EndsDigits cs := by
  induction h with
  | nil gap hgap =>
      have hwritten := Lexeme.Written.nil.blanks_append hgap
      rw [List.append_nil] at hwritten
      exact ⟨hwritten, by simpa using Exponent.endsDigits_nil.blanks_append hgap⟩
  | cons gap hgap _ ih =>
      obtain ⟨ht, hts⟩ := List.forall_mem_cons.1 hts
      obtain ⟨hwritten, hends⟩ := ih hts
      -- The digits of the last exponent end with the text, with a blank, or with the mark of the next token.
      exact ⟨(ht.written_append hends hwritten).blanks_append hgap,
        (ht.endsDigits_append _).blanks_append hgap⟩

/-! ### Texts with the same tokens -/

/-- The text is a letter or a parenthesis with exponents behind it, and an opening parenthesis has none. -/
def Shaped (s : String) : Prop :=
  ∃ (c : Char) (es : List Exponent), s.toList = c :: es.flatMap (fun e => '^' :: e.chars) ∧
    (Text.isLatinLetter c ∨ c = '(' ∨ c = ')') ∧ (∀ e ∈ es, e.Spelled) ∧ (c = '(' → es = [])

theorem Spelled.shaped (ht : t.Spelled) (hlegal : t.Legal) : Shaped t.text := by
  refine ⟨t.mark.char, t.exponents, String.toList_ofList, ?_, ht.exponents, fun hc => hlegal ?_⟩
  · cases hmark : t.mark with
    | letter c => exact .inl (ht.letter c hmark)
    | opening => exact .inr (.inl rfl)
    | closing => exact .inr (.inr rfl)
  · cases hmark : t.mark with
    | letter c =>
        rw [hmark] at hc
        exact absurd hc (Text.ne_of_apply (ht.letter c hmark) (by decide))
    | opening => rfl
    | closing => exact absurd hc (by simp [hmark, Mark.char])

theorem written_iff_of_ofText {text : String} (h : ofText text = .ok ts) :
    Lexeme.Written text.toList ls ↔ ls = ts.flatMap lexemes := by
  have hwritten := (ofText_eq_ok_iff.1 h).1
  refine ⟨fun hls => hls.unique hwritten, ?_⟩
  rintro rfl
  exact hwritten

/-- What a text denotes depends on its tokens alone. -/
theorem toOption_parse_eq {text text' : String} (h : ofText text = .ok ts) (h' : ofText text' = .ok ts)
    (limit : DigitLimit) : (Relator.parse limit text').toOption = (Relator.parse limit text).toOption := by
  have hiff : ∀ w, Relator.parse limit text' = .ok w ↔ Relator.parse limit text = .ok w := fun w => by
    simp only [Relator.parse_eq_ok_iff, written_iff_of_ofText h, written_iff_of_ofText h']
  cases hw' : Relator.parse limit text' with
  | ok w => rw [(hiff w).1 hw']
  | error fault' =>
      cases hw : Relator.parse limit text with
      | ok w => exact absurd (hw'.symm.trans ((hiff w).2 hw)) (by simp)
      | error fault => rfl

/-- Each token is written as a letter or a parenthesis with exponents.  Joining the tokens with nothing or with
blanks gives a text that is spread out of them; every text of this kind has the same tokens again, and it
denotes the same word, or none denotes a word. -/
theorem ofText_normalForm {text : String} (h : ofText text = .ok ts) :
    (∀ t ∈ ts, Shaped t.text) ∧
      (∀ sep : String, (∀ c ∈ sep.toList, Text.isBlank c) →
        Spread ts (sep.intercalate (ts.map Token.text)).toList) ∧
      ∀ text', Spread ts text'.toList → ofText text' = .ok ts ∧
        ∀ limit, (Relator.parse limit text').toOption = (Relator.parse limit text).toOption := by
  obtain ⟨hwritten, hlegal⟩ := ofText_eq_ok_iff.1 h
  have hspelled : ∀ t ∈ ts, t.Spelled := fun t => spelled_of_written hwritten
  refine ⟨fun t ht => (hspelled t ht).shaped (hlegal t ht), fun sep hsep => spread_intercalate hsep ts,
    fun text' hspread => ?_⟩
  have h' : ofText text' = .ok ts := ofText_eq_ok_iff.2 ⟨(hspread.written hspelled).1, hlegal⟩
  exact ⟨h', toOption_parse_eq h h'⟩

/-- The prime is spelled out, and blanks stand between all tokens instead of some of them. -/
theorem ofText_normalForm_prime :
    ofText " (a b'\t)^+2^-1c" = .ok [⟨.opening, []⟩, ⟨.letter 'a', []⟩, ⟨.letter 'b', [.prime]⟩,
        ⟨.closing, [⟨some '+', ['2']⟩, ⟨some '-', ['1']⟩]⟩, ⟨.letter 'c', []⟩] ∧
      ofText "( a b^-1 )^+2^-1 c" = ofText " (a b'\t)^+2^-1c" := by
  have h : ofText " (a b'\t)^+2^-1c" = .ok [⟨.opening, []⟩, ⟨.letter 'a', []⟩, ⟨.letter 'b', [.prime]⟩,
      ⟨.closing, [⟨some '+', ['2']⟩, ⟨some '-', ['1']⟩]⟩, ⟨.letter 'c', []⟩] := by cbv
  obtain ⟨-, hjoin, hspread⟩ := ofText_normalForm h
  have hblank : ∀ c ∈ " ".toList, Text.isBlank c := List.all_eq_true.1 (by decide)
  exact ⟨h, (hspread _ (hjoin " " hblank)).1.trans h.symm⟩

end Token

end ToddCoxeter
