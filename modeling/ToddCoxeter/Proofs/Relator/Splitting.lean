import ToddCoxeter.Proofs.Relator.Tokens

/-! # Tokens as texts

The tokens of a relation may be kept as texts, from which mark and exponents are read off when they are needed:
the text is split at its carets, and the integers behind them are multiplied (`Token.baseAndExponent`).  A token of
a text is made of a mark and exponents that are spelled out (`Token.Spelled`), so nothing is lost, and an exponent
with too many digits is refused either way (`Token.Spelled.baseAndExponent_text`).  Hence a relation that is read
from the texts of its tokens denotes the same word, or fails in the same way (`Relator.parseTexts_eq_parse`). -/

namespace ToddCoxeter

/-! ### Lexemes and tokens that are spelled out -/

namespace Lexeme

variable {cs : List Char} {ls : List Lexeme}

/-- A letter is one that is read, and an exponent is written as exponents are. -/
def Spelled : Lexeme → Prop
  | mark (.letter c) => Text.isLatinLetter c
  | exponent e => e.Spelled
  | _ => True

theorem Written.spelled (h : Written cs ls) : ∀ l ∈ ls, l.Spelled := by
  induction h with
  | nil => exact List.forall_mem_nil _
  | blank _ _ ih => exact ih
  | letter hc _ ih => exact List.forall_mem_cons.2 ⟨hc, ih⟩
  | opening _ ih => exact List.forall_mem_cons.2 ⟨trivial, ih⟩
  | closing _ ih => exact List.forall_mem_cons.2 ⟨trivial, ih⟩
  | prime _ ih => exact List.forall_mem_cons.2 ⟨Exponent.spelled_prime, ih⟩
  | power he _ _ ih => exact List.forall_mem_cons.2 ⟨he, ih⟩

end Lexeme

namespace Token

variable {t : Token} {ts : List Token} {cs : List Char}

/-- The mark is one that is read, and so are the exponents. -/
structure Spelled (t : Token) : Prop where
  letter : ∀ c, t.mark = .letter c → Text.isLatinLetter c
  exponents : ∀ e ∈ t.exponents, e.Spelled

theorem spelled_of_written (h : Lexeme.Written cs (ts.flatMap lexemes)) (ht : t ∈ ts) : t.Spelled := by
  refine ⟨fun c hc => h.spelled (.mark (.letter c)) ?_, fun e he => h.spelled (.exponent e) ?_⟩
  · exact List.mem_flatMap.2 ⟨t, ht, hc ▸ List.mem_cons_self⟩
  · exact List.mem_flatMap.2 ⟨t, ht, List.mem_cons_of_mem _ (List.mem_map_of_mem he)⟩

end Token

/-! ### Exponents read off the text of a token -/

namespace Exponent

variable {e : Exponent}

theorem Spelled.isSpacing_eq_false (he : e.Spelled) {c : Char} (hc : c ∈ e.chars) :
    Text.isSpacing c = false := by
  rcases he.isDigit_or_sign hc with hdigit | rfl | rfl
  · rw [Text.isSpacing, Text.isBlank_eq_false_of_isDigit hdigit, Bool.false_and]
  · decide
  · decide

/-- An exponent that is spelled out is a numeral, if it does not have too many digits. -/
theorem Spelled.read_eq (he : e.Spelled) (limit : DigitLimit) :
    Numeral.read limit e.chars = (limit.check e.digits.length).map fun _ => e.value := by
  have hspacing : e.chars.dropWhile Text.isSpacing = e.chars := by
    cases hchars : e.chars with
    | nil => rfl
    | cons c cs =>
        have hc : c ∈ e.chars := hchars ▸ List.mem_cons_self
        exact List.dropWhile_cons_of_neg (by simp [he.isSpacing_eq_false hc])
  have hsign : Numeral.splitSign e.chars = (e.sign, e.digits) := by
    simpa using splitSign_chars_append he []
  have hall : ∀ c ∈ e.digits, Numeral.isDigitOrUnderscore c := fun c hc => by
    rw [Numeral.isDigitOrUnderscore, he.isDigit c hc, Bool.true_or]
  have hdigits : Numeral.digits? e.digits = some e.digits := by
    have hno : '_' ∉ e.digits := fun hc => absurd (he.isDigit _ hc) (by decide)
    have hgroup : (!e.digits.isEmpty && e.digits.all Text.isDigit) = true := by
      simpa [he.ne_nil] using he.isDigit
    simp only [Numeral.digits?, Text.fields_of_notMem hno, List.all_cons, List.all_nil, hgroup]
    simp
  unfold Numeral.read
  rw [hspacing, hsign]
  simp only [List.takeWhile_eq_self_iff.2 hall, List.dropWhile_eq_nil_iff.2 hall, hdigits]
  cases limit.check e.digits.length <;> rfl

theorem mapM_read {es : List Exponent} (hes : ∀ e ∈ es, e.Spelled) (limit : DigitLimit) :
    (es.map chars).mapM (Numeral.read limit) =
      (es.forM fun e => limit.check e.digits.length).map fun _ => es.map value := by
  induction es with
  | nil => rfl
  | cons e es ih =>
      obtain ⟨he, hes⟩ := List.forall_mem_cons.1 hes
      rw [List.map_cons, List.mapM_cons, ih hes, he.read_eq]
      simp only [List.forM_eq_forM, List.forM_cons]
      generalize forM es (fun e => limit.check e.digits.length) = rest
      cases limit.check e.digits.length with
      | error fault => rfl
      | ok u => cases rest <;> rfl

end Exponent

namespace Token

variable {t : Token}

theorem fields_append_exponents {es : List Exponent} (hes : ∀ e ∈ es, e.Spelled) {cs : List Char}
    (hcs : '^' ∉ cs) :
    Text.fields '^' (cs ++ es.flatMap fun e => '^' :: e.chars) = cs :: es.map Exponent.chars := by
  induction es generalizing cs with
  | nil => simpa using Text.fields_of_notMem hcs
  | cons e es ih =>
      obtain ⟨he, hes⟩ := List.forall_mem_cons.1 hes
      have hcaret : '^' ∉ e.chars := fun hc => by
        rcases he.isDigit_or_sign hc with h | h | h
        · exact absurd h (by decide)
        · exact absurd h (by decide)
        · exact absurd h (by decide)
      rw [List.flatMap_cons, List.cons_append, Text.fields_append_cons hcs, ih hes hcaret, List.map_cons]

/-- What is read off the text of a token are its mark and the product of its exponents. -/
theorem Spelled.baseAndExponent_text (ht : t.Spelled) (limit : DigitLimit) :
    baseAndExponent limit t.text =
      (t.checkDigits limit).map fun _ => (String.singleton t.mark.char, t.exponent) := by
  have hmark : '^' ∉ [t.mark.char] := by
    cases hmark : t.mark with
    | letter c =>
        have hne := Text.ne_of_apply (d := '^') (ht.letter c hmark) (by decide)
        simpa [Mark.char] using hne.symm
    | opening => decide
    | closing => decide
  have hfields : Text.fields '^' t.text.toList = [t.mark.char] :: t.exponents.map Exponent.chars := by
    rw [text, String.toList_ofList]
    exact fields_append_exponents ht.exponents hmark
  unfold baseAndExponent
  rw [hfields]
  simp only [Exponent.mapM_read ht.exponents, checkDigits]
  cases t.exponents.forM fun e => limit.check e.digits.length with
  | error fault => rfl
  | ok u => simp [Except.map, bind, Except.bind, pure, Except.pure, List.foldl_map, exponent]

end Token

/-! ### Reading the texts of tokens -/

namespace Relator

/-- Reads one token from its text. -/
def Nesting.addText (limit : DigitLimit) (text : String) (nesting : Nesting) (token : String) :
    Except Fault Nesting := do
  let (base, exponent) ← Token.baseAndExponent limit token
  if base = "(" then return ⟨[], nesting.current :: nesting.outer⟩
  else if base = ")" then
    match nesting.outer with
    | [] => throw (.malformed ⟨.mismatchedParentheses, text, none⟩)
    | before :: outer => return ⟨before ++ Word.pow nesting.current exponent, outer⟩
  else return ⟨nesting.current ++ Word.pow [⟨base, false⟩] exponent, nesting.outer⟩

/-- The word that the texts of the tokens denote. -/
def ofTexts (limit : DigitLimit) (text : String) (tokens : List String) : Except Fault Word := do
  let nesting ← tokens.foldlM (Nesting.addText limit text) ⟨[], []⟩
  if nesting.outer.isEmpty then return nesting.current
  else throw (.malformed ⟨.unclosedParenthesis, text, none⟩)

/-- The word that the text of a relation denotes, read from the texts of its tokens. -/
def parseTexts (limit : DigitLimit) (text : String) : Except Fault Word := do
  ofTexts limit text ((← (Token.ofText text).mapError .malformed).map Token.text)

variable {limit : DigitLimit} {text : String} {t : Token} {ts : List Token}

theorem addText_eq_add (ht : t.Spelled) (n : Nesting) :
    n.addText limit text t.text = n.add limit text t := by
  unfold Nesting.addText Nesting.add
  rw [ht.baseAndExponent_text]
  cases t.checkDigits limit with
  | error fault => rfl
  | ok u =>
      cases hmark : t.mark with
      | opening => rfl
      | closing => rcases houter : n.outer with _ | ⟨before, outer⟩ <;> rfl
      | letter c =>
          have hne : ∀ d, Text.isLatinLetter d = false → String.singleton c ≠ String.singleton d :=
            fun d hd heq => Text.ne_of_apply (ht.letter c hmark) hd
              (by simpa using congrArg String.toList heq)
          have hopening : String.singleton c ≠ "(" := hne '(' (by decide)
          have hclosing : String.singleton c ≠ ")" := hne ')' (by decide)
          simp [Except.map, bind, Except.bind, Mark.char, hopening, hclosing]

theorem foldlM_addText (hts : ∀ t ∈ ts, t.Spelled) (n : Nesting) :
    (ts.map Token.text).foldlM (Nesting.addText limit text) n = ts.foldlM (Nesting.add limit text) n := by
  induction ts generalizing n with
  | nil => rfl
  | cons t ts ih =>
      obtain ⟨ht, hts⟩ := List.forall_mem_cons.1 hts
      rw [List.map_cons, List.foldlM_cons, List.foldlM_cons, addText_eq_add ht]
      exact congrArg _ (funext fun m => ih hts m)

/-- Whether the tokens are kept as texts or not makes no difference. -/
theorem parseTexts_eq_parse (limit : DigitLimit) (text : String) :
    parseTexts limit text = parse limit text := by
  unfold parseTexts parse
  cases htokens : Token.ofText text with
  | error s => rfl
  | ok ts =>
      have hspelled : ∀ t ∈ ts, t.Spelled := fun t =>
        Token.spelled_of_written (Token.ofText_eq_ok_iff.1 htokens).1
      show ofTexts limit text (ts.map Token.text) = ofTokens limit text ts
      rw [ofTexts, ofTokens, foldlM_addText hspelled]

end Relator

end ToddCoxeter
