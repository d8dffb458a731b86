import ToddCoxeter.Proofs.Relator.Splitting
import ToddCoxeter.Proofs.Word.Power

/-! # The grammar of relations

A relation is a sequence of factors.  A factor is a letter, or a sequence of factors in parentheses, with
any number of exponents behind it.  `Relator.Expression` is the structure of a relation,
`Expression.lexemes` how it is written and `Expression.value` the word that it denotes: a factor denotes the
repetition of its base, as often as the product of its exponents says.

Reading a text finds a structure that the text writes and gives its word, and it fails if there is none
(`Relator.parse_eq_ok_iff`, `Relator.parse_iff_written`).  The way there goes over the tokens: the words of
the open parentheses are those of the structures read so far (`Relator.Opened`). -/

namespace ToddCoxeter.Relator

/-- The structure of a relation, a sequence of factors. -/
inductive Expression where
  /-- No factor. -/
  | empty
  /-- A letter with exponents, and the factors behind it. -/
  | letter (c : Char) (exponents : List Exponent) (rest : Expression)
  /-- A relation in parentheses with exponents, and the factors behind it. -/
  | group (inner : Expression) (exponents : List Exponent) (rest : Expression)
deriving DecidableEq, Repr

namespace Expression

/-- The lexemes by which the relation is written. -/
def lexemes : Expression → List Lexeme
  | empty => []
  | letter c es rest => .mark (.letter c) :: (es.map .exponent ++ rest.lexemes)
  | group inner es rest =>
    .mark .opening :: (inner.lexemes ++ .mark .closing :: (es.map .exponent ++ rest.lexemes))

/-- The word that the relation denotes. -/
def value : Expression → Word
  | empty => []
  | letter c es rest =>
    Word.repeated [⟨String.singleton c, false⟩] (es.map Exponent.value).prod ++ rest.value
  | group inner es rest => inner.value.repeated (es.map Exponent.value).prod ++ rest.value

/-- The tokens of the relation. -/
def tokens : Expression → List Token
  | empty => []
  | letter c es rest => ⟨.letter c, es⟩ :: rest.tokens
  | group inner es rest => ⟨.opening, []⟩ :: (inner.tokens ++ ⟨.closing, es⟩ :: rest.tokens)

/-- One relation behind another. -/
def append : Expression → Expression → Expression
  | empty, y => y
  | letter c es rest, y => letter c es (rest.append y)
  | group inner es rest, y => group inner es (rest.append y)

@[simp] theorem tokens_append (x y : Expression) : (x.append y).tokens = x.tokens ++ y.tokens := by
  induction x with
  | empty => rfl
  | letter c es rest ih => simp [append, tokens, ih]
  | group inner es rest _ ih => simp [append, tokens, ih]

theorem flatMap_lexemes_tokens (x : Expression) : x.tokens.flatMap Token.lexemes = x.lexemes := by
  induction x with
  | empty => rfl
  | letter c es rest ih => simp [tokens, lexemes, Token.lexemes, ih]
  | group inner es rest ih ih' => simp [tokens, lexemes, Token.lexemes, ih, ih']

@[simp] theorem lexemes_append (x y : Expression) : (x.append y).lexemes = x.lexemes ++ y.lexemes := by
  simp [← flatMap_lexemes_tokens]

@[simp] theorem value_append (x y : Expression) : (x.append y).value = x.value ++ y.value := by
  induction x with
  | empty => rfl
  | letter c es rest ih => simp [append, value, ih]
  | group inner es rest _ ih => simp [append, value, ih]

theorem legal_of_mem_tokens (x : Expression) : ∀ t ∈ x.tokens, t.Legal := by
  induction x with
  | empty => simp [tokens]
  | letter c es rest ih => simpa [tokens, Token.Legal] using ih
  | group inner es rest ih ih' =>
      intro t ht
      simp only [tokens, List.mem_cons, List.mem_append] at ht
      rcases ht with rfl | ht | rfl | ht
      · exact fun _ => rfl
      · exact ih t ht
      · exact fun h => absurd h (by simp)
      · exact ih' t ht

/-- No exponent has more digits than the limit allows. -/
def Within (limit : DigitLimit) (x : Expression) : Prop :=
  ∀ t ∈ x.tokens, t.checkDigits limit = .ok ()

theorem within_none (x : Expression) : x.Within none := fun t _ => t.checkDigits_none

end Expression

/-! ### One token more -/

theorem exponent_eq_prod (t : Token) : t.exponent = (t.exponents.map Exponent.value).prod := by
  rw [Token.exponent, List.prod_eq_foldl, List.foldl_map]

variable {limit : DigitLimit} {text : String} {n n' : Nesting} {t : Token} {ts : List Token}

theorem add_eq_ok_iff : n.add limit text t = .ok n' ↔ t.checkDigits limit = .ok () ∧
    ((t.mark = .opening ∧ n' = ⟨[], n.current :: n.outer⟩) ∨
      (∃ c, t.mark = .letter c ∧
        n' = ⟨n.current ++ Word.repeated [⟨String.singleton c, false⟩] t.exponent, n.outer⟩) ∨
      (t.mark = .closing ∧ ∃ before outer, n.outer = before :: outer ∧
        n' = ⟨before ++ n.current.repeated t.exponent, outer⟩)) := by
  obtain ⟨current, outer⟩ := n
  unfold Nesting.add
  simp only [Word.pow_eq_repeated]
  cases hdigits : t.checkDigits limit with
  | error fault => simp [bind, Except.bind]
  | ok u =>
      cases hmark : t.mark with
      | letter c => simp [bind, Except.bind, pure, Except.pure, eq_comm]
      | opening => simp [bind, Except.bind, pure, Except.pure, eq_comm]
      | closing =>
          cases outer with
          | nil => simp [bind, Except.bind, throw, throwThe, MonadExceptOf.throw]
          | cons before outer => simp [bind, Except.bind, pure, Except.pure, eq_comm]

theorem add_eq_error_iff {fault : Fault} : n.add limit text t = .error fault ↔
    t.checkDigits limit = .error fault ∨ (t.checkDigits limit = .ok () ∧ t.mark = .closing ∧
      n.outer = [] ∧ fault = .malformed ⟨.mismatchedParentheses, text, none⟩) := by
  obtain ⟨current, outer⟩ := n
  unfold Nesting.add
  cases hdigits : t.checkDigits limit with
  | error fault' => simp [bind, Except.bind]
  | ok u =>
      cases hmark : t.mark with
      | letter c => simp [bind, Except.bind, pure, Except.pure]
      | opening => simp [bind, Except.bind, pure, Except.pure]
      | closing =>
          cases outer with
          | nil => simp [bind, Except.bind, throw, throwThe, MonadExceptOf.throw, eq_comm]
          | cons before outer => simp [bind, Except.bind, pure, Except.pure]

/-- The tokens read so far are those of one relation for each open parenthesis and one outside of all, with
the opening parentheses between them, and the words are theirs. -/
inductive Opened : List Token → Nesting → Prop
  | outermost (x : Expression) : Opened x.tokens ⟨x.value, []⟩
  | inside {ts : List Token} {n : Nesting} (x : Expression) :
      Opened ts n → Opened (ts ++ ⟨.opening, []⟩ :: x.tokens) ⟨x.value, n.current :: n.outer⟩

theorem Opened.append (h : Opened ts n) (y : Expression) :
    Opened (ts ++ y.tokens) ⟨n.current ++ y.value, n.outer⟩ := by
  cases h with
  | outermost x => simpa using Opened.outermost (x.append y)
  | inside x h => simpa using h.inside (x.append y)

theorem Opened.add (h : Opened ts n) (ht : t.Legal) (hadd : n.add limit text t = .ok n') :
    Opened (ts ++ [t]) n' := by
  obtain ⟨mark, es⟩ := t
  obtain ⟨-, ⟨hmark, rfl⟩ | ⟨c, hmark, rfl⟩ | ⟨hmark, before, outer, houter, rfl⟩⟩ :=
    add_eq_ok_iff.1 hadd
  · obtain rfl : mark = .opening := hmark
    obtain rfl : es = [] := ht rfl
    exact h.inside .empty
  · obtain rfl : mark = .letter c := hmark
    have hletter := h.append (.letter c es .empty)
    simpa [Expression.tokens, Expression.value, exponent_eq_prod] using hletter
  · obtain rfl : mark = .closing := hmark
    cases h with
    | outermost x => exact absurd houter (by simp)
    | inside x h =>
        obtain ⟨rfl, rfl⟩ := List.cons.inj houter
        have hgroup := h.append (.group x es .empty)
        simpa [Expression.tokens, Expression.value, exponent_eq_prod] using hgroup

theorem Opened.foldlM {us : List Token} (h : Opened ts n) (hlegal : ∀ t ∈ us, t.Legal)
    (hadd : us.foldlM (Nesting.add limit text) n = .ok n') : Opened (ts ++ us) n' := by
  induction us generalizing ts n with
  | nil =>
      obtain rfl : n = n' := by simpa [pure, Except.pure] using hadd
      simpa using h
  | cons u us ih =>
      obtain ⟨hu, hus⟩ := List.forall_mem_cons.1 hlegal
      obtain ⟨m, hm, hrest⟩ := foldlM_cons_eq_ok_iff.1 hadd
      simpa using ih (h.add hu hm) hus hrest

theorem Opened.exists_eq {w : Word} (h : Opened ts ⟨w, []⟩) :
    ∃ x : Expression, x.tokens = ts ∧ x.value = w := by
  cases h with
  | outermost x => exact ⟨x, rfl, rfl⟩

theorem checkDigits_of_foldlM (hadd : ts.foldlM (Nesting.add limit text) n = .ok n') :
    ∀ t ∈ ts, t.checkDigits limit = .ok () := by
  induction ts generalizing n with
  | nil => simp
  | cons t ts ih =>
      obtain ⟨m, hm, hrest⟩ := foldlM_cons_eq_ok_iff.1 hadd
      exact List.forall_mem_cons.2 ⟨(add_eq_ok_iff.1 hm).1, ih hrest⟩

/-- Reading the tokens of a relation puts its word behind the word of the innermost parenthesis. -/
theorem foldlM_add_tokens {x : Expression} (hx : x.Within limit) :
    x.tokens.foldlM (Nesting.add limit text) n = .ok ⟨n.current ++ x.value, n.outer⟩ := by
  induction x generalizing n with
  | empty => simp [Expression.tokens, Expression.value, pure, Except.pure]
  | letter c es rest ih =>
      obtain ⟨hdigits, hrest⟩ := List.forall_mem_cons.1 hx
      refine foldlM_cons_eq_ok_iff.2
        ⟨_, add_eq_ok_iff.2 ⟨hdigits, .inr (.inl ⟨c, rfl, rfl⟩)⟩, (ih hrest).trans ?_⟩
      simp [Expression.value, exponent_eq_prod]
  | group inner es rest ih ih' =>
      obtain ⟨hopen, hx⟩ := List.forall_mem_cons.1 hx
      obtain ⟨hinner, hx⟩ := List.forall_mem_append.1 hx
      obtain ⟨hclose, hrest⟩ := List.forall_mem_cons.1 hx
      refine foldlM_cons_eq_ok_iff.2 ⟨_, add_eq_ok_iff.2 ⟨hopen, .inl ⟨rfl, rfl⟩⟩, ?_⟩
      refine foldlM_append_eq_ok_iff.2 ⟨_, ih hinner, foldlM_cons_eq_ok_iff.2
        ⟨_, add_eq_ok_iff.2 ⟨hclose, .inr (.inr ⟨rfl, _, _, rfl, rfl⟩)⟩, (ih' hrest).trans ?_⟩⟩
      simp [Expression.value, exponent_eq_prod]

/-! ### Whole texts -/

theorem ofTokens_eq_ok_iff {w : Word} : ofTokens limit text ts = .ok w ↔
    ts.foldlM (Nesting.add limit text) ⟨[], []⟩ = .ok ⟨w, []⟩ := by
  unfold ofTokens
  cases hfold : ts.foldlM (Nesting.add limit text) ⟨[], []⟩ with
  | error fault => simp [bind, Except.bind]
  | ok n =>
      obtain ⟨current, outer⟩ := n
      cases outer <;> simp [bind, Except.bind, pure, Except.pure, throw, throwThe,
        MonadExceptOf.throw]

theorem ofTokens_eq_error_iff {fault : Fault} : ofTokens limit text ts = .error fault ↔
    ts.foldlM (Nesting.add limit text) ⟨[], []⟩ = .error fault ∨
      ∃ n, ts.foldlM (Nesting.add limit text) ⟨[], []⟩ = .ok n ∧ n.outer ≠ [] ∧
        fault = .malformed ⟨.unclosedParenthesis, text, none⟩ := by
  unfold ofTokens
  cases hfold : ts.foldlM (Nesting.add limit text) ⟨[], []⟩ with
  | error fault => simp [bind, Except.bind]
  | ok n =>
      obtain ⟨current, outer⟩ := n
      cases outer <;> simp [bind, Except.bind, pure, Except.pure, throw, throwThe,
        MonadExceptOf.throw, eq_comm]

theorem parse_eq_ok_iff_ofTokens {w : Word} : parse limit text = .ok w ↔
    ∃ ts, Token.ofText text = .ok ts ∧ ofTokens limit text ts = .ok w := by
  unfold parse
  cases Token.ofText text <;> simp [Except.mapError, bind, Except.bind]

theorem parse_of_ofText_eq_error {s : SyntaxFault} (h : Token.ofText text = .error s) :
    parse limit text = .error (.malformed s) := by
  unfold parse
  rw [h]
  rfl

theorem parse_of_ofText_eq_ok (h : Token.ofText text = .ok ts) :
    parse limit text = ofTokens limit text ts := by
  unfold parse
  rw [h]
  rfl

/-- A text is read as the word of a structure that it writes. -/
theorem parse_eq_ok_iff {w : Word} : parse limit text = .ok w ↔
    ∃ x : Expression, Lexeme.Written text.toList x.lexemes ∧ x.Within limit ∧ x.value = w := by
  rw [parse_eq_ok_iff_ofTokens]
  constructor
  · rintro ⟨ts, htokens, hw⟩
    obtain ⟨hwritten, hlegal⟩ := Token.ofText_eq_ok_iff.1 htokens
    have hfold := ofTokens_eq_ok_iff.1 hw
    obtain ⟨x, rfl, rfl⟩ := ((Opened.outermost .empty).foldlM hlegal hfold).exists_eq
    rw [x.flatMap_lexemes_tokens] at hwritten
    exact ⟨x, hwritten, checkDigits_of_foldlM hfold, rfl⟩
  · rintro ⟨x, hwritten, hx, rfl⟩
    rw [← x.flatMap_lexemes_tokens] at hwritten
    refine ⟨x.tokens, Token.ofText_eq_ok_iff.2 ⟨hwritten, x.legal_of_mem_tokens⟩, ?_⟩
    exact ofTokens_eq_ok_iff.2 (foldlM_add_tokens (n := ⟨[], []⟩) hx)

theorem parse_nil : parse limit (String.ofList []) = .ok [] :=
  parse_eq_ok_iff.2
    ⟨.empty, by simpa using .nil, fun t ht => absurd ht (by simp [Expression.tokens]), rfl⟩

/-! ### Texts that are refused -/

/-- A cause for refusing a text: its syntax, or an exponent with more digits than the limit allows. -/
def Refusal (limit : DigitLimit) (fault : Fault) : Prop :=
  (∃ s, fault = .malformed s) ∨ ∃ most digits, limit = some most ∧ fault = .tooManyDigits most digits

theorem exists_tooManyDigits_of_checkDigits {fault : Fault} (h : t.checkDigits limit = .error fault) :
    ∃ most digits, limit = some most ∧ fault = .tooManyDigits most digits := by
  obtain ⟨e, -, he⟩ := exists_of_forM_eq_error h
  unfold DigitLimit.check at he
  cases hlimit : limit.exceeded? e.digits.length with
  | none => simp [hlimit] at he
  | some most =>
      obtain rfl : Fault.tooManyDigits most e.digits.length = fault := by simpa [hlimit] using he
      exact ⟨most, _, (Option.filter_eq_some_iff.1 hlimit).1, rfl⟩

theorem refusal_of_add {fault : Fault} (h : n.add limit text t = .error fault) : Refusal limit fault := by
  rcases add_eq_error_iff.1 h with h | ⟨-, -, -, rfl⟩
  · exact .inr (exists_tooManyDigits_of_checkDigits h)
  · exact .inl ⟨_, rfl⟩

/-- A text is refused for its syntax or for the digits of an exponent. -/
theorem refusal_of_parse {fault : Fault} (h : parse limit text = .error fault) : Refusal limit fault := by
  cases htokens : Token.ofText text with
  | error s =>
      rw [parse_of_ofText_eq_error htokens] at h
      exact .inl ⟨s, (Except.error.inj h).symm⟩
  | ok ts =>
      rw [parse_of_ofText_eq_ok htokens] at h
      rcases ofTokens_eq_error_iff.1 h with hfold | ⟨n, -, -, rfl⟩
      · obtain ⟨m, t, -, ht⟩ := exists_of_foldlM_eq_error hfold
        exact refusal_of_add ht
      · exact .inl ⟨_, rfl⟩

theorem exists_malformed_of_parse {fault : Fault} (h : parse none text = .error fault) :
    ∃ s, fault = .malformed s :=
  (refusal_of_parse h).resolve_right fun ⟨_, _, hnone, _⟩ => absurd hnone (by simp)

/-- A text is read as a word exactly if it is written by the grammar, and then its word is the value of
what is written; every other text is refused because of its syntax.  All this holds as well of reading a text
by way of the texts of its tokens. -/
theorem parse_iff_written (text : String) :
    (∀ w, parse none text = .ok w ↔
        ∃ x : Expression, Lexeme.Written text.toList x.lexemes ∧ x.value = w) ∧
      ((∃ s, parse none text = .error (.malformed s)) ↔
        ¬ ∃ x : Expression, Lexeme.Written text.toList x.lexemes) ∧
      parseTexts none text = parse none text := by
  have hok : ∀ w, parse none text = .ok w ↔
      ∃ x : Expression, Lexeme.Written text.toList x.lexemes ∧ x.value = w := by
    intro w
    simp only [parse_eq_ok_iff, Expression.within_none, true_and]
  refine ⟨hok, ⟨?_, fun hno => ?_⟩, parseTexts_eq_parse none text⟩
  · rintro ⟨s, hs⟩ ⟨x, hx⟩
    rw [(hok x.value).2 ⟨x, hx, rfl⟩] at hs
    exact absurd hs (by simp)
  · cases hparse : parse none text with
    | error fault =>
        obtain ⟨s, rfl⟩ := exists_malformed_of_parse hparse
        exact ⟨s, rfl⟩
    | ok w =>
        obtain ⟨x, hx, -⟩ := (hok w).1 hparse
        exact absurd ⟨x, hx⟩ hno

example : parse none "(ab)^-2 c'" =
    .ok [⟨"b", true⟩, ⟨"a", true⟩, ⟨"b", true⟩, ⟨"a", true⟩, ⟨"c", true⟩] := by cbv

end ToddCoxeter.Relator
