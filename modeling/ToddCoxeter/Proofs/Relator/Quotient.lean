import ToddCoxeter.Proofs.Relator.Parentheses

/-! # One relation over another

`Relator.quotient lhs rhs` is the text of a relation followed by another one in parentheses with the exponent
`-1`.  No lexeme goes over the seams (`Lexeme.written_quotient_iff`), so two relations give the product of the
first with the inverse of the second (`Relator.parse_quotient`).  Conversely a quotient can be read even if
its parts cannot: the parentheses put around the second part pair with those in it.  They do so only if the
second part closes a parenthesis that it has not opened (`Relator.readable_parts_iff`). -/

namespace ToddCoxeter

/-- The text of one relation, and behind it another one in parentheses with the exponent `-1`. -/
def Relator.quotient (lhs rhs : List Char) : List Char := lhs ++ '(' :: (rhs ++ ")^-1".toList)

namespace Lexeme

variable {cs lhs rhs : List Char} {ls : List Lexeme}

theorem written_opening_iff :
    Written ('(' :: cs) ls ↔ ∃ ls', Written cs ls' ∧ ls = .mark .opening :: ls' := by
  constructor
  · intro h
    cases h with
    | blank hc _ => exact absurd hc (by decide)
    | letter hc _ => exact absurd hc (by decide)
    | opening h => exact ⟨_, h, rfl⟩
  · rintro ⟨ls', h, rfl⟩
    exact h.opening

theorem separate_inverse : Separate ")^-1".toList := separate_closing "^-1".toList

theorem written_inverse : Written ")^-1".toList [.mark .closing, .exponent .prime] :=
  .closing (.power Exponent.spelled_prime (by simp [Exponent.EndsDigits]) .nil)

/-- What a quotient writes is what its parts write, with the parentheses and the exponent. -/
theorem written_quotient_iff : Written (Relator.quotient lhs rhs) ls ↔
    ∃ ls₁ ls₂, Written lhs ls₁ ∧ Written rhs ls₂ ∧
      ls = ls₁ ++ .mark .opening :: (ls₂ ++ [.mark .closing, .exponent .prime]) := by
  rw [Relator.quotient, written_append_iff (separate_opening _)]
  simp only [written_opening_iff, written_append_iff separate_inverse]
  constructor
  · rintro ⟨ls₁, ls₂, h₁, ⟨ls₃, ⟨ls₄, ls₅, h₄, h₅, rfl⟩, rfl⟩, rfl⟩
    obtain rfl := h₅.unique written_inverse
    exact ⟨ls₁, ls₄, h₁, h₄, rfl⟩
  · rintro ⟨ls₁, ls₂, h₁, h₂, rfl⟩
    exact ⟨ls₁, _, h₁, ⟨_, ⟨ls₂, _, h₂, written_inverse, rfl⟩, rfl⟩, rfl⟩

end Lexeme

namespace Relator

variable {limit : DigitLimit} {cs lhs rhs : List Char}

/-- If both parts can be read, so can the quotient, and it is the product of the first with the inverse of
the second. -/
theorem parse_quotient {u v : Word} (hlimit : limit.check 1 = .ok ())
    (hu : parse limit (String.ofList lhs) = .ok u) (hv : parse limit (String.ofList rhs) = .ok v) :
    parse limit (String.ofList (quotient lhs rhs)) = .ok (u ++ v.inverse) := by
  simp only [parse_eq_ok_iff, String.toList_ofList] at hu hv ⊢
  obtain ⟨x, hx, hxlimit, rfl⟩ := hu
  obtain ⟨y, hy, hylimit, rfl⟩ := hv
  have hprime : Exponent.prime.value = -1 := by decide
  refine ⟨x.append (.group y [.prime] .empty),
    Lexeme.written_quotient_iff.2 ⟨_, _, hx, hy, ?_⟩, ?_, ?_⟩
  · simp [Expression.lexemes]
  · rw [Expression.Within, Expression.tokens_append, List.forall_mem_append]
    refine ⟨hxlimit, List.forall_mem_cons.2 ⟨rfl, List.forall_mem_append.2 ⟨hylimit, ?_⟩⟩⟩
    simp [Expression.tokens, Token.checkDigits, Exponent.prime, hlimit, bind, Except.bind, pure,
      Except.pure]
  · simp [Expression.value, hprime, Word.repeated_neg_one]

/-- A text can be read if it has tokens, of which none has too long an exponent, and their parentheses are
balanced. -/
theorem exists_parse_iff : (∃ w, parse limit (String.ofList cs) = .ok w) ↔
    ∃ ts : List Token, Lexeme.Written cs (ts.flatMap Token.lexemes) ∧
      (∀ t ∈ ts, t.Legal ∧ t.checkDigits limit = .ok ()) ∧ Balanced (ts.map Token.mark) := by
  simp only [parse_eq_ok_iff_ofTokens, Token.ofText_eq_ok_iff, String.toList_ofList]
  constructor
  · rintro ⟨w, ts, ⟨hwritten, hlegal⟩, hw⟩
    obtain ⟨hdigits, hbalanced⟩ := exists_ofTokens_eq_ok_iff.1 ⟨w, hw⟩
    exact ⟨ts, hwritten, fun t ht => ⟨hlegal t ht, hdigits t ht⟩, hbalanced⟩
  · rintro ⟨ts, hwritten, hgood, hbalanced⟩
    obtain ⟨w, hw⟩ := exists_ofTokens_eq_ok_iff.2 ⟨fun t ht => (hgood t ht).2, hbalanced⟩
    exact ⟨w, ts, ⟨hwritten, fun t ht => (hgood t ht).1⟩, hw⟩

/-- In balanced parentheses around a second part, both parts are balanced if the second one is covered. -/
theorem Balanced.parts_of_covered {ms₁ ms₂ : List Mark}
    (h : Balanced (ms₁ ++ .opening :: (ms₂ ++ [.closing]))) (h₂ : Covered .opening .closing 0 ms₂) :
    Balanced ms₁ ∧ Balanced ms₂ := by
  have h₁ : Covered .opening .closing 0 ms₁ := fun pre hpre =>
    h.covered pre (hpre.trans (List.prefix_append ..))
  have hcount := h.count_eq
  have hle₁ := h₁ ms₁ (List.prefix_refl ms₁)
  have hle₂ := h₂ ms₂ (List.prefix_refl ms₂)
  simp [List.count_append] at hcount
  exact ⟨⟨h₁, by omega⟩, h₂, by omega⟩

theorem exists_tokens_of_quotient {ts : List Token} (hlegal : ∀ t ∈ ts, t.Legal)
    (hwritten : Lexeme.Written (quotient lhs rhs) (ts.flatMap Token.lexemes)) :
    ∃ ts₁ ts₂ es, ts = ts₁ ++ ⟨.opening, []⟩ :: (ts₂ ++ [⟨.closing, es⟩]) ∧
      Lexeme.Written lhs (ts₁.flatMap Token.lexemes) ∧
      Lexeme.Written rhs (ts₂.flatMap Token.lexemes) := by
  obtain ⟨ls₁, ls₂, hlhs, hrhs, hls⟩ := Lexeme.written_quotient_iff.1 hwritten
  obtain ⟨ts₁, es, ts', rfl, rfl, hts'⟩ := Token.exists_append_of_flatMap_lexemes hls
  obtain rfl : es = [] := hlegal ⟨.opening, es⟩ (by simp) rfl
  obtain ⟨ts₂, es, ts₃, rfl, rfl, hts₃⟩ := Token.exists_append_of_flatMap_lexemes hts'
  -- Only the exponent of the closing parenthesis is left, and each token begins with a mark.
  obtain rfl : ts₃ = [] := by
    cases ts₃ with
    | nil => rfl
    | cons t ts =>
        have hmem : Lexeme.mark t.mark ∈ [Lexeme.exponent .prime] := by
          rw [← hts₃]
          simp [Token.lexemes]
        simp at hmem
  exact ⟨ts₁, ts₂, es, rfl, hlhs, hrhs⟩

/-- If a quotient can be read, then both of its parts can be exactly if the second one does not close a
parenthesis that it has not opened. -/
theorem readable_parts_iff {w : Word} (h : parse limit (String.ofList (quotient lhs rhs)) = .ok w) :
    ((∃ u, parse limit (String.ofList lhs) = .ok u) ∧
        ∃ v, parse limit (String.ofList rhs) = .ok v) ↔ Covered '(' ')' 0 rhs := by
  obtain ⟨ts, hwritten, hgood, hbalanced⟩ := exists_parse_iff.1 ⟨w, h⟩
  obtain ⟨ts₁, ts₂, es, rfl, hlhs, hrhs⟩ :=
    exists_tokens_of_quotient (fun t ht => (hgood t ht).1) hwritten
  simp only [List.map_append, List.map_cons, List.map_nil] at hbalanced
  have hcovered := covered_iff_of_written hrhs 0
  rw [filterMap_mark?_flatMap_lexemes] at hcovered
  rw [hcovered]
  constructor
  · rintro ⟨-, hv⟩
    obtain ⟨ts, hts, -, hts₂⟩ := exists_parse_iff.1 hv
    rw [← filterMap_mark?_flatMap_lexemes, hrhs.unique hts, filterMap_mark?_flatMap_lexemes]
    exact hts₂.covered
  · intro hcov
    obtain ⟨h₁, h₂⟩ := hbalanced.parts_of_covered hcov
    exact ⟨exists_parse_iff.2 ⟨ts₁, hlhs, fun t ht => hgood t (by simp [ht]), h₁⟩,
      exists_parse_iff.2 ⟨ts₂, hrhs, fun t ht => hgood t (by simp [ht]), h₂⟩⟩

end Relator

end ToddCoxeter
