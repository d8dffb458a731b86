import ToddCoxeter.Proofs.Presentation.Entries
import ToddCoxeter.Proofs.Relator.NormalForm
import ToddCoxeter.Proofs.Word.Runs

/-! # Reading what is written

A word whose generators are single letters is written as tokens: each run is one token, a letter with the
exponent that the run has, if it is not one.  Reading the text gives the word back, so that no other word of
this kind has the same text (`Relator.parse_render`). -/

namespace ToddCoxeter

/-! ### Integers in decimal -/

namespace Text

variable {c : Char} {cs : List Char}

theorem digit?_of_isDigit (h : c.isDigit) : digit? c = some (c.toNat - 48) := by
  obtain ⟨hlow, hhigh⟩ := Char.isDigit_iff_toNat.1 h
  have hfirst : (decide (48 ≤ c.toNat) && decide (c.toNat < 48 + 10)) = true := by
    simp only [Bool.and_eq_true, decide_eq_true_eq]
    exact ⟨hlow, Nat.lt_succ_of_le hhigh⟩
  have hzeros : digitZeros = 48 :: digitZeros.tail := rfl
  rw [digit?, hzeros]
  simp only [List.find?_cons, hfirst, Option.map_some]

theorem isDigit_of_isDigit (h : c.isDigit) : isDigit c := by
  rw [isDigit, digit?_of_isDigit h]
  rfl

/-- The digits that are written for a number denote it. -/
theorem decimalValue_toDigits (n : ℕ) : decimalValue (Nat.toDigits 10 n) = n := by
  have hdigits : decimalValue (Nat.toDigits 10 n) = Nat.ofDigitChars 10 (Nat.toDigits 10 n) 0 := by
    rw [decimalValue, Nat.ofDigitChars_eq_foldl]
    refine List.foldl_ext _ _ 0 fun m c hc => ?_
    rw [digit?_of_isDigit (Nat.isDigit_of_mem_toDigits (by omega) (by omega) hc)]
    rfl
  rw [hdigits, Nat.ofDigitChars_ten_toDigits]

theorem length_toDigits_mono {m n : ℕ} (h : m ≤ n) :
    (Nat.toDigits 10 m).length ≤ (Nat.toDigits 10 n).length := by
  rw [Nat.length_toDigits_le_iff (by omega) Nat.length_toDigits_pos]
  exact h.trans_lt ((Nat.length_toDigits_le_iff (by omega) Nat.length_toDigits_pos).1 (Nat.le_refl _))

end Text

theorem DigitLimit.check_of_le {limit : DigitLimit} {m n : ℕ} (hle : m ≤ n)
    (h : limit.check n = .ok ()) : limit.check m = .ok () := by
  cases limit with
  | none => rfl
  | some most =>
      rw [check_some] at h ⊢
      split_ifs at h ⊢
      · omega
      · rfl

namespace Exponent

/-- The exponent as it is written for an integer. -/
def ofInt (n : ℤ) : Exponent := ⟨if n < 0 then some '-' else none, Nat.toDigits 10 n.natAbs⟩

theorem chars_ofInt (n : ℤ) : (ofInt n).chars = (toString n).toList := by
  rw [Int.toString_eq_repr, Int.repr_eq_if]
  rcases lt_or_ge n 0 with hn | hn
  · have habs : (-n).toNat = n.natAbs := by omega
    rw [ofInt, if_pos hn, if_neg (by omega), habs, String.toList_append, Nat.toList_repr]
    rfl
  · have habs : n.toNat = n.natAbs := by omega
    rw [ofInt, if_neg (by omega), if_pos hn, habs, Nat.toList_repr]
    rfl

theorem value_ofInt (n : ℤ) : (ofInt n).value = n := by
  unfold value ofInt Numeral.signed
  rw [Text.decimalValue_toDigits]
  rcases lt_or_ge n 0 with hn | hn
  · rw [if_pos hn, if_pos rfl]
    omega
  · rw [if_neg (not_lt.2 hn), if_neg (by simp)]
    omega

theorem spelled_ofInt (n : ℤ) : (ofInt n).Spelled := by
  refine ⟨fun c hc => ?_, Nat.toDigits_ne_nil, fun c hc => ?_⟩
  · obtain ⟨-, hc⟩ := Option.mem_ite_none_right.1 hc
    exact .inl (Option.mem_some.1 hc).symm
  · exact Text.isDigit_of_isDigit (Nat.isDigit_of_mem_toDigits (by omega) (by omega) hc)

end Exponent

/-! ### Words over single letters -/

/-- All generators of the word are single letters. -/
def Word.Lettered (w : Word) : Prop := ∀ x ∈ w, PresentationText.isGenerator x.gen.toList

namespace Run

variable {r : Run} {c : Char} {limit : DigitLimit}

/-- The exponent of the run, if that is not one. -/
def exponents (r : Run) : List Exponent := if r.exponent = 1 then [] else [.ofInt r.exponent]

theorem spelled_of_mem_exponents {e : Exponent} (he : e ∈ r.exponents) : e.Spelled := by
  obtain ⟨-, he⟩ := List.mem_ite_nil_left.1 he
  rw [List.mem_singleton.1 he]
  exact Exponent.spelled_ofInt _

theorem prod_exponents (r : Run) : (r.exponents.map Exponent.value).prod = r.exponent := by
  unfold exponents
  split_ifs with hone
  · exact hone.symm
  · simp [Exponent.value_ofInt]

theorem natAbs_exponent (r : Run) : r.exponent.natAbs = r.count := by
  unfold exponent
  split_ifs <;> omega

theorem repeated_exponent (hr : 0 < r.count) :
    Word.repeated [⟨r.letter.gen, false⟩] r.exponent = r.toWord := by
  have hcopy : (if r.exponent < 0 then Word.inverse [⟨r.letter.gen, false⟩] else [⟨r.letter.gen, false⟩]) =
      [r.letter] := by
    obtain ⟨⟨gen, inverted⟩, k⟩ := r
    cases inverted with
    | false => exact if_neg (by simp [exponent])
    | true => exact if_pos (by simpa [exponent] using hr)
  rw [← Word.pow_eq_repeated, Word.pow_eq_flatten, natAbs_exponent, hcopy,
    List.flatten_replicate_singleton]
  rfl

theorem toList_render (hc : r.letter.gen = String.singleton c) :
    r.render.toList = Token.chars ⟨.letter c, r.exponents⟩ := by
  unfold render exponents
  rw [hc]
  split_ifs with hone
  · simp [Token.chars, Mark.char]
  · simp [Token.chars, Mark.char, Exponent.chars_ofInt]

theorem checkDigits_exponents (h : limit.check (Nat.toDigits 10 r.count).length = .ok ()) (m : Mark) :
    Token.checkDigits limit ⟨m, r.exponents⟩ = .ok () := by
  refine forM_eq_ok_iff.2 fun e he => ?_
  obtain ⟨-, he⟩ := List.mem_ite_nil_left.1 he
  rw [List.mem_singleton.1 he, Exponent.ofInt, natAbs_exponent]
  exact h

end Run

namespace Relator

variable {limit : DigitLimit} {rs : List Run} {w : Word}

theorem exists_expression_of_runs (hletter : ∀ r ∈ rs, PresentationText.isGenerator r.letter.gen.toList)
    (hpos : ∀ r ∈ rs, 0 < r.count)
    (hlimit : ∀ r ∈ rs, limit.check (Nat.toDigits 10 r.count).length = .ok ()) :
    ∃ x : Expression, x.tokens.map Token.text = rs.map Run.render ∧ (∀ t ∈ x.tokens, t.Spelled) ∧
      x.Within limit ∧ x.value = rs.flatMap Run.toWord := by
  induction rs with
  | nil => exact ⟨.empty, rfl, by simp [Expression.tokens], fun t ht => absurd ht List.not_mem_nil, rfl⟩
  | cons r rs ih =>
      obtain ⟨hr, hletter⟩ := List.forall_mem_cons.1 hletter
      obtain ⟨hrpos, hpos⟩ := List.forall_mem_cons.1 hpos
      obtain ⟨hrlimit, hlimit⟩ := List.forall_mem_cons.1 hlimit
      obtain ⟨x, htext, hspelled, hx, hvalue⟩ := ih hletter hpos hlimit
      obtain ⟨c, hc, hlatin⟩ := PresentationText.isGenerator_iff.1 hr
      replace hc : r.letter.gen = String.singleton c :=
        String.toList_inj.1 (hc.trans (String.toList_singleton c).symm)
      refine ⟨.letter c r.exponents x, ?_, ?_, ?_, ?_⟩
      · rw [List.map_cons, ← htext, ← String.ofList_toList (s := r.render), Run.toList_render hc]
        rfl
      · refine List.forall_mem_cons.2 ⟨⟨?_, fun e => Run.spelled_of_mem_exponents⟩, hspelled⟩
        rintro d ⟨⟩
        exact hlatin
      · exact List.forall_mem_cons.2 ⟨Run.checkDigits_exponents hrlimit _, hx⟩
      · rw [Expression.value, Run.prod_exponents, ← hc, Run.repeated_exponent hrpos, hvalue,
          List.flatMap_cons]

theorem toList_render (hne : w ≠ []) : w.render.toList = w.runs.flatMap fun r => r.render.toList := by
  rw [Word.render, if_neg (by simpa using hne), String.toList_join, List.flatMap_map]

theorem mem_render (hne : w ≠ []) (hw : w.Lettered) {c : Char} (hc : c ∈ w.render.toList) :
    Text.isLatinLetter c ∨ Text.isDigit c ∨ c = '^' ∨ c = '-' ∨ c = '+' := by
  rw [toList_render hne] at hc
  obtain ⟨r, hr, hc⟩ := List.mem_flatMap.1 hc
  obtain ⟨d, hd, hlatin⟩ := PresentationText.isGenerator_iff.1 (hw _ (Word.letter_mem_of_mem_runs hr))
  rw [Run.toList_render (String.toList_inj.1 (hd.trans (String.toList_singleton d).symm))] at hc
  rcases List.mem_cons.1 hc with rfl | hc
  · exact .inl hlatin
  · obtain ⟨e, he, hc⟩ := List.mem_flatMap.1 hc
    rcases List.mem_cons.1 hc with rfl | hc
    · exact .inr (.inr (.inl rfl))
    · rcases (Run.spelled_of_mem_exponents he).isDigit_or_sign hc with hdigit | hsign
      · exact .inr (.inl hdigit)
      · exact .inr (.inr (.inr hsign))

/-- The text of a word over single letters is made of the tokens of a relation that denotes the word. -/
theorem exists_expression_of_render (hne : w ≠ []) (hw : w.Lettered)
    (hlimit : limit.check (Nat.toDigits 10 w.length).length = .ok ()) :
    ∃ x : Expression, x.tokens.map Token.text = w.runs.map Run.render ∧
      Lexeme.Written w.render.toList x.lexemes ∧ x.Within limit ∧ x.value = w := by
  have hletters : ∀ r ∈ w.runs, PresentationText.isGenerator r.letter.gen.toList := fun r hr =>
    hw _ (Word.letter_mem_of_mem_runs hr)
  have hlimits : ∀ r ∈ w.runs, limit.check (Nat.toDigits 10 r.count).length = .ok () := fun r hr =>
    DigitLimit.check_of_le (Text.length_toDigits_mono (Word.count_le_of_mem_runs hr)) hlimit
  obtain ⟨x, htext, hspelled, hx, hvalue⟩ :=
    exists_expression_of_runs hletters (fun r => Word.count_pos_of_mem_runs) hlimits
  have hrender : w.render.toList = x.tokens.flatMap Token.chars := by
    rw [toList_render hne, ← List.flatMap_map, ← htext, List.flatMap_map]
    simp only [Token.text, String.toList_ofList]
  refine ⟨x, htext, ?_, hx, hvalue.trans w.flatMap_toWord_runs⟩
  rw [hrender, ← x.flatMap_lexemes_tokens]
  exact ((Token.spread_flatMap_chars _).written hspelled).1

theorem parse_of_render (hne : w ≠ []) (hw : w.Lettered)
    (hlimit : limit.check (Nat.toDigits 10 w.length).length = .ok ()) : parse limit w.render = .ok w := by
  obtain ⟨x, -, hwritten, hx, hvalue⟩ := exists_expression_of_render hne hw hlimit
  exact parse_eq_ok_iff.2 ⟨x, hwritten, hx, hvalue⟩

/-- The text of a word over single letters is made of tokens, one for each run, and reading it gives the word
back, so that the text of another word is another one.  The runs that are written are as long as possible:
neighbours differ in their generator or in their sign. -/
theorem parse_render (hne : w ≠ []) (hw : w.Lettered) :
    w.print = .ok w.render ∧
      (∃ ts, Token.ofText w.render = .ok ts ∧ ts.map Token.text = w.runs.map Run.render) ∧
      parse none w.render = .ok w ∧
      (∀ limit : DigitLimit, limit.check (Nat.toDigits 10 w.length).length = .ok () →
        parse limit w.render = .ok w) ∧
      (∀ v : Word, v ≠ [] → v.Lettered → v.render = w.render → v = w) ∧
      w.runs.IsChain (·.letter ≠ ·.letter) := by
  refine ⟨w.print_eq, ?_, parse_of_render hne hw (DigitLimit.check_none _), fun limit => parse_of_render hne hw,
    fun v hv hletters heq => ?_, w.isChain_runs⟩
  · obtain ⟨x, htext, hwritten, -⟩ := exists_expression_of_render hne hw (DigitLimit.check_none _)
    rw [← x.flatMap_lexemes_tokens] at hwritten
    exact ⟨x.tokens, Token.ofText_eq_ok_iff.2 ⟨hwritten, x.legal_of_mem_tokens⟩, htext⟩
  · have hv := parse_of_render hv hletters (DigitLimit.check_none _)
    rw [heq, parse_of_render hne hw (DigitLimit.check_none _)] at hv
    exact (Except.ok.inj hv).symm

/-- The letters of `aa'ab'b'` are neither joined nor cancelled. -/
theorem parse_render_backtracking :
    let w : Word := [⟨"a", false⟩, ⟨"a", true⟩, ⟨"a", false⟩, ⟨"b", true⟩, ⟨"b", true⟩]
    w ≠ [] ∧ w.Lettered ∧ w.print = .ok "aa^-1ab^-2" ∧ parse none "aa^-1ab^-2" = .ok w := by
  intro w
  have hne : w ≠ [] := List.cons_ne_nil _ _
  have hw : w.Lettered := by
    have hall : w.all (fun x => PresentationText.isGenerator x.gen.toList) := by decide
    exact List.all_eq_true.1 hall
  have hrender : w.render = "aa^-1ab^-2" := rfl
  obtain ⟨hprint, -, hparse, -⟩ := parse_render hne hw
  rw [hrender] at hprint hparse
  exact ⟨hne, hw, hprint, hparse⟩

end Relator

end ToddCoxeter
