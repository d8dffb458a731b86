import Mathlib
import ToddCoxeter.Proofs.Relator.Parentheses

/-! # Where and why a text is no relation

A text is refused at the first character that no token can begin or go on with.  What stands before it has
tokens, and every longer beginning of the text is refused at the same place (`Token.StuckAt`), even if it
ends in the middle of an exponent.  For the proof the text is read from any position on and behind any
tokens (`Token.Stuck`): a part of it that is read moves the place (`Token.Stuck.behind`), and a lexeme that
no tokens can be followed by fixes it (`Token.stuck_of_refuses`).

A text that has tokens is refused for its parentheses alone, without a position: since one is closed that
was not opened, or since one is open at the end (`Relator.ofTokens_cases`). -/

namespace ToddCoxeter

namespace Exponent

theorem read?_take_eq_none {cs : List Char} (h : read? cs = none) (n : ℕ) : read? (cs.take n) = none := by
  refine Option.eq_none_iff_forall_ne_some.2 fun r hr => ?_
  obtain ⟨e, rest⟩ := r
  obtain ⟨he, htake, -⟩ := read?_eq_some_iff.1 hr
  have hcs : cs = e.chars ++ (rest ++ cs.drop n) := by
    rw [← List.append_assoc, ← htake, List.take_append_drop]
  obtain ⟨d, ds, hdigits⟩ := List.exists_cons_of_ne_nil he.ne_nil
  have hd : Text.isDigit d := he.isDigit d (hdigits ▸ List.mem_cons_self)
  rw [hcs, read?, splitSign_chars_append he, hdigits] at h
  simp [hd] at h

theorem EndsDigits.take {cs : List Char} (h : EndsDigits cs) (n : ℕ) : EndsDigits (cs.take n) := by
  cases n with
  | zero => exact endsDigits_nil
  | succ n => rwa [EndsDigits, List.head?_take, if_neg (Nat.succ_ne_zero n)]

end Exponent

/-- The first characters of a text. -/
def Text.beginning (text : String) (n : ℕ) : String := String.ofList (text.toList.take n)

namespace Token

open Lexeme

variable {ts us : List Token} {k p : ℕ} {c : Char} {cs : List Char} {l : Lexeme}

/-! ### Lexemes that have no place -/

/-- The lexeme may not follow the tokens, of which the last one comes first. -/
def Refuses (ts : List Token) (l : Lexeme) : Prop :=
  ∀ text k, ∃ s, addLexeme text ts (k, l) = .error s ∧ s.position = some k

/-- Whether a lexeme may follow the tokens, and to which tokens it leads, depends neither on the text in
which it stands nor on its position. -/
theorem addLexeme_cases (ts : List Token) (l : Lexeme) :
    (∃ us, ∀ text k, addLexeme text ts (k, l) = .ok us) ∨ Refuses ts l := by
  cases l with
  | mark m => exact .inl ⟨_, fun _ _ => rfl⟩
  | bad c => exact .inr fun _ _ => ⟨_, rfl, rfl⟩
  | exponent e =>
      cases ts with
      | nil => exact .inr fun _ _ => ⟨_, rfl, rfl⟩
      | cons t ts =>
          by_cases ht : t.mark = .opening
          · exact .inr fun _ _ => ⟨_, if_pos ht, rfl⟩
          · exact .inl ⟨_, fun _ _ => if_neg ht⟩

theorem refuses_bad (ts : List Token) (c : Char) : Refuses ts (.bad c) := fun _ _ => ⟨_, rfl, rfl⟩

/-- Where one exponent may not stand, none may. -/
theorem Refuses.exponent {e : Exponent} (h : Refuses ts (.exponent e)) (e' : Exponent) :
    Refuses ts (.exponent e') := by
  cases ts with
  | nil => exact fun _ _ => ⟨_, rfl, rfl⟩
  | cons t ts =>
      by_cases ht : t.mark = .opening
      · exact fun _ _ => ⟨_, if_pos ht, rfl⟩
      · obtain ⟨s, hs, -⟩ := h "" 0
        exact absurd ((if_neg ht).symm.trans hs) (by simp)

/-! ### How far a text is read -/

/-- Behind the tokens `ts`, of which the last one comes first, as many of the characters are read as `p`
says, and no more.  The first character has the position `k`. -/
structure Stuck (ts : List Token) (k : ℕ) (cs : List Char) (p : ℕ) : Prop where
  lt_length : p < cs.length
  before : ∀ text, ∃ us, (scan k (cs.take p)).foldlM (addLexeme text) ts = .ok us
  after : ∀ text n, p < n →
    ∃ s, (scan k (cs.take n)).foldlM (addLexeme text) ts = .error s ∧ s.position = some (k + p)

/-- Characters that are read, and lead from the tokens `ts` to the tokens `us`, may come first. -/
theorem Stuck.behind (pre : List Char) (h : Stuck us (k + pre.length) cs p)
    (hpre : ∀ text n, (scan k (pre ++ cs.take n)).foldlM (addLexeme text) ts =
      (scan (k + pre.length) (cs.take n)).foldlM (addLexeme text) us) :
    Stuck ts k (pre ++ cs) (pre.length + p) := by
  refine ⟨?_, fun text => ?_, fun text n hn => ?_⟩
  · have := h.lt_length
    rw [List.length_append]
    omega
  · rw [List.take_length_add_append, hpre]
    exact h.before text
  · obtain ⟨m, rfl⟩ := Nat.exists_eq_add_of_le (show pre.length ≤ n by omega)
    rw [List.take_length_add_append, hpre, ← Nat.add_assoc]
    exact h.after text m (by omega)

/-- Nothing is read if the first lexeme may not follow the tokens, however soon the text ends. -/
theorem stuck_of_refuses
    (h : ∀ n, ∃ l rest, scan k (c :: cs.take n) = (k, l) :: rest ∧ Refuses ts l) :
    Stuck ts k (c :: cs) 0 := by
  refine ⟨Nat.succ_pos _, fun text => ⟨ts, by simp [scan, pure, Except.pure]⟩, fun text n hn => ?_⟩
  obtain ⟨m, rfl⟩ := Nat.exists_eq_add_of_lt hn
  obtain ⟨l, rest, hscan, hl⟩ := h m
  obtain ⟨s, hs, hk⟩ := hl text k
  refine ⟨s, ?_, hk⟩
  rw [Nat.zero_add, List.take_succ_cons, hscan, List.foldlM_cons, hs]
  rfl

/-- If the characters begin with a lexeme, then it may not follow the tokens and nothing is read, or
reading goes on behind it. -/
theorem exists_stuck_of_lexeme (pre : List Char) {text : String} {s : SyntaxFault}
    (h : (scan k (pre ++ cs)).foldlM (addLexeme text) ts = .error s)
    (hscan : ∀ n, scan k (pre ++ cs.take n) = (k, l) :: scan (k + pre.length) (cs.take n))
    (hstop : Refuses ts l → Stuck ts k (pre ++ cs) 0)
    (ih : ∀ {us}, (scan (k + pre.length) cs).foldlM (addLexeme text) us = .error s →
      ∃ p, Stuck us (k + pre.length) cs p) :
    ∃ p, Stuck ts k (pre ++ cs) p := by
  rcases addLexeme_cases ts l with ⟨us, hus⟩ | hl
  · have hpre : ∀ text n, (scan k (pre ++ cs.take n)).foldlM (addLexeme text) ts =
        (scan (k + pre.length) (cs.take n)).foldlM (addLexeme text) us := by
      intro text n
      rw [hscan, List.foldlM_cons, hus]
      rfl
    have hrest := hpre text cs.length
    rw [List.take_length] at hrest
    obtain ⟨p, hp⟩ := ih (hrest.symm.trans h)
    exact ⟨_, hp.behind pre hpre⟩
  · exact ⟨0, hstop hl⟩

theorem exists_stuck_of_foldlM {text : String} {s : SyntaxFault}
    (h : (scan k cs).foldlM (addLexeme text) ts = .error s) : ∃ p, Stuck ts k cs p := by
  -- A lexeme of one character is there in every beginning of the text that is not empty.
  have hsingle : ∀ {k ts} {c : Char} {cs : List Char} {l : Lexeme},
      (∀ ds, scan k (c :: ds) = (k, l) :: scan (k + 1) ds) → Refuses ts l →
      Stuck ts k ([c] ++ cs) 0 :=
    fun hscan hl => stuck_of_refuses fun n => ⟨_, _, hscan _, hl⟩
  fun_induction scan k cs generalizing ts with
  | case1 => simp [pure, Except.pure] at h
  | case2 k c cs hc ih =>
      obtain ⟨p, hp⟩ := ih h
      exact ⟨_, hp.behind [c] fun text n => by rw [List.singleton_append, scan_blank hc]; rfl⟩
  | case3 k c cs hblank hc ih =>
      have hscan : ∀ ds, scan k (c :: ds) = (k, .mark (.letter c)) :: scan (k + 1) ds := fun ds =>
        scan_letter hc
      exact exists_stuck_of_lexeme [c] ((hscan cs).symm ▸ h) (fun n => hscan _) (hsingle hscan) ih
  | case4 k cs _ _ ih =>
      exact exists_stuck_of_lexeme ['\x27'] (scan_prime.symm ▸ h) (fun n => scan_prime)
        (hsingle fun _ => scan_prime) ih
  | case5 k cs _ _ _ ih =>
      exact exists_stuck_of_lexeme ['('] (scan_opening.symm ▸ h) (fun n => scan_opening)
        (hsingle fun _ => scan_opening) ih
  | case6 k cs _ _ _ _ ih =>
      exact exists_stuck_of_lexeme [')'] (scan_closing.symm ▸ h) (fun n => scan_closing)
        (hsingle fun _ => scan_closing) ih
  | case7 k cs e rest hread _ _ _ _ _ ih =>
      obtain ⟨he, rfl, hends⟩ := Exponent.read?_eq_some_iff.1 hread
      have hpos : k + ('^' :: e.chars).length = k + 1 + e.chars.length := by
        rw [List.length_cons]
        omega
      have hscan : ∀ n, scan k ('^' :: e.chars ++ rest.take n) =
          (k, .exponent e) :: scan (k + ('^' :: e.chars).length) (rest.take n) := fun n => by
        rw [List.cons_append, scan_caret, Exponent.read?_eq_some_iff.2 ⟨he, rfl, hends.take n⟩, hpos]
      have hfull := hscan rest.length
      rw [List.take_length, hpos] at hfull
      rw [← hfull] at h
      refine exists_stuck_of_lexeme _ h hscan (fun hl => ?_) (hpos ▸ ih)
      -- A beginning of the text may end in the middle of the exponent, or behind the caret.
      show Stuck ts k ('^' :: (e.chars ++ rest)) 0
      refine stuck_of_refuses fun n => ?_
      rw [scan_caret]
      cases Exponent.read? ((e.chars ++ rest).take n) with
      | some r => exact ⟨_, _, rfl, hl.exponent r.1⟩
      | none => exact ⟨_, _, rfl, refuses_bad ts '^'⟩
  | case8 k cs hread _ _ _ _ _ ih =>
      refine ⟨0, stuck_of_refuses fun n => ⟨bad '^', scan (k + 1) (cs.take n), ?_, refuses_bad ts '^'⟩⟩
      rw [scan_caret, Exponent.read?_take_eq_none hread]
  | case9 k c cs h₁ h₂ h₃ h₄ h₅ h₆ ih =>
      refine ⟨0, stuck_of_refuses fun n => ⟨bad c, scan (k + 1) (cs.take n), ?_, refuses_bad ts c⟩⟩
      rw [scan, if_neg h₁, if_neg h₂, if_neg h₃, if_neg h₄, if_neg h₅, if_neg h₆]

/-- Reading the text fails at the position. -/
def RefusedAt (text : String) (p : ℕ) : Prop := ∃ s, ofText text = .error s ∧ s.position = some p

/-- What stands before the position has tokens, and what goes beyond it is refused there. -/
structure StuckAt (text : String) (p : ℕ) : Prop where
  lt_length : p < text.length
  before : ∃ ts, ofText (Text.beginning text p) = .ok ts
  after : ∀ q, p < q → q ≤ text.length → RefusedAt (Text.beginning text q) p

theorem ofText_eq_error_iff {text : String} {s : SyntaxFault} : ofText text = .error s ↔
    (scan 0 text.toList).foldlM (addLexeme text) [] = .error s := by
  unfold ofText
  cases (scan 0 text.toList).foldlM (addLexeme text) [] <;> simp [bind, Except.bind, pure, Except.pure]

/-- A text that has no tokens is refused where reading it got stuck. -/
theorem exists_stuckAt {text : String} {s : SyntaxFault} (h : ofText text = .error s) :
    ∃ p, s.position = some p ∧ StuckAt text p := by
  obtain ⟨p, hp⟩ := exists_stuck_of_foldlM (ofText_eq_error_iff.1 h)
  have hafter : ∀ text' n, text'.toList = text.toList.take n → p < n → RefusedAt text' p := by
    intro text' n htext' hn
    obtain ⟨s', hs', hpos⟩ := hp.after text' n hn
    rw [Nat.zero_add] at hpos
    exact ⟨s', ofText_eq_error_iff.2 (htext' ▸ hs'), hpos⟩
  refine ⟨p, ?_, String.length_toList ▸ hp.lt_length, ?_, fun q hq _ => hafter _ q (String.toList_ofList) hq⟩
  · obtain ⟨s', hs', hpos⟩ := hafter text text.toList.length (by simp) hp.lt_length
    rw [h] at hs'
    rwa [Except.error.inj hs']
  · obtain ⟨us, hus⟩ := hp.before (Text.beginning text p)
    refine ⟨us.reverse, ?_⟩
    unfold ofText Text.beginning
    rw [String.toList_ofList]
    unfold Text.beginning at hus
    rw [hus]
    rfl

end Token

namespace Relator

variable {limit : DigitLimit} {text : String} {n : Nesting} {ts : List Token}

/-! ### Parentheses that do not fit together -/

theorem covered_map_mark_iff : Covered .opening .closing 0 (ts.map Token.mark) ↔
    ∀ us, us <+: ts → (us.map Token.mark).count .closing ≤ (us.map Token.mark).count .opening := by
  constructor
  · exact fun h us hus => h _ (hus.map Token.mark)
  · intro h pre hpre
    rw [List.prefix_iff_eq_take.1 hpre, ← List.map_take]
    exact h _ (List.take_prefix _ ts)

/-- Tokens without a limit on their digits are read as a word, or are refused for a parenthesis that was not
opened, or for one that was not closed. -/
theorem ofTokens_cases (text : String) (ts : List Token) :
    (Balanced (ts.map Token.mark) ∧ ∃ w, ofTokens none text ts = .ok w) ∨
      (¬ Covered .opening .closing 0 (ts.map Token.mark) ∧
        ofTokens none text ts = .error (.malformed ⟨.mismatchedParentheses, text, none⟩)) ∨
      (Covered .opening .closing 0 (ts.map Token.mark) ∧
        (ts.map Token.mark).count .closing < (ts.map Token.mark).count .opening ∧
        ofTokens none text ts = .error (.malformed ⟨.unclosedParenthesis, text, none⟩)) := by
  cases hfold : ts.foldlM (Nesting.add none text) ⟨[], []⟩ with
  | error fault =>
      obtain ⟨m, t, -, ht⟩ := exists_of_foldlM_eq_error hfold
      have hdigits := t.checkDigits_none
      obtain h | ⟨-, -, -, rfl⟩ := add_eq_error_iff.1 ht
      · exact absurd (hdigits.symm.trans h) (by simp)
      · refine .inr (.inl ⟨fun hcovered => ?_, ofTokens_eq_error_iff.2 (.inl hfold)⟩)
        obtain ⟨n, hn⟩ := exists_foldlM_add_iff (n := ⟨[], []⟩).2 ⟨fun t _ => t.checkDigits_none, hcovered⟩
        exact absurd (hfold.symm.trans hn) (by simp)
  | ok n =>
      have hcovered := (exists_foldlM_add_iff.1 ⟨n, hfold⟩).2
      have hlength := length_outer_of_foldlM hfold
      simp only [List.length_nil, Nat.zero_add] at hlength
      obtain ⟨w, outer⟩ := n
      cases outer with
      | nil => exact .inl ⟨⟨hcovered, by simpa using hlength⟩, w, ofTokens_eq_ok_iff.2 hfold⟩
      | cons before outer =>
          refine .inr (.inr ⟨hcovered, ?_, ofTokens_eq_error_iff.2 (.inr ⟨_, hfold, by simp, rfl⟩)⟩)
          rw [← hlength, List.length_cons]
          omega

theorem foldlM_add_limit (limit : DigitLimit) (text : String) (n : Nesting) (ts : List Token) :
    ts.foldlM (Nesting.add limit text) n = ts.foldlM (Nesting.add none text) n ∨
      ∃ t ∈ ts, ∃ fault, t.checkDigits limit = .error fault ∧
        ts.foldlM (Nesting.add limit text) n = .error fault := by
  induction ts generalizing n with
  | nil => exact .inl rfl
  | cons t ts ih =>
      simp only [List.foldlM_cons]
      cases hdigits : t.checkDigits limit with
      | error fault =>
          refine .inr ⟨t, List.mem_cons_self, fault, hdigits, ?_⟩
          rw [add_eq_error_iff.2 (.inl hdigits)]
          rfl
      | ok u =>
          have hadd : n.add limit text t = n.add none text t := by
            unfold Nesting.add
            rw [hdigits, t.checkDigits_none]
          rw [hadd]
          cases n.add none text t with
          | error fault => exact .inl rfl
          | ok n' => exact (ih n').imp_right fun ⟨u, hu, h⟩ => ⟨u, List.mem_cons_of_mem t hu, h⟩

theorem ofTokens_limit (limit : DigitLimit) (text : String) (ts : List Token) :
    ofTokens limit text ts = ofTokens none text ts ∨
      ∃ t ∈ ts, ∃ most digits, limit = some most ∧
        t.checkDigits limit = .error (.tooManyDigits most digits) ∧
        ofTokens limit text ts = .error (.tooManyDigits most digits) := by
  rcases foldlM_add_limit limit text ⟨[], []⟩ ts with heq | ⟨t, ht, fault, hdigits, h⟩
  · exact .inl (by simp only [ofTokens, heq])
  · obtain ⟨most, digits, hlimit, rfl⟩ := exists_tooManyDigits_of_checkDigits hdigits
    exact .inr ⟨t, ht, most, digits, hlimit, hdigits, ofTokens_eq_error_iff.2 (.inl h)⟩

/-- A text without tokens is refused with the fault of its first character that has no place, whatever its
parentheses.  A text that has tokens is refused, without a position, exactly if its parentheses are not
balanced: as mismatched if one of the beginnings of the tokens closes more of them than it opens, and as
unclosed if none does but all tokens together open more than they close.  A limit on the digits of exponents
adds one cause and no other: that a token goes beyond it. -/
theorem parse_locates_fault (text : String) :
    (∀ s, Token.ofText text = .error s →
      (∃ p, s.position = some p ∧ Token.StuckAt text p) ∧
        ∀ limit, parse limit text = .error (.malformed s)) ∧
      ∀ ts, Token.ofText text = .ok ts →
        (∀ limit, parse limit text = parse none text ∨
          ∃ t ∈ ts, ∃ most digits, limit = some most ∧
            t.checkDigits limit = .error (.tooManyDigits most digits) ∧
            parse limit text = .error (.tooManyDigits most digits)) ∧
        ((∃ w, parse none text = .ok w) ↔ Balanced (ts.map Token.mark)) ∧
        ((∃ s, parse none text = .error (.malformed s) ∧ s.position = none) ↔
          ¬ Balanced (ts.map Token.mark)) ∧
        (parse none text = .error (.malformed ⟨.mismatchedParentheses, text, none⟩) ↔
          ∃ us, us <+: ts ∧
            (us.map Token.mark).count .opening < (us.map Token.mark).count .closing) ∧
        (parse none text = .error (.malformed ⟨.unclosedParenthesis, text, none⟩) ↔
          (∀ us, us <+: ts →
            (us.map Token.mark).count .closing ≤ (us.map Token.mark).count .opening) ∧
          (ts.map Token.mark).count .closing < (ts.map Token.mark).count .opening) := by
  refine ⟨fun s hs => ⟨Token.exists_stuckAt hs, fun limit => parse_of_ofText_eq_error hs⟩, fun ts hts => ?_⟩
  have hmismatched : (∃ us, us <+: ts ∧
      (us.map Token.mark).count .opening < (us.map Token.mark).count .closing) ↔
      ¬ Covered .opening .closing 0 (ts.map Token.mark) := by
    rw [covered_map_mark_iff]
    push Not
    rfl
  simp only [parse_of_ofText_eq_ok hts, ← covered_map_mark_iff, hmismatched]
  refine ⟨fun limit => ofTokens_limit limit text ts, ?_⟩
  rcases ofTokens_cases text ts with ⟨hbalanced, w, hw⟩ | ⟨hcovered, hw⟩ | ⟨hcovered, hcount, hw⟩
  · simp [hw, hbalanced, hbalanced.covered, hbalanced.count_eq]
  · have hunbalanced : ¬ Balanced (ts.map Token.mark) := fun h => hcovered h.covered
    simp [hw, hunbalanced, hcovered]
  · have hunbalanced : ¬ Balanced (ts.map Token.mark) := fun h => hcount.ne h.count_eq
    simp [hw, hunbalanced, hcovered, hcount]

/-- The second caret has no exponent behind it, and the parenthesis before it is open: the caret counts.  The
tokens of the other text are balanced in number, but not in order. -/
theorem parse_locates_fault_caret :
    (Token.StuckAt "(a^-2^" 5 ∧
      parse none "(a^-2^" = .error (.malformed ⟨.badToken '^', "(a^-2^", some 5⟩)) ∧
      parse none "(a)^2 ) (" = .error (.malformed ⟨.mismatchedParentheses, "(a)^2 ) (", none⟩) := by
  have hcaret : Token.ofText "(a^-2^" = .error ⟨.badToken '^', "(a^-2^", some 5⟩ := by cbv
  have htokens : Token.ofText "(a)^2 ) (" = .ok [⟨.opening, []⟩, ⟨.letter 'a', []⟩,
      ⟨.closing, [⟨none, ['2']⟩]⟩, ⟨.closing, []⟩, ⟨.opening, []⟩] := by cbv
  obtain ⟨⟨p, hp, hstuck⟩, hparse⟩ := (parse_locates_fault _).1 _ hcaret
  obtain rfl : 5 = p := Option.some.inj hp
  refine ⟨⟨hstuck, hparse none⟩, ((parse_locates_fault _).2 _ htokens).2.2.2.1.2 ?_⟩
  exact ⟨_, List.take_prefix 4 _, by decide⟩

end Relator

end ToddCoxeter
