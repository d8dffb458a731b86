import Mathlib.Data.List.TakeWhile
import Mathlib.Tactic
import ToddCoxeter.Relator.Parser

/-! # Lexemes and the texts that write them

`Lexeme.Written cs ls` says that the text `cs` writes the lexemes `ls` in their order: letters, parentheses
and primes as single characters, exponents behind a caret with all digits that follow, and blanks anywhere
between two lexemes.  It is said without reading the text from left to right.  Cutting a text into lexemes
finds exactly what it writes (`Lexeme.written_iff`), and a text can be cut before a parenthesis
(`Lexeme.written_append_iff`), since no lexeme goes over it. -/

namespace ToddCoxeter

namespace Text

variable {c : Char}

theorem ne_of_apply {q : Char → Bool} {d : Char} (hc : q c) (hd : q d = false) : c ≠ d := by
  rintro rfl
  simp [hc] at hd

theorem isLatinLetter_iff : isLatinLetter c ↔
    0x41 ≤ c.toNat ∧ c.toNat ≤ 0x5A ∨ 0x61 ≤ c.toNat ∧ c.toNat ≤ 0x7A := by
  have hranges : isLatinLetter c =
      (decide (0x41 ≤ c.val ∧ c.val ≤ 0x5A) || decide (0x61 ≤ c.val) && decide (c.val ≤ 0x7A)) := rfl
  simp only [hranges, Bool.or_eq_true, Bool.and_eq_true, decide_eq_true_eq, UInt32.le_iff_toNat_le]
  rfl

theorem isAlphabetic_of_isLatinLetter (h : isLatinLetter c) : isAlphabetic c := by
  refine inRanges_iff.2 ?_
  rcases isLatinLetter_iff.1 h with hupper | hlower
  · exact ⟨(0x41, 0x5A), by decide, hupper⟩
  · exact ⟨(0x61, 0x7A), by decide, hlower⟩

theorem isBlank_eq_false_of_isLatinLetter (h : isLatinLetter c) : isBlank c = false := by
  by_contra hblank
  obtain ⟨r, hr, hlow, hhigh⟩ := inRanges_iff.1 (Bool.of_not_eq_false hblank)
  have hletter := isLatinLetter_iff.1 h
  simp only [blankRanges, List.mem_cons, List.not_mem_nil, or_false] at hr
  rcases hr with rfl | rfl | rfl | rfl | rfl | rfl | rfl | rfl | rfl | rfl <;> omega

theorem isDigit_eq_false_of_isLatinLetter (h : isLatinLetter c) : isDigit c = false := by
  have hzeros : ∀ z ∈ digitZeros, z = 0x30 ∨ 0x660 ≤ z := by decide
  have hletter := isLatinLetter_iff.1 h
  have hnone : digit? c = none := by
    rw [digit?, Option.map_eq_none_iff, List.find?_eq_none]
    intro z hz
    simp only [Bool.and_eq_true, decide_eq_true_eq]
    have := hzeros z hz
    omega
  rw [isDigit, hnone, Option.isSome_none]

theorem isBlank_eq_false_of_isDigit (h : isDigit c) : isBlank c = false := by
  have hapart : ∀ z ∈ digitZeros, ∀ r ∈ blankRanges, z + 9 < r.1 ∨ r.2 < z := by decide
  obtain ⟨d, hd⟩ := Option.isSome_iff_exists.1 h
  obtain ⟨z, hz, -⟩ := Option.map_eq_some_iff.1 hd
  have hrange := List.find?_some hz
  simp only [Bool.and_eq_true, decide_eq_true_eq] at hrange
  by_contra hblank
  obtain ⟨r, hr, hlow, hhigh⟩ := inRanges_iff.1 (Bool.of_not_eq_false hblank)
  have := hapart z (List.mem_of_find?_eq_some hz) r hr
  omega

end Text

namespace Exponent

/-- The exponent consists of a sign, if any, and at least one digit. -/
structure Spelled (e : Exponent) : Prop where
  sign : ∀ c ∈ e.sign, c = '-' ∨ c = '+'
  ne_nil : e.digits ≠ []
  isDigit : ∀ c ∈ e.digits, Text.isDigit c

theorem spelled_prime : prime.Spelled := by
  refine ⟨fun c hc => .inl (Option.some.inj hc).symm, List.cons_ne_nil _ _, fun c hc => ?_⟩
  obtain rfl := List.mem_singleton.1 hc
  decide

/-- What the text begins with, if anything, is no digit. -/
def EndsDigits (cs : List Char) : Prop := ∀ c ∈ cs.head?, ¬ Text.isDigit c

theorem endsDigits_nil : EndsDigits [] := fun c hc => absurd hc (by simp)

theorem endsDigits_cons {c : Char} (h : Text.isDigit c = false) (cs : List Char) : EndsDigits (c :: cs) := by
  intro d hd
  obtain rfl : c = d := by simpa using hd
  simp [h]

theorem Spelled.isDigit_or_sign {e : Exponent} (h : e.Spelled) {c : Char} (hc : c ∈ e.chars) :
    Text.isDigit c ∨ c = '-' ∨ c = '+' := by
  rcases List.mem_append.1 hc with hc | hc
  · exact .inr (h.sign c (by simpa using hc))
  · exact .inl (h.isDigit c hc)

theorem splitSign_chars_append {e : Exponent} (h : e.Spelled) (cs : List Char) :
    Numeral.splitSign (e.chars ++ cs) = (e.sign, e.digits ++ cs) := by
  obtain ⟨sign, digits⟩ := e
  cases sign with
  | none =>
      obtain ⟨d, ds, rfl⟩ := List.exists_cons_of_ne_nil h.ne_nil
      have hdigit := h.isDigit d List.mem_cons_self
      have hminus : d ≠ '-' := Text.ne_of_apply hdigit (by decide)
      have hplus : d ≠ '+' := Text.ne_of_apply hdigit (by decide)
      show Numeral.splitSign (d :: (ds ++ cs)) = _
      unfold Numeral.splitSign
      split <;> simp_all
  | some c =>
      rcases h.sign c rfl with rfl | rfl <;> rfl

theorem splitSign_sign {cs : List Char} {c : Char} (hc : c ∈ (Numeral.splitSign cs).1) :
    c = '-' ∨ c = '+' := by
  unfold Numeral.splitSign at hc
  split at hc
  · exact .inl (Option.some.inj hc).symm
  · exact .inr (Option.some.inj hc).symm
  · exact absurd hc (by simp)

/-- An exponent is read exactly where one is spelled out, with all digits that there are. -/
theorem read?_eq_some_iff {cs rest : List Char} {e : Exponent} :
    read? cs = some (e, rest) ↔ e.Spelled ∧ cs = e.chars ++ rest ∧ EndsDigits rest := by
  constructor
  · intro h
    refine ⟨?_, (chars_append_of_read? h).symm, ?_⟩
    · unfold read? at h
      simp only [Option.ite_none_left_eq_some, Option.some.injEq, Prod.mk.injEq] at h
      obtain ⟨hne, rfl, -⟩ := h
      exact ⟨fun c hc => splitSign_sign hc, fun hnil => hne (List.isEmpty_iff.2 hnil),
        fun c hc => List.mem_takeWhile_imp hc⟩
    · unfold read? at h
      simp only [Option.ite_none_left_eq_some, Option.some.injEq, Prod.mk.injEq] at h
      obtain ⟨-, -, rfl⟩ := h
      intro c hc
      have := List.head?_dropWhile_not Text.isDigit (Numeral.splitSign cs).2
      rw [Option.mem_def.1 hc] at this
      simpa using this
  · rintro ⟨h, rfl, hrest⟩
    have htake : (e.digits ++ rest).takeWhile Text.isDigit = e.digits := by
      rw [List.takeWhile_append_of_pos h.isDigit]
      cases rest with
      | nil => simp
      | cons c cs => simp [hrest c rfl]
    have hdrop : (e.digits ++ rest).dropWhile Text.isDigit = rest := by
      rw [List.dropWhile_append_of_pos h.isDigit]
      cases rest with
      | nil => rfl
      | cons c cs => simp [hrest c rfl]
    have hne := h.ne_nil
    simp [read?, splitSign_chars_append h, htake, hdrop, hne]

end Exponent

namespace Lexeme

/-! ### What a text writes -/

/-- The text writes the lexemes, one after the other and with blanks anywhere around them. -/
inductive Written : List Char → List Lexeme → Prop
  | nil : Written [] []
  | blank {c : Char} {cs : List Char} {ls : List Lexeme} :
      Text.isBlank c → Written cs ls → Written (c :: cs) ls
  | letter {c : Char} {cs : List Char} {ls : List Lexeme} :
      Text.isLatinLetter c → Written cs ls → Written (c :: cs) (mark (.letter c) :: ls)
  | opening {cs : List Char} {ls : List Lexeme} :
      Written cs ls → Written ('(' :: cs) (mark .opening :: ls)
  | closing {cs : List Char} {ls : List Lexeme} :
      Written cs ls → Written (')' :: cs) (mark .closing :: ls)
  | prime {cs : List Char} {ls : List Lexeme} :
      Written cs ls → Written ('\x27' :: cs) (exponent .prime :: ls)
  | power {e : Exponent} {cs : List Char} {ls : List Lexeme} :
      e.Spelled → Exponent.EndsDigits cs → Written cs ls →
        Written ('^' :: (e.chars ++ cs)) (exponent e :: ls)

/-! ### Cutting a text step by step -/

section scan

variable {k : ℕ} {c : Char} {cs : List Char}

theorem scan_blank (h : Text.isBlank c) : scan k (c :: cs) = scan (k + 1) cs := by
  rw [scan, if_pos h]

theorem scan_letter (h : Text.isLatinLetter c) :
    scan k (c :: cs) = (k, mark (.letter c)) :: scan (k + 1) cs := by
  rw [scan, if_neg (by simp [Text.isBlank_eq_false_of_isLatinLetter h]), if_pos h]

theorem scan_opening : scan k ('(' :: cs) = (k, mark .opening) :: scan (k + 1) cs := by
  rw [scan, if_neg (by decide), if_neg (by decide), if_neg (by decide), if_pos rfl]

theorem scan_closing : scan k (')' :: cs) = (k, mark .closing) :: scan (k + 1) cs := by
  rw [scan, if_neg (by decide), if_neg (by decide), if_neg (by decide), if_neg (by decide),
    if_pos rfl]

theorem scan_prime : scan k ('\x27' :: cs) = (k, exponent .prime) :: scan (k + 1) cs := by
  rw [scan, if_neg (by decide), if_neg (by decide), if_pos rfl]

theorem scan_caret : scan k ('^' :: cs) =
    match Exponent.read? cs with
    | some (e, rest) => (k, exponent e) :: scan (k + 1 + e.chars.length) rest
    | none => (k, bad '^') :: scan (k + 1) cs := by
  rw [scan, if_neg (by decide), if_neg (by decide), if_neg (by decide), if_neg (by decide),
    if_neg (by decide), if_pos rfl]
  split <;> rename_i h <;> rw [h]

end scan

theorem Written.map_snd_scan {cs : List Char} {ls : List Lexeme} (h : Written cs ls) (k : ℕ) :
    (scan k cs).map Prod.snd = ls ∧ ∀ c, bad c ∉ ls := by
  induction h generalizing k with
  | nil => simp [scan]
  | blank hc _ ih =>
      rw [scan_blank hc]
      exact ih (k + 1)
  | letter hc _ ih =>
      rw [scan_letter hc]
      simpa using ih (k + 1)
  | opening _ ih =>
      rw [scan_opening]
      simpa using ih (k + 1)
  | closing _ ih =>
      rw [scan_closing]
      simpa using ih (k + 1)
  | prime _ ih =>
      rw [scan_prime]
      simpa using ih (k + 1)
  | power he hends _ ih =>
      rw [scan_caret, Exponent.read?_eq_some_iff.2 ⟨he, rfl, hends⟩]
      simpa using ih _

/-- A text without bad characters writes what the scan finds. -/
theorem written_map_snd_scan {k : ℕ} {cs : List Char}
    (h : ∀ c, bad c ∉ (scan k cs).map Prod.snd) : Written cs ((scan k cs).map Prod.snd) := by
  fun_induction scan k cs with
  | case1 => exact .nil
  | case2 k c cs hc ih => exact .blank hc (ih h)
  | case3 k c cs _ hc ih => exact .letter hc (ih fun d => by simpa using h d)
  | case4 k cs _ _ ih => exact .prime (ih fun d => by simpa using h d)
  | case5 k cs _ _ _ ih => exact .opening (ih fun d => by simpa using h d)
  | case6 k cs _ _ _ _ ih => exact .closing (ih fun d => by simpa using h d)
  | case7 k cs e rest hread _ _ _ _ _ ih =>
      obtain ⟨he, rfl, hends⟩ := Exponent.read?_eq_some_iff.1 hread
      exact .power he hends (ih fun d => by simpa using h d)
  | case8 => exact absurd List.mem_cons_self (h '^')
  | case9 k c => exact absurd List.mem_cons_self (h c)

/-- A text writes exactly the lexemes into which it is cut, if none of them is bad. -/
theorem written_iff {cs : List Char} {ls : List Lexeme} (k : ℕ) :
    Written cs ls ↔ (scan k cs).map Prod.snd = ls ∧ ∀ c, bad c ∉ ls := by
  refine ⟨fun h => h.map_snd_scan k, ?_⟩
  rintro ⟨rfl, h⟩
  exact written_map_snd_scan h

theorem Written.unique {cs : List Char} {ls ls' : List Lexeme} (h : Written cs ls)
    (h' : Written cs ls') : ls = ls' :=
  ((written_iff 0).1 h).1.symm.trans ((written_iff 0).1 h').1

/-! ### Cutting a text before a character that goes on no exponent -/

/-- What the text begins with, if anything, can be no part of an exponent before it. -/
def Separate (cs : List Char) : Prop := ∀ c ∈ cs.head?, ¬ (Text.isDigit c ∨ c = '-' ∨ c = '+')

theorem separate_opening (cs : List Char) : Separate ('(' :: cs) := by
  intro c hc
  obtain rfl : '(' = c := by simpa using hc
  decide

theorem separate_closing (cs : List Char) : Separate (')' :: cs) := by
  intro c hc
  obtain rfl : ')' = c := by simpa using hc
  decide

theorem read?_append {cs cs' : List Char} (h : Separate cs') :
    Exponent.read? (cs ++ cs') = (Exponent.read? cs).map fun r => (r.1, r.2 ++ cs') := by
  have hends : ∀ rest, Exponent.EndsDigits (rest ++ cs') ↔ Exponent.EndsDigits rest := by
    intro rest
    cases rest with
    | nil =>
        exact iff_of_true (fun c hc hdigit => h c hc (.inl hdigit)) Exponent.endsDigits_nil
    | cons c rest => rfl
  cases hread : Exponent.read? cs with
  | some r =>
      obtain ⟨e, rest⟩ := r
      obtain ⟨he, rfl, hrest⟩ := Exponent.read?_eq_some_iff.1 hread
      exact Exponent.read?_eq_some_iff.2 ⟨he, List.append_assoc .., (hends rest).2 hrest⟩
  | none =>
      refine Option.eq_none_iff_forall_ne_some.2 fun r hr => ?_
      obtain ⟨e, rest⟩ := r
      obtain ⟨he, heq, hrest⟩ := Exponent.read?_eq_some_iff.1 hr
      have hinside : ∀ tail, cs = e.chars ++ tail → ¬ Exponent.EndsDigits tail := by
        rintro tail rfl htail
        rw [Exponent.read?_eq_some_iff.2 ⟨he, rfl, htail⟩] at hread
        exact absurd hread (by simp)
      rcases List.append_eq_append_iff.1 heq with ⟨as, hchars, htail⟩ | ⟨as, rfl, htail⟩
      · cases as with
        | nil => exact hinside [] (by simpa using hchars.symm) Exponent.endsDigits_nil
        | cons c as =>
            have hc : c ∈ e.chars := by simp [hchars]
            exact h c (by simp [htail]) (he.isDigit_or_sign hc)
      · exact hinside as rfl ((hends as).1 (htail ▸ hrest))

theorem scan_append {cs' : List Char} (h : Separate cs') (k : ℕ) (cs : List Char) :
    scan k (cs ++ cs') = scan k cs ++ scan (k + cs.length) cs' := by
  fun_induction scan k cs with
  | case1 => simp
  | case2 k c cs hc ih => simp [scan_blank hc, ih, Nat.add_assoc, Nat.add_comm 1]
  | case3 k c cs _ hc ih => simp [scan_letter hc, ih, Nat.add_assoc, Nat.add_comm 1]
  | case4 k cs _ _ ih => simp [scan_prime, ih, Nat.add_assoc, Nat.add_comm 1]
  | case5 k cs _ _ _ ih => simp [scan_opening, ih, Nat.add_assoc, Nat.add_comm 1]
  | case6 k cs _ _ _ _ ih => simp [scan_closing, ih, Nat.add_assoc, Nat.add_comm 1]
  | case7 k cs e rest hread _ _ _ _ _ ih =>
      obtain ⟨-, rfl, -⟩ := Exponent.read?_eq_some_iff.1 hread
      have hpos : k + 1 + e.chars.length + rest.length = k + (e.chars.length + rest.length + 1) := by
        omega
      rw [List.cons_append, scan_caret, read?_append h, hread]
      simp [ih, hpos]
  | case8 k cs hread _ _ _ _ _ ih =>
      rw [List.cons_append, scan_caret, read?_append h, hread]
      simp [ih, Nat.add_assoc, Nat.add_comm 1]
  | case9 k c cs h₁ h₂ h₃ h₄ h₅ h₆ ih =>
      rw [List.cons_append, scan, if_neg h₁, if_neg h₂, if_neg h₃, if_neg h₄, if_neg h₅, if_neg h₆]
      simp [ih, Nat.add_assoc, Nat.add_comm 1]

/-- Where no exponent can go on, a text may be cut without a change of what it writes. -/
theorem written_append_iff {cs cs' : List Char} (h : Separate cs') {ls : List Lexeme} :
    Written (cs ++ cs') ls ↔ ∃ ls₁ ls₂, Written cs ls₁ ∧ Written cs' ls₂ ∧ ls = ls₁ ++ ls₂ := by
  rw [written_iff 0, scan_append h, List.map_append]
  constructor
  · rintro ⟨rfl, hbad⟩
    simp only [List.mem_append, not_or] at hbad
    exact ⟨_, _, (written_iff 0).2 ⟨rfl, fun c => (hbad c).1⟩,
      (written_iff _).2 ⟨rfl, fun c => (hbad c).2⟩, rfl⟩
  · rintro ⟨ls₁, ls₂, h₁, h₂, rfl⟩
    obtain ⟨heq₁, hbad₁⟩ := (written_iff 0).1 h₁
    obtain ⟨heq₂, hbad₂⟩ := (written_iff _).1 h₂
    rw [heq₁, heq₂]
    exact ⟨rfl, fun c hc => (List.mem_append.1 hc).elim (hbad₁ c) (hbad₂ c)⟩

end Lexeme

end ToddCoxeter
