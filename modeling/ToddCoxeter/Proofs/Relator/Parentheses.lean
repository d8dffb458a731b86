import ToddCoxeter.Proofs.Relator.Grammar

/-! # Parentheses

A list is `Covered` if in none of its beginnings there are more closing than opening marks, where `d` marks
may have been opened before.  The tokens of a text are read as a word exactly if their marks are covered
and as many are closed as are opened (`Relator.Balanced`, `Relator.exists_ofTokens_eq_ok_iff`).  The
parentheses of the tokens are those of the text (`Relator.covered_iff_of_written`). -/

namespace ToddCoxeter

section Covered

variable {α : Type} [DecidableEq α] {o c a : α} {d : ℕ} {as bs : List α}

/-- In each beginning of the list at most `d` more marks are closed than are opened. -/
def Covered (o c : α) (d : ℕ) (as : List α) : Prop :=
  ∀ pre, pre <+: as → pre.count c ≤ pre.count o + d

instance : Decidable (Covered o c d as) :=
  decidable_of_iff (∀ pre ∈ as.inits, pre.count c ≤ pre.count o + d) (by simp [Covered])

@[simp] theorem covered_nil : Covered o c d [] := by
  simp [Covered]

theorem covered_cons_iff : Covered o c d (a :: as) ↔
    ∀ pre, pre <+: as → (a :: pre).count c ≤ (a :: pre).count o + d := by
  constructor
  · exact fun h pre hpre => h _ (List.cons_prefix_cons.2 ⟨rfl, hpre⟩)
  · intro h pre hpre
    rcases List.prefix_cons_iff.1 hpre with rfl | ⟨pre', rfl, hpre'⟩
    · simp
    · exact h pre' hpre'

theorem covered_cons_of_ne (ho : a ≠ o) (hc : a ≠ c) :
    Covered o c d (a :: as) ↔ Covered o c d as := by
  rw [covered_cons_iff]
  simp [Covered, ho, hc]

theorem covered_cons_opening (hne : o ≠ c) :
    Covered o c d (o :: as) ↔ Covered o c (d + 1) as := by
  rw [covered_cons_iff]
  simp [Covered, hne, Nat.add_assoc, Nat.add_comm 1]

theorem covered_cons_closing (hne : o ≠ c) :
    Covered o c d (c :: as) ↔ 0 < d ∧ Covered o c (d - 1) as := by
  rw [covered_cons_iff]
  simp only [List.count_cons_self, List.count_cons_of_ne hne.symm]
  constructor
  · intro h
    have hpos := h [] (List.nil_prefix)
    simp only [List.count_nil] at hpos
    refine ⟨by omega, fun pre hpre => ?_⟩
    have := h pre hpre
    omega
  · rintro ⟨hpos, h⟩ pre hpre
    have := h pre hpre
    omega

theorem covered_append_of_notMem (h : o ∉ as ∧ c ∉ as) :
    Covered o c d (as ++ bs) ↔ Covered o c d bs := by
  induction as with
  | nil => rfl
  | cons a as ih =>
      simp only [List.mem_cons, not_or] at h
      rw [List.cons_append, covered_cons_of_ne (Ne.symm h.1.1) (Ne.symm h.2.1)]
      exact ih ⟨h.1.2, h.2.2⟩

end Covered

namespace Relator

variable {limit : DigitLimit} {text : String} {n n' : Nesting} {ts : List Token}

/-- Each parenthesis that is closed was opened before, and all that are opened are closed. -/
structure Balanced (ms : List Mark) : Prop where
  covered : Covered .opening .closing 0 ms
  count_eq : ms.count .closing = ms.count .opening

theorem length_outer_of_add {t : Token} (h : n.add limit text t = .ok n') :
    n'.outer.length + [t.mark].count .closing = n.outer.length + [t.mark].count .opening := by
  obtain ⟨-, ⟨hmark, rfl⟩ | ⟨c, hmark, rfl⟩ | ⟨hmark, before, outer, houter, rfl⟩⟩ :=
    add_eq_ok_iff.1 h <;> simp [*]

theorem length_outer_of_foldlM (h : ts.foldlM (Nesting.add limit text) n = .ok n') :
    n'.outer.length + (ts.map Token.mark).count .closing =
      n.outer.length + (ts.map Token.mark).count .opening := by
  induction ts generalizing n with
  | nil =>
      obtain rfl : n = n' := by simpa [pure, Except.pure] using h
      rfl
  | cons t ts ih =>
      obtain ⟨m, hm, hrest⟩ := foldlM_cons_eq_ok_iff.1 h
      have hfirst := length_outer_of_add hm
      have hrest := ih hrest
      rw [List.map_cons, ← List.singleton_append, List.count_append, List.count_append]
      omega

/-- Tokens can be added as long as there is an open parenthesis for each that they close. -/
theorem exists_foldlM_add_iff :
    (∃ n', ts.foldlM (Nesting.add limit text) n = .ok n') ↔
      (∀ t ∈ ts, t.checkDigits limit = .ok ()) ∧
        Covered .opening .closing n.outer.length (ts.map Token.mark) := by
  induction ts generalizing n with
  | nil => simp [pure, Except.pure]
  | cons t ts ih =>
      have hne : Mark.opening ≠ .closing := by decide
      simp only [foldlM_cons_eq_ok_iff, List.map_cons, List.forall_mem_cons]
      rw [exists_comm]
      simp only [exists_and_left, ih]
      cases hmark : t.mark with
      | letter c =>
          rw [covered_cons_of_ne (by simp) (by simp)]
          simp [add_eq_ok_iff, hmark, and_assoc]
      | opening =>
          rw [covered_cons_opening hne]
          simp [add_eq_ok_iff, hmark, and_assoc]
      | closing =>
          rw [covered_cons_closing hne]
          obtain ⟨current, outer⟩ := n
          cases outer <;> simp [add_eq_ok_iff, hmark, and_assoc]

/-- Tokens are read as a word if no exponent is too long and their parentheses are balanced. -/
theorem exists_ofTokens_eq_ok_iff : (∃ w, ofTokens limit text ts = .ok w) ↔
    (∀ t ∈ ts, t.checkDigits limit = .ok ()) ∧ Balanced (ts.map Token.mark) := by
  simp only [ofTokens_eq_ok_iff]
  constructor
  · rintro ⟨w, h⟩
    obtain ⟨hdigits, hcovered⟩ := exists_foldlM_add_iff.1 ⟨_, h⟩
    have hlength := length_outer_of_foldlM h
    simp only [List.length_nil, Nat.zero_add] at hlength
    exact ⟨hdigits, hcovered, hlength⟩
  · rintro ⟨hdigits, hcovered, hcount⟩
    obtain ⟨⟨w, outer⟩, hn⟩ := exists_foldlM_add_iff (n := ⟨[], []⟩).2 ⟨hdigits, hcovered⟩
    have hlength := length_outer_of_foldlM hn
    obtain rfl : outer = [] := by
      rw [← List.length_eq_zero_iff]
      simp only [List.length_nil] at hlength
      omega
    exact ⟨w, hn⟩

/-! ### Parentheses of texts -/

/-- The mark of a lexeme, if it is one. -/
def mark? : Lexeme → Option Mark
  | .mark m => some m
  | _ => none

theorem filterMap_mark?_flatMap_lexemes (ts : List Token) :
    (ts.flatMap Token.lexemes).filterMap mark? = ts.map Token.mark := by
  induction ts with
  | nil => rfl
  | cons t ts ih =>
      have hexponents : (t.exponents.map Lexeme.exponent).filterMap mark? = [] := by
        simp [mark?]
      simp [Token.lexemes, mark?, ih, hexponents]

theorem covered_iff_of_written {cs : List Char} {ls : List Lexeme} (h : Lexeme.Written cs ls) (d : ℕ) :
    Covered '(' ')' d cs ↔ Covered .opening .closing d (ls.filterMap mark?) := by
  have hne : Mark.opening ≠ .closing := by decide
  induction h generalizing d with
  | nil => simp
  | @blank c cs ls hc _ ih =>
      rw [covered_cons_of_ne (Text.ne_of_apply hc (by decide)) (Text.ne_of_apply hc (by decide))]
      exact ih d
  | @letter c cs ls hc _ ih =>
      rw [covered_cons_of_ne (Text.ne_of_apply hc (by decide)) (Text.ne_of_apply hc (by decide))]
      exact (ih d).trans (covered_cons_of_ne (by simp) (by simp)).symm
  | opening _ ih =>
      rw [covered_cons_opening (by decide)]
      exact (ih (d + 1)).trans (covered_cons_opening hne).symm
  | closing _ ih =>
      rw [covered_cons_closing (by decide)]
      exact (and_congr_right fun _ => ih (d - 1)).trans (covered_cons_closing hne).symm
  | prime _ ih =>
      rw [covered_cons_of_ne (by decide) (by decide)]
      exact ih d
  | @power e cs ls he _ _ ih =>
      have hchars : '(' ∉ e.chars ∧ ')' ∉ e.chars :=
        ⟨fun hmem => absurd (he.isDigit_or_sign hmem) (by decide),
          fun hmem => absurd (he.isDigit_or_sign hmem) (by decide)⟩
      rw [covered_cons_of_ne (by decide) (by decide), covered_append_of_notMem hchars]
      exact ih d

end Relator

end ToddCoxeter
