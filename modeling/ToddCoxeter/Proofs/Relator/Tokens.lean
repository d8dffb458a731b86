import ToddCoxeter.Proofs.Lists
import ToddCoxeter.Proofs.Relator.Lexing

/-! # The tokens of a text

A token stands for its mark and the exponents behind it (`Token.lexemes`), and an opening parenthesis is
the one mark that exponents may not follow (`Token.Legal`).  The tokens of a text are those whose lexemes
the text writes, all of them legal (`Token.ofText_eq_ok_iff`); what has no such tokens is refused. -/

namespace ToddCoxeter.Token

/-- The mark, and the exponents behind it. -/
def lexemes (t : Token) : List Lexeme := .mark t.mark :: t.exponents.map .exponent

/-- No exponent follows an opening parenthesis. -/
def Legal (t : Token) : Prop := t.mark = .opening → t.exponents = []

theorem bad_notMem_flatMap_lexemes (ts : List Token) (c : Char) : .bad c ∉ ts.flatMap lexemes := by
  simp [lexemes]

variable {text : String} {ts ts' : List Token} {k : ℕ} {l : Lexeme}

theorem exists_append_of_flatMap_lexemes {ls ls' : List Lexeme} {m : Mark}
    (h : ts.flatMap lexemes = ls ++ .mark m :: ls') :
    ∃ ts₁ es ts₂, ts = ts₁ ++ ⟨m, es⟩ :: ts₂ ∧ ts₁.flatMap lexemes = ls ∧
      es.map .exponent ++ ts₂.flatMap lexemes = ls' := by
  induction ts generalizing ls with
  | nil => simp at h
  | cons t ts ih =>
      rw [List.flatMap_cons, lexemes, List.cons_append] at h
      cases ls with
      | nil =>
          obtain ⟨hmark, hrest⟩ := List.cons.inj h
          obtain rfl : t.mark = m := Lexeme.mark.inj hmark
          exact ⟨[], t.exponents, ts, rfl, rfl, hrest⟩
      | cons l ls =>
          rw [List.cons_append] at h
          obtain ⟨rfl, hrest⟩ := List.cons.inj h
          -- The mark is no exponent of `t`, so it stands behind all of these.
          obtain ⟨ls, rfl⟩ : ∃ ls₀, ls = t.exponents.map .exponent ++ ls₀ := by
            rcases List.append_eq_append_iff.1 hrest with ⟨as, rfl, -⟩ | ⟨as, has, hm⟩
            · exact ⟨as, rfl⟩
            · cases as with
              | nil => exact ⟨[], by simpa using has.symm⟩
              | cons a as =>
                  obtain ⟨rfl, -⟩ := List.cons.inj hm
                  have hmem : Lexeme.mark m ∈ t.exponents.map .exponent := by simp [has]
                  simp at hmem
          rw [List.append_assoc] at hrest
          obtain ⟨ts₁, es, ts₂, rfl, rfl, hes⟩ := ih (List.append_cancel_left hrest)
          exact ⟨t :: ts₁, es, ts₂, rfl, rfl, hes⟩

/-! ### Joining exponents to the tokens before them -/

/-- A mark begins a token, and an exponent goes to the token before it, if that is no opening
parenthesis. -/
theorem addLexeme_eq_ok_iff : addLexeme text ts (k, l) = .ok ts' ↔
    (∃ m, l = .mark m ∧ ts' = ⟨m, []⟩ :: ts) ∨
      ∃ e t rest, l = .exponent e ∧ ts = t :: rest ∧ t.mark ≠ .opening ∧
        ts' = { t with exponents := t.exponents ++ [e] } :: rest := by
  cases l with
  | mark m => simp [addLexeme, eq_comm]
  | bad c => simp [addLexeme]
  | exponent e =>
      cases ts with
      | nil => simp [addLexeme]
      | cons t rest =>
          by_cases ht : t.mark = .opening
          · simp [addLexeme, ht]
          · have ht' : Mark.opening ≠ t.mark := Ne.symm ht
            simp [addLexeme, ht, ht', eq_comm]

theorem flatMap_lexemes_of_addLexeme (h : addLexeme text ts (k, l) = .ok ts')
    (hlegal : ∀ t ∈ ts, t.Legal) :
    ts'.reverse.flatMap lexemes = ts.reverse.flatMap lexemes ++ [l] ∧ ∀ t ∈ ts', t.Legal := by
  rcases addLexeme_eq_ok_iff.1 h with ⟨m, rfl, rfl⟩ | ⟨e, t, rest, rfl, rfl, ht, rfl⟩
  · refine ⟨by simp [lexemes], List.forall_mem_cons.2 ⟨fun _ => rfl, hlegal⟩⟩
  · refine ⟨by simp [lexemes], List.forall_mem_cons.2 ⟨fun hopen => absurd hopen ht, ?_⟩⟩
    exact (List.forall_mem_cons.1 hlegal).2

theorem flatMap_lexemes_of_foldlM {ps : List (ℕ × Lexeme)}
    (h : ps.foldlM (addLexeme text) ts = .ok ts') (hlegal : ∀ t ∈ ts, t.Legal) :
    ts'.reverse.flatMap lexemes = ts.reverse.flatMap lexemes ++ ps.map Prod.snd ∧
      ∀ t ∈ ts', t.Legal := by
  induction ps generalizing ts with
  | nil =>
      obtain rfl : ts = ts' := by simpa [pure, Except.pure] using h
      simpa using hlegal
  | cons p ps ih =>
      obtain ⟨us, hp, hps⟩ := foldlM_cons_eq_ok_iff.1 h
      obtain ⟨hus, hlegal'⟩ := flatMap_lexemes_of_addLexeme hp hlegal
      obtain ⟨hrest, hlegal''⟩ := ih hps hlegal'
      exact ⟨by simp [hrest, hus], hlegal''⟩

theorem foldlM_addLexeme_exponents {ps : List (ℕ × Lexeme)} {t : Token} {es : List Exponent}
    (hps : ps.map Prod.snd = es.map .exponent) (ht : t.mark = .opening → es = []) :
    ps.foldlM (addLexeme text) (t :: ts) =
      .ok ({ t with exponents := t.exponents ++ es } :: ts) := by
  induction es generalizing ps t with
  | nil =>
      obtain rfl : ps = [] := by simpa using hps
      simp [pure, Except.pure]
  | cons e es ih =>
      obtain ⟨p, ps, rfl, hp, hps⟩ := List.map_eq_cons_iff.1 hps
      have hmark : t.mark ≠ .opening := fun hopen => absurd (ht hopen) (by simp)
      have hadd : addLexeme text (t :: ts) p =
          .ok ({ t with exponents := t.exponents ++ [e] } :: ts) :=
        addLexeme_eq_ok_iff.2 (.inr ⟨e, t, ts, hp, rfl, hmark, rfl⟩)
      have hrest := ih (t := { t with exponents := t.exponents ++ [e] }) hps
        fun hopen => absurd hopen hmark
      refine foldlM_cons_eq_ok_iff.2 ⟨_, hadd, ?_⟩
      simpa using hrest

theorem foldlM_addLexeme_lexemes {ps : List (ℕ × Lexeme)} {us : List Token}
    (hps : ps.map Prod.snd = us.flatMap lexemes) (hlegal : ∀ t ∈ us, t.Legal) :
    ps.foldlM (addLexeme text) ts = .ok (us.reverse ++ ts) := by
  induction us generalizing ps ts with
  | nil =>
      obtain rfl : ps = [] := by simpa using hps
      rfl
  | cons u us ih =>
      obtain ⟨hu, hus⟩ := List.forall_mem_cons.1 hlegal
      rw [List.flatMap_cons, List.map_eq_append_iff] at hps
      obtain ⟨ps₁, ps₂, rfl, hps₁, hps₂⟩ := hps
      obtain ⟨p, ps₁, rfl, hp, hps₁⟩ := List.map_eq_cons_iff.1 hps₁
      have hadd : addLexeme text ts p = .ok (⟨u.mark, []⟩ :: ts) :=
        addLexeme_eq_ok_iff.2 (.inl ⟨u.mark, hp, rfl⟩)
      have hexponents : ps₁.foldlM (addLexeme text) (⟨u.mark, []⟩ :: ts) = .ok (u :: ts) :=
        foldlM_addLexeme_exponents (t := ⟨u.mark, []⟩) hps₁ hu
      refine foldlM_append_eq_ok_iff.2 ⟨_, foldlM_cons_eq_ok_iff.2 ⟨_, hadd, hexponents⟩, ?_⟩
      simpa using ih hps₂ hus

/-- The tokens of a text are the legal ones whose lexemes it writes. -/
theorem ofText_eq_ok_iff : ofText text = .ok ts ↔
    Lexeme.Written text.toList (ts.flatMap lexemes) ∧ ∀ t ∈ ts, t.Legal := by
  unfold ofText
  rw [Lexeme.written_iff 0]
  constructor
  · intro h
    cases hfold : (Lexeme.scan 0 text.toList).foldlM (addLexeme text) [] with
    | error fault => simp [hfold, bind, Except.bind] at h
    | ok us =>
        obtain rfl : us.reverse = ts := by
          simpa [hfold, bind, Except.bind, pure, Except.pure] using h
        obtain ⟨hmap, hlegal⟩ := flatMap_lexemes_of_foldlM hfold (by simp)
        exact ⟨⟨by simpa using hmap.symm, bad_notMem_flatMap_lexemes _⟩, by simpa using hlegal⟩
  · rintro ⟨⟨hmap, -⟩, hlegal⟩
    rw [foldlM_addLexeme_lexemes hmap hlegal]
    simp [bind, Except.bind, pure, Except.pure]

end ToddCoxeter.Token
