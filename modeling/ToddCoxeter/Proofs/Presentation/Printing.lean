import ToddCoxeter.Proofs.Presentation.Equations
import ToddCoxeter.Proofs.Relator.Printing

/-! # Reading a presentation that is written

A presentation is laid out as a text if its generators and its relators stand between angle brackets, with
commas between them and a bar behind the generators, and with blanks anywhere around each of these
(`Presentation.LaidOut`).  In particular it is laid out as it is printed (`Presentation.laidOut_render`).

The text of a word over single letters holds no comma, bar, blank or sign of equality
(`Relator.plain_render`).  So a text of this layout is cut into the generators and the printed relators again
(`PresentationText.read_of_laidOut`), and it is accepted as the presentation from which it was made
(`Enumeration.ofText_of_laidOut`). -/

namespace ToddCoxeter

/-! ### Items between blanks and commas -/

namespace Text

variable {a b cs ds before after : List Char} {items : List (List Char)} {sep : Char}

/-- The text is the item with blanks around it. -/
def Spaced (a cs : List Char) : Prop :=
  ∃ before after, (∀ c ∈ before, isBlank c) ∧ (∀ c ∈ after, isBlank c) ∧ cs = before ++ (a ++ after)

/-- The text lists the items with commas between them and blanks around each of them. -/
inductive Listed : List (List Char) → List Char → Prop
  | nil {cs : List Char} : (∀ c ∈ cs, isBlank c) → Listed [] cs
  | last {a cs : List Char} : Spaced a cs → Listed [a] cs
  | more {a b cs ds : List Char} {items : List (List Char)} :
      Spaced a cs → Listed (b :: items) ds → Listed (a :: b :: items) (cs ++ ',' :: ds)

/-- The item is not empty, and neither blanks nor what separates and joins items is part of it. -/
structure Plain (a : List Char) : Prop where
  ne_nil : a ≠ []
  blank : ∀ c ∈ a, isBlank c = false
  comma : ',' ∉ a
  bar : '|' ∉ a
  equals : '=' ∉ a

theorem dropWhile_isBlank_append (hne : a ≠ []) (hfirst : ∀ c ∈ a.head?, isBlank c = false)
    (cs : List Char) : (a ++ cs).dropWhile isBlank = a ++ cs := by
  cases a with
  | nil => exact absurd rfl hne
  | cons c a => exact List.dropWhile_cons_of_neg (by simp [hfirst c rfl])

theorem trim_of_spaced (hne : a ≠ []) (hfirst : ∀ c ∈ a.head?, isBlank c = false)
    (hlast : ∀ c ∈ a.getLast?, isBlank c = false) (h : Spaced a cs) : trim cs = a := by
  obtain ⟨before, after, hbefore, hafter, rfl⟩ := h
  have hreverse := dropWhile_isBlank_append (a := a.reverse) (by simpa using hne)
    (by simpa using hlast) []
  rw [List.append_nil] at hreverse
  rw [trim, List.dropWhile_append_of_pos hbefore, dropWhile_isBlank_append hne hfirst, List.reverse_append,
    List.dropWhile_append_of_pos (by simpa using hafter), hreverse, List.reverse_reverse]

theorem trim_of_blank (h : ∀ c ∈ cs, isBlank c) : trim cs = [] := by
  rw [trim, List.dropWhile_eq_nil_iff.2 h]
  rfl

theorem notMem_of_isBlank (hsep : isBlank sep = false) (h : ∀ c ∈ cs, isBlank c) : sep ∉ cs :=
  fun hmem => absurd (h sep hmem) (by simp [hsep])

theorem Spaced.notMem (hsep : isBlank sep = false) (ha : sep ∉ a) (h : Spaced a cs) : sep ∉ cs := by
  obtain ⟨before, after, hbefore, hafter, rfl⟩ := h
  simp only [List.mem_append, not_or]
  exact ⟨notMem_of_isBlank hsep hbefore, ha, notMem_of_isBlank hsep hafter⟩

theorem Plain.trim_eq (ha : Plain a) (h : Spaced a cs) : trim cs = a :=
  trim_of_spaced ha.ne_nil (fun c hc => ha.blank c (List.mem_of_mem_head? hc))
    (fun c hc => ha.blank c (List.mem_of_mem_getLast? hc)) h

theorem Listed.map_trim_fields (h : Listed items cs) (hitems : ∀ a ∈ items, Plain a) :
    (fields ',' cs).map trim = if items = [] then [[]] else items := by
  induction h with
  | nil hblank =>
      rw [fields_of_notMem (notMem_of_isBlank (by decide) hblank), List.map_singleton, trim_of_blank hblank]
      rfl
  | last hspaced =>
      have ha := hitems _ List.mem_cons_self
      rw [fields_of_notMem (hspaced.notMem (by decide) ha.comma), List.map_singleton, ha.trim_eq hspaced]
      rfl
  | more hspaced _ ih =>
      obtain ⟨ha, hitems⟩ := List.forall_mem_cons.1 hitems
      rw [fields_append_cons (hspaced.notMem (by decide) ha.comma), List.map_cons, ha.trim_eq hspaced,
        ih hitems]
      rfl

theorem Listed.bar_notMem (h : Listed items cs) (hitems : ∀ a ∈ items, Plain a) : '|' ∉ cs := by
  induction h with
  | nil hblank => exact notMem_of_isBlank (by decide) hblank
  | last hspaced => exact hspaced.notMem (by decide) (hitems _ List.mem_cons_self).bar
  | more hspaced _ ih =>
      obtain ⟨ha, hitems⟩ := List.forall_mem_cons.1 hitems
      simp only [List.mem_append, List.mem_cons, not_or]
      exact ⟨hspaced.notMem (by decide) ha.bar, by decide, ih hitems⟩

theorem cutAt_append_cons (h : sep ∉ cs) (ds : List Char) : cutAt sep (cs ++ sep :: ds) = (cs, some ds) := by
  induction cs with
  | nil => simp [cutAt]
  | cons c cs ih =>
      simp only [List.mem_cons, not_or] at h
      simp [cutAt, Ne.symm h.1, ih h.2]

theorem listed_intercalate (hbefore : ∀ c ∈ before, isBlank c) (hafter : ∀ c ∈ after, isBlank c)
    (items : List (List Char)) :
    Listed items (before ++ ([',', ' '].intercalate items ++ after)) := by
  induction items generalizing before with
  | nil => exact .nil (List.forall_mem_append.2 ⟨hbefore, by simpa using hafter⟩)
  | cons a items ih =>
      cases items with
      | nil =>
          rw [List.intercalate_singleton]
          exact .last ⟨before, after, hbefore, hafter, rfl⟩
      | cons b items =>
          have hspace : ∀ c ∈ [' '], isBlank c := List.forall_mem_singleton.2 (by decide)
          have hfirst : Spaced a (before ++ a) := ⟨before, [], hbefore, by simp, by simp⟩
          have hmore := Listed.more hfirst (ih hspace)
          simpa [List.intercalate_cons_cons] using hmore

end Text

/-! ### The layout of a presentation -/

/-- The text is the presentation between angle brackets: the generators, a bar and the relators, with commas
between them and blanks anywhere around each of these. -/
def Presentation.LaidOut (p : Presentation) (text : String) : Prop :=
  ∃ left right, Text.Listed (p.generators.map String.toList) left ∧
    Text.Listed (p.relators.map fun w => w.render.toList) right ∧
    Text.Spaced ('<' :: (left ++ '|' :: right) ++ ['>']) text.toList

/-- A presentation is printed in this layout. -/
theorem Presentation.laidOut_render (p : Presentation) : p.LaidOut p.render := by
  have hspace : ∀ c ∈ [' '], Text.isBlank c := List.forall_mem_singleton.2 (by decide)
  have hnone : ∀ c ∈ ([] : List Char), Text.isBlank c := by simp
  refine ⟨_, _, Text.listed_intercalate hnone hspace _, Text.listed_intercalate hspace hnone _, [], [], hnone,
    hnone, ?_⟩
  simp [render, String.toList_append, String.toList_intercalate]
  rfl

namespace PresentationText

open ToddCoxeter.Text

variable {p : Presentation} {text : String} {entry : List Char}

theorem plain_of_isGenerator {cs : List Char} (h : isGenerator cs) : Plain cs := by
  obtain ⟨c, rfl, hc⟩ := isGenerator_iff.1 h
  refine ⟨List.cons_ne_nil _ _, ?_, ?_, ?_, ?_⟩
  · exact List.forall_mem_singleton.2 (isBlank_eq_false_of_isLatinLetter hc)
  all_goals exact fun hmem => absurd (List.mem_singleton.1 hmem) (ne_of_apply hc (by decide)).symm

theorem relatorText_of_plain (hentry : Plain entry) (hone : entry ≠ ['1']) :
    relatorText text entry = .ok entry := by
  have htrim : trim entry = entry := hentry.trim_eq ⟨[], [], by simp, by simp, by simp⟩
  refine relatorText_eq_ok_iff.2 (.inl ⟨entry, sides_of_notMem htrim hentry.equals, hentry.ne_nil, ?_⟩)
  exact (if_neg hone).symm

theorem body?_of_spaced {body : List Char} (h : Spaced ('<' :: body ++ ['>']) text.toList) :
    body? text.toList = some body := by
  have hfirst : ∀ c ∈ ('<' :: body ++ ['>']).head?, isBlank c = false := by
    intro c hc
    obtain rfl : '<' = c := by simpa using hc
    decide
  have hlast : ∀ c ∈ ('<' :: body ++ ['>']).getLast?, isBlank c = false := by
    intro c hc
    rw [List.getLast?_concat] at hc
    obtain rfl : '>' = c := by simpa using hc
    decide
  rw [body?, trim_of_spaced (by simp) hfirst hlast h, List.cons_append]
  simp only [List.getLast?_concat, if_true, List.dropLast_concat]

/-- A text in this layout is cut into the generators and the printed relators. -/
theorem read_of_laidOut (hne : p.generators ≠ []) (hgens : ∀ g ∈ p.generators, isGenerator g.toList)
    (hrelators : ∀ w ∈ p.relators, Plain w.render.toList ∧ w.render.toList ≠ ['1'])
    (h : p.LaidOut text) : read text = .ok ⟨p.generators, p.relators.map Word.render⟩ := by
  obtain ⟨left, right, hleft, hright, hspaced⟩ := h
  have hplainleft : ∀ a ∈ p.generators.map String.toList, Plain a :=
    List.forall_mem_map.2 fun g hg => plain_of_isGenerator (hgens g hg)
  have hplainright : ∀ a ∈ p.relators.map fun w => w.render.toList, Plain a :=
    List.forall_mem_map.2 fun w hw => (hrelators w hw).1
  have hgenerators : (fields ',' left).map trim = p.generators.map String.toList := by
    rw [hleft.map_trim_fields hplainleft, if_neg (by simpa using hne)]
  have hentries : ((fields ',' right).map trim).filter (fun e => !e.isEmpty) =
      p.relators.map fun w => w.render.toList := by
    rw [hright.map_trim_fields hplainright]
    split_ifs with hnil
    · rw [hnil]
      rfl
    · exact List.filter_eq_self.2 fun a ha => by simpa using (hplainright a ha).ne_nil
  have hrelations : (p.relators.map fun w => w.render.toList).mapM (relatorText text) =
      .ok (p.relators.map fun w => w.render.toList) := by
    rw [mapM_eq_ok_iff, List.forall₂_same, List.forall_mem_map]
    exact fun w hw => relatorText_of_plain (hrelators w hw).1 (hrelators w hw).2
  have hfind : (p.generators.map String.toList).find? (fun g => !isGenerator g) = none := by
    simpa [List.find?_eq_none] using hgens
  have hsome : p.generators.map String.toList ≠ [[]] := fun hnil =>
    (hplainleft [] (hnil ▸ List.mem_cons_self)).ne_nil rfl
  unfold read
  rw [body?_of_spaced hspaced]
  simp only [cutAt_append_cons (hleft.bar_notMem hplainleft), Option.getD_some, hgenerators, hentries,
    hrelations, hfind]
  have hbar : right.contains '|' = false := by simpa using hright.bar_notMem hplainright
  rw [hbar, if_neg hsome]
  simp [bind, Except.bind, pure, Except.pure]

end PresentationText

/-! ### Presentations over single letters -/

/-- The text of a word over single letters is an item of a list, and it is not the identity. -/
theorem Relator.plain_render {w : Word} (hne : w ≠ []) (hw : w.Lettered) :
    Text.Plain w.render.toList ∧ w.render.toList ≠ ['1'] := by
  have hparse : parse none w.render = .ok w := parse_of_render hne hw (DigitLimit.check_none _)
  rw [← String.ofList_toList (s := w.render)] at hparse
  have hnil : w.render.toList ≠ [] := by
    intro hnil
    rw [hnil, parse_nil] at hparse
    exact hne (Except.ok.inj hparse).symm
  have hone : w.render.toList ≠ ['1'] := by
    intro hone
    have hbad : parse none (String.ofList ['1']) = .error (.malformed ⟨.badToken '1', "1", some 0⟩) := by
      cbv
    rw [hone, hbad] at hparse
    exact absurd hparse (by simp)
  have hno : ∀ d, Text.isLatinLetter d = false → Text.isDigit d = false → d ≠ '^' → d ≠ '-' → d ≠ '+' →
      d ∉ w.render.toList := by
    intro d hlatin hdigit hcaret hminus hplus hmem
    simpa [hlatin, hdigit, hcaret, hminus, hplus] using mem_render hne hw hmem
  refine ⟨⟨hnil, fun c hc => ?_, ?_, ?_, ?_⟩, hone⟩
  · rcases mem_render hne hw hc with hlatin | hdigit | rfl | rfl | rfl
    · exact Text.isBlank_eq_false_of_isLatinLetter hlatin
    · exact Text.isBlank_eq_false_of_isDigit hdigit
    all_goals decide
  all_goals apply hno <;> decide

namespace Enumeration

open ToddCoxeter.PresentationText

variable {limit : DigitLimit} {generators : List Datum} {relations : List String} {cap m : Int}
  {e : Enumeration}

/-- Whatever passes the checks is made to the same enumeration, if the names and the words are the same. -/
theorem ofRelations_eq {gens : List String} {words : List Word} (hgens : generatorNames generators = .ok gens)
    (hwords : parseRelations limit relations = .ok words)
    (hletters : checkLetters gens (relations.zip words) = .ok ()) :
    ofRelations limit generators relations m = (Table.withCap m).map fun t =>
      { presentation := ⟨gens, words⟩, cap := t.cap, table := t } := by
  unfold ofRelations
  rw [hgens, hwords]
  simp only [hletters, bind, Except.bind]
  cases Table.withCap m <;> rfl

/-- The name of an enumeration over single ASCII letters whose relators are not empty ends with its
presentation, and that text, with blanks anywhere around the generators and relators, is accepted as the same
enumeration, whatever the cap. -/
theorem ofText_of_laidOut (h : ofRelations limit generators relations cap = .ok e)
    (hgens : ∀ g ∈ e.presentation.generators, isGenerator g.toList)
    (hrelators : ∀ w ∈ e.presentation.relators, w ≠ []) :
    (∃ printed, e.render = "Cayley graph of " ++ printed ∧ e.presentation.LaidOut printed) ∧
      ∀ text, e.presentation.LaidOut text →
        ofText none text cap = .ok e ∧
        ∀ limit' : DigitLimit,
          (∀ w ∈ e.presentation.relators, limit'.check (Nat.toDigits 10 w.length).length = .ok ()) →
          ∀ m, ofText limit' text m = ofRelations limit generators relations m := by
  obtain ⟨p, hvalid, -, rfl⟩ := exists_fresh_of_ofRelations h
  obtain ⟨gens, words, hnames, hwords, hletters, -, hfresh⟩ := ofRelations_eq_ok_iff.1 h
  obtain rfl : p = ⟨gens, words⟩ := congrArg presentation hfresh
  simp only [presentation_fresh] at hgens hrelators ⊢
  have hlettered : ∀ w ∈ words, w.Lettered := fun w hw x hx => hgens _ (hvalid.allows_relators w hw x hx)
  have heq : ∀ text, (⟨gens, words⟩ : Presentation).LaidOut text → ∀ limit' : DigitLimit,
      (∀ w ∈ words, limit'.check (Nat.toDigits 10 w.length).length = .ok ()) →
      ∀ m, ofText limit' text m = ofRelations limit generators relations m := by
    intro text htext limit' hlimit m
    have hread : read text = .ok ⟨gens, words.map Word.render⟩ :=
      read_of_laidOut hvalid.generators_ne_nil hgens
        (fun w hw => Relator.plain_render (hrelators w hw) (hlettered w hw)) htext
    have hnames' : generatorNames (gens.map .text) = .ok gens :=
      generatorNames_eq_ok_iff.2 ⟨mapM_generatorName_of_isGenerator hgens, hvalid.generators_ne_nil,
        hvalid.nodup_generators⟩
    have hwords' : parseRelations limit' (words.map Word.render) = .ok words := by
      rw [parseRelations, mapM_eq_ok_iff, List.forall₂_map_left_iff, List.forall₂_same]
      exact fun w hw => Relator.parse_of_render (hrelators w hw) (hlettered w hw) (hlimit w hw)
    have hletters' : checkLetters gens ((words.map Word.render).zip words) = .ok () :=
      checkLetters_eq_ok_iff.2 fun r hr => hvalid.allows_relators r.2 (List.of_mem_zip hr).2
    rw [ofText, hread, ofRelations_eq hnames hwords hletters]
    exact ofRelations_eq hnames' hwords' hletters'
  refine ⟨⟨_, rfl, Presentation.laidOut_render _⟩, fun text htext => ⟨?_, heq text htext⟩⟩
  exact (heq text htext none (fun w _ => DigitLimit.check_none _) cap).trans h

/-- A group of order eight, whose relations are printed without parentheses and primes. -/
theorem ofText_of_laidOut_spaced :
    let p : Presentation := ⟨["a", "b"], [[⟨"a", false⟩, ⟨"b", false⟩, ⟨"a", true⟩, ⟨"b", false⟩],
      [⟨"b", false⟩, ⟨"b", false⟩, ⟨"a", true⟩, ⟨"a", true⟩]]⟩
    ofRelations none [.text "a", .text "b"] ["aba'b", "b^2(a^2)'"] 16 = .ok (fresh p 16) ∧
      p.LaidOut "\t<a ,b|  aba^-1b\n, b^2a^-2>" ∧
      ofText none "\t<a ,b|  aba^-1b\n, b^2a^-2>" 16 = .ok (fresh p 16) := by
  intro p
  have h : ofRelations none [.text "a", .text "b"] ["aba'b", "b^2(a^2)'"] 16 = .ok (fresh p 16) :=
    ofRelations_eq_ok_iff.2 ⟨p.generators, p.relators, rfl, by cbv, rfl, by decide, rfl⟩
  have hspaced : ∀ before after a : List Char, before.all Text.isBlank → after.all Text.isBlank →
      Text.Spaced a (before ++ (a ++ after)) := fun before after a hbefore hafter =>
    ⟨before, after, List.all_eq_true.1 hbefore, List.all_eq_true.1 hafter, rfl⟩
  have hgens : ∀ g ∈ p.generators, isGenerator g.toList := by decide
  have hlaid : p.LaidOut "\t<a ,b|  aba^-1b\n, b^2a^-2>" :=
    ⟨_, _, .more (hspaced [] [' '] _ rfl (by decide)) (.last (hspaced [] [] _ rfl rfl)),
      .more (hspaced [' ', ' '] ['\n'] _ (by decide) (by decide))
        (.last (hspaced [' '] [] _ (by decide) rfl)),
      hspaced ['\t'] [] _ (by decide) rfl⟩
  exact ⟨h, hlaid, ((ofText_of_laidOut h hgens (by decide)).2 _ hlaid).1⟩

end Enumeration

end ToddCoxeter
