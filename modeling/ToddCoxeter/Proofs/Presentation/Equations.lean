import ToddCoxeter.Enumeration.Basic
import ToddCoxeter.Proofs.Enumeration.Accepted
import ToddCoxeter.Proofs.Presentation.Entries
import ToddCoxeter.Proofs.Relator.Quotient

/-! # Equations between words

A side of an equation denotes the word `sideWord` that is read of it, where `1` is the empty word.  The
relator of an equation between two sides that denote words is the product of the first word with the inverse
of the second (`PresentationText.relations_denote`).

The sides are not read one by one, only the relator is.  So a presentation with an equation whose sides
denote no words may be accepted: this happens if the right side closes a parenthesis that it has not opened
and in no other case, and every other such presentation is refused
(`Enumeration.readable_sides_of_ofText`). -/

namespace ToddCoxeter

namespace PresentationText

open ToddCoxeter.Text

variable {limit : DigitLimit} {text : String} {p : PresentationText} {entry lhs rhs : List Char}

/-- The word that a side of an equation denotes, where `1` is the empty word. -/
def sideWord (limit : DigitLimit) (side : List Char) : Except Fault Word :=
  if side = ['1'] then .ok [] else Relator.parse limit (String.ofList side)

theorem parse_sideText (side : List Char) :
    Relator.parse limit (String.ofList (sideText side)) = sideWord limit side := by
  unfold sideText sideWord
  split_ifs
  · exact Relator.parse_nil
  · rfl

theorem equate_of_ne_nil (h : rhs ≠ []) : equate lhs rhs = Relator.quotient lhs rhs := by
  unfold equate Relator.quotient
  cases rhs <;> cases lhs <;> simp_all

/-- The relator of an equation between two texts that can be read is the product of the first word with the
inverse of the second. -/
theorem parse_equate {u v : Word} (hlimit : limit.check 1 = .ok ())
    (hu : Relator.parse limit (String.ofList lhs) = .ok u)
    (hv : Relator.parse limit (String.ofList rhs) = .ok v) :
    Relator.parse limit (String.ofList (equate lhs rhs)) = .ok (u ++ v.inverse) := by
  by_cases hrhs : rhs = []
  · obtain rfl : v = [] := by
      rw [hrhs, Relator.parse_nil] at hv
      exact (Except.ok.inj hv).symm
    simpa [equate, hrhs, Word.inverse] using hu
  · rw [equate_of_ne_nil hrhs]
    exact Relator.parse_quotient hlimit hu hv

/-- The relation denotes what its entry says: the word of the entry if that is no equation, and the left
side times the inverse of the right side if it is one whose sides both denote words. -/
structure Denotes (limit : DigitLimit) (entry : List Char) (relation : String) : Prop where
  word : '=' ∉ entry → Relator.parse limit relation = sideWord limit entry
  quotient : ∀ lhs rhs u v, sides entry = [lhs, rhs] → sideWord limit lhs = .ok u →
    sideWord limit rhs = .ok v → Relator.parse limit relation = .ok (u ++ v.inverse)

theorem denotes_of_relatorText {cs : List Char} (hlimit : limit.check 1 = .ok ())
    (htrim : trim entry = entry) (h : relatorText text entry = .ok cs) :
    Denotes limit entry (String.ofList cs) := by
  rcases relatorText_eq_ok_iff.1 h with ⟨side, hside, -, rfl⟩ | ⟨lhs, rhs, hsides, -, -, rfl⟩
  · refine ⟨fun hno => ?_, fun lhs rhs u v hsides => ?_⟩
    · obtain rfl : side = entry := by simpa [hside] using sides_of_notMem htrim hno
      exact parse_sideText side
    · simp [hside] at hsides
  · refine ⟨fun hno => ?_, fun lhs' rhs' u v hsides' hu hv => ?_⟩
    · simp [sides_of_notMem htrim hno] at hsides
    · obtain ⟨rfl, rfl⟩ : lhs = lhs' ∧ rhs = rhs' := by simpa [hsides] using hsides'
      exact parse_equate hlimit ((parse_sideText lhs).trans hu) ((parse_sideText rhs).trans hv)

/-- A presentation that can be read has one relation for each of its entries, in the same order, and each
relation denotes what its entry says. -/
theorem relations_denote (hlimit : limit.check 1 = .ok ()) (h : read text = .ok p) :
    List.Forall₂ (Denotes limit) (entries text) p.relations := by
  obtain ⟨-, relations, hrelations, hp⟩ := relations_of_read h
  have htrimmed := (List.forall₂_and_left ..).2
    ⟨fun _ => trim_of_mem_entries, mapM_eq_ok_iff.1 hrelations⟩
  rw [hp, List.forall₂_map_right_iff]
  exact htrimmed.imp fun entry cs hentry => denotes_of_relatorText hlimit hentry.1 hentry.2

/-- Sides that are written with primes, blanks and parentheses, and an entry that is blank. -/
theorem relations_denote_nested :
    DigitLimit.check none 1 = .ok () ∧
      read "<a, b | a^2 = 1, , ( a b )^2' = b (a')>" =
        .ok ⟨["a", "b"], ["a^2", "( a b )^2'(b (a'))^-1"]⟩ ∧
      List.Forall₂ (Denotes none) (entries "<a, b | a^2 = 1, , ( a b )^2' = b (a')>")
        ["a^2", "( a b )^2'(b (a'))^-1"] :=
  have hread : read "<a, b | a^2 = 1, , ( a b )^2' = b (a')>" =
      .ok ⟨["a", "b"], ["a^2", "( a b )^2'(b (a'))^-1"]⟩ := by cbv
  ⟨rfl, hread, relations_denote rfl hread⟩

/-! ### Sides that denote no word -/

/-- The side of an equation denotes a word. -/
def Readable (limit : DigitLimit) (side : List Char) : Prop := ∃ w, sideWord limit side = .ok w

/-- If the relator of an equation can be read, then its sides can be exactly if the right one does not close
a parenthesis that it has not opened. -/
theorem readable_sides_iff {w : Word} (hne : rhs ≠ [])
    (h : Relator.parse limit (String.ofList (equate (sideText lhs) (sideText rhs))) = .ok w) :
    Readable limit lhs ∧ Readable limit rhs ↔ Covered '(' ')' 0 rhs := by
  unfold Readable
  by_cases hone : rhs = ['1']
  · subst hone
    have hrhs : sideText ['1'] = [] := rfl
    rw [hrhs, equate, List.isEmpty_nil, if_pos rfl, parse_sideText] at h
    exact iff_of_true ⟨⟨w, h⟩, [], rfl⟩ (by decide)
  · have hrhs : sideText rhs = rhs := if_neg hone
    rw [hrhs, equate_of_ne_nil hne] at h
    simpa only [← parse_sideText, hrhs] using Relator.readable_parts_iff h

end PresentationText

namespace Enumeration

open ToddCoxeter.PresentationText

variable {limit : DigitLimit} {text : String} {p : PresentationText} {entry lhs rhs : List Char}

theorem readable_sides_of_parseRelations {words : List Word} (hread : read text = .ok p)
    (hwords : parseRelations limit p.relations = .ok words) (hentry : entry ∈ entries text)
    (hsides : sides entry = [lhs, rhs]) :
    Readable limit lhs ∧ Readable limit rhs ↔ Covered '(' ')' 0 rhs := by
  obtain ⟨-, relations, hrelations, hp⟩ := relations_of_read hread
  obtain ⟨cs, hcs, hrelator⟩ := exists_of_mapM_eq_ok hrelations hentry
  have hmem : String.ofList cs ∈ p.relations := by
    rw [hp]
    exact List.mem_map_of_mem hcs
  obtain ⟨w, -, hw⟩ := exists_of_mapM_eq_ok hwords hmem
  rcases relatorText_eq_ok_iff.1 hrelator with ⟨side, hside, -⟩ | ⟨lhs', rhs', hsides', -, hne, rfl⟩
  · simp [hside] at hsides
  · obtain ⟨rfl, rfl⟩ : lhs' = lhs ∧ rhs' = rhs := by simpa [hsides'] using hsides
    exact readable_sides_iff hne hw

theorem mapM_generatorName_of_isGenerator {gens : List String} (hgens : ∀ g ∈ gens, isGenerator g.toList) :
    (gens.map Datum.text).mapM generatorName = .ok gens := by
  rw [mapM_eq_ok_iff, List.forall₂_map_left_iff, List.forall₂_same]
  intro g hg
  obtain ⟨c, hc, hletter⟩ := isGenerator_iff.1 (hgens g hg)
  have hlength : g.length = 1 := by rw [← String.length_toList, hc, List.length_singleton]
  simp [generatorName, hlength, hc, Text.isAlphabetic_of_isLatinLetter hletter]

theorem exists_duplicateGenerators_of_isGenerator {gens : List String} {fault : Fault}
    (hne : gens ≠ []) (hgens : ∀ g ∈ gens, isGenerator g.toList)
    (h : generatorNames (gens.map .text) = .error fault) : ∃ ds, fault = .duplicateGenerators ds := by
  unfold generatorNames at h
  rw [mapM_generatorName_of_isGenerator hgens] at h
  by_cases hlength : gens.eraseDups.length = gens.length
  · simp [hne, hlength, bind, Except.bind, pure, Except.pure] at h
  · simp only [List.isEmpty_map, List.isEmpty_iff, hne, if_false, hlength, ne_eq, not_false_eq_true,
      if_true, bind, Except.bind, pure, Except.pure, throw, throwThe, MonadExceptOf.throw,
      Except.error.injEq] at h
    exact ⟨_, h.symm⟩

/-- In an accepted presentation both sides of an equation denote words exactly if the right side does not
close a parenthesis that it has not opened.  Where it does not, a presentation with a side that denotes no
word is refused for its syntax, unless it has been refused for a repeated generator before. -/
theorem readable_sides_of_ofText {cap : Int} (hentry : entry ∈ entries text)
    (hsides : sides entry = [lhs, rhs]) :
    (∀ limit e, ofText limit text cap = .ok e →
        (Readable limit lhs ∧ Readable limit rhs ↔ Covered '(' ')' 0 rhs)) ∧
      (Covered '(' ')' 0 rhs → ¬ (Readable none lhs ∧ Readable none rhs) →
        ∃ fault, ofText none text cap = .error fault ∧
          ((∃ s, fault = .malformed s) ∨ ∃ ds, fault = .duplicateGenerators ds)) := by
  unfold ofText
  cases hread : read text with
  | error s =>
      refine ⟨fun limit e h => ?_, fun _ _ => ⟨_, rfl, .inl ⟨s, rfl⟩⟩⟩
      simp [Except.mapError, bind, Except.bind] at h
  | ok p =>
      simp only [Except.mapError, bind, Except.bind]
      constructor
      · intro limit e h
        obtain ⟨gens, words, -, hwords, -⟩ := ofRelations_eq_ok_iff.1 h
        exact readable_sides_of_parseRelations hread hwords hentry hsides
      · intro hcovered hno
        obtain ⟨⟨hne, hgens⟩, -⟩ := relations_of_read hread
        unfold ofRelations
        cases hnames : generatorNames (p.generators.map .text) with
        | error fault =>
            exact ⟨fault, rfl, .inr (exists_duplicateGenerators_of_isGenerator hne hgens hnames)⟩
        | ok gens =>
            cases hwords : parseRelations none p.relations with
            | error fault =>
                obtain ⟨relation, -, hrelation⟩ := exists_of_mapM_eq_error hwords
                exact ⟨fault, rfl, .inl (Relator.exists_malformed_of_parse hrelation)⟩
            | ok words =>
                have hiff := readable_sides_of_parseRelations hread hwords hentry hsides
                exact absurd (hiff.2 hcovered) hno

/-- The left side of the equation closes a parenthesis that it has not opened. -/
theorem readable_sides_of_ofText_unopened :
    "a) = a".toList ∈ entries "<a | a) = a>" ∧
      sides "a) = a".toList = ["a)".toList, "a".toList] ∧
      Covered '(' ')' 0 "a".toList ∧ ¬ Readable none "a)".toList ∧
      ∃ fault, ofText none "<a | a) = a>" 8 = .error fault ∧
        ((∃ s, fault = .malformed s) ∨ ∃ ds, fault = .duplicateGenerators ds) := by
  have hentry : "a) = a".toList ∈ entries "<a | a) = a>" := by decide
  have hsides : sides "a) = a".toList = ["a)".toList, "a".toList] := by decide
  have hcovered : Covered '(' ')' 0 "a".toList := by decide
  have hword : sideWord none "a)".toList =
      .error (.malformed ⟨.mismatchedParentheses, "a)", none⟩) := by cbv
  have hno : ¬ Readable none "a)".toList := by
    rintro ⟨w, hw⟩
    rw [hword] at hw
    exact absurd hw (by simp)
  exact ⟨hentry, hsides, hcovered, hno,
    (readable_sides_of_ofText hentry hsides).2 hcovered fun h => hno h.1⟩

/-- A presentation is accepted although the right side of its equation denotes no word. -/
theorem ofText_eq_ok_of_unreadable_side :
    ofText none "<a, b | a = b)(a>" 8 =
        .ok (fresh ⟨["a", "b"], [[⟨"a", false⟩, ⟨"b", false⟩, ⟨"a", true⟩]]⟩ 8) ∧
      "a = b)(a".toList ∈ entries "<a, b | a = b)(a>" ∧
      sides "a = b)(a".toList = ["a".toList, "b)(a".toList] ∧
      sideWord none "b)(a".toList = .error (.malformed ⟨.mismatchedParentheses, "b)(a", none⟩) := by
  have hread : read "<a, b | a = b)(a>" = .ok ⟨["a", "b"], ["a(b)(a)^-1"]⟩ := by cbv
  refine ⟨?_, by decide, by decide, by cbv⟩
  have haccepted : ofRelations none [.text "a", .text "b"] ["a(b)(a)^-1"] 8 =
      .ok (fresh ⟨["a", "b"], [[⟨"a", false⟩, ⟨"b", false⟩, ⟨"a", true⟩]]⟩ 8) :=
    ofRelations_eq_ok_iff.2 ⟨["a", "b"], [[⟨"a", false⟩, ⟨"b", false⟩, ⟨"a", true⟩]], rfl, by cbv,
      rfl, by decide, rfl⟩
  rw [ofText, hread]
  exact haccepted

end Enumeration

end ToddCoxeter
