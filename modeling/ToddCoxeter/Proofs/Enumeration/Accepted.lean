import Mathlib
import ToddCoxeter.Enumeration.Basic
import ToddCoxeter.Proofs.Enumeration.Round

/-! # Accepted presentations

`Enumeration.fresh p cap` is the enumeration of a presentation that has not been run yet.  An enumeration
is made from generators and relations exactly if the generators are named, the relations are read and
use no other letters, and the cap is positive; then it is fresh (`Enumeration.ofRelations_eq_ok_iff`).  So
whether generators and relations are accepted does not depend on the cap, as long as that is positive, and
what is accepted is a valid presentation (`Enumeration.exists_fresh_of_ofRelations`). -/

namespace ToddCoxeter

namespace Enumeration

/-- The enumeration of a presentation before its first run. -/
def fresh (p : Presentation) (cap : ℕ) : Enumeration :=
  { presentation := p, cap, table := .start cap }

@[simp] theorem presentation_fresh (p : Presentation) (cap : ℕ) : (fresh p cap).presentation = p :=
  rfl

theorem generatorNames_eq_ok_iff {ds : List Datum} {names : List String} :
    generatorNames ds = .ok names ↔
      ds.mapM generatorName = .ok names ∧ names ≠ [] ∧ names.Nodup := by
  unfold generatorNames
  cases hm : ds.mapM generatorName with
  | error e => cases ds.isEmpty <;> simp [bind, Except.bind, throw, throwThe, MonadExceptOf.throw]
  | ok ns =>
      have hempty : ds.isEmpty = ns.isEmpty := by
        rw [Bool.eq_iff_iff, List.isEmpty_iff_length_eq_zero, List.isEmpty_iff_length_eq_zero,
          length_of_mapM_eq_ok hm]
      rw [hempty, Except.ok.injEq]
      by_cases hne : ns = []
      · refine iff_of_false (by simp [hne, bind, Except.bind, throw, throwThe, MonadExceptOf.throw]) ?_
        rintro ⟨rfl, hno, -⟩
        exact hno hne
      by_cases hnodup : ns.Nodup
      · have hlength := length_eraseDups_eq_iff.2 hnodup
        simp only [List.isEmpty_iff, hne, hlength, ne_eq, not_true_eq_false, if_false, bind, Except.bind,
          pure, Except.pure, Except.ok.injEq]
        refine ⟨?_, fun h => h.1⟩
        rintro rfl
        exact ⟨rfl, hne, hnodup⟩
      · have hlength := mt length_eraseDups_eq_iff.1 hnodup
        refine iff_of_false ?_ ?_
        · simp [hne, hlength, bind, Except.bind, throw, throwThe, MonadExceptOf.throw]
        · rintro ⟨rfl, -, hno⟩
          exact hnodup hno

theorem checkLetters_eq_ok_iff {gens : List String} {relations : List (String × Word)} :
    checkLetters gens relations = .ok () ↔ ∀ r ∈ relations, ∀ x ∈ r.2, x.gen ∈ gens := by
  induction relations with
  | nil => simp [checkLetters]
  | cons r rest ih =>
      obtain ⟨text, w⟩ := r
      have hnone : (w.generators.find? fun g => !gens.contains g) = none ↔ ∀ x ∈ w, x.gen ∈ gens := by
        simp [List.find?_eq_none, Word.generators, List.mem_eraseDups]
      rw [List.forall_mem_cons, ← ih, ← hnone, checkLetters]
      cases w.generators.find? fun g => !gens.contains g with
      | some g => simp
      | none => simp

/-- An enumeration is made exactly of what passes all checks, and it is fresh. -/
theorem ofRelations_eq_ok_iff {limit : DigitLimit} {generators : List Datum}
    {relations : List String} {cap : Int} {e : Enumeration} :
    ofRelations limit generators relations cap = .ok e ↔
      ∃ gens words, generatorNames generators = .ok gens ∧
        parseRelations limit relations = .ok words ∧
        checkLetters gens (relations.zip words) = .ok () ∧ 1 ≤ cap ∧
        e = fresh ⟨gens, words⟩ cap.toNat := by
  unfold ofRelations
  cases hg : generatorNames generators with
  | error f => simp [bind, Except.bind]
  | ok gens =>
      cases hw : parseRelations limit relations with
      | error f => simp [bind, Except.bind]
      | ok words =>
          cases hc : checkLetters gens (relations.zip words) with
          | error f => simp [hc, bind, Except.bind]
          | ok u =>
              by_cases hcap : cap < 1
              · simp [hc, hcap, Table.withCap, bind, Except.bind]
              · have hcap' : 1 ≤ cap := by omega
                simp [hc, hcap, hcap', Table.withCap, bind, Except.bind, pure, Except.pure, fresh,
                  Table.start, eq_comm]

/-- What is accepted is the fresh enumeration of a valid presentation with a positive cap. -/
theorem exists_fresh_of_ofRelations {limit : DigitLimit} {generators : List Datum}
    {relations : List String} {cap : Int} {e : Enumeration}
    (h : ofRelations limit generators relations cap = .ok e) :
    ∃ p : Presentation, p.Valid ∧ 0 < cap.toNat ∧ e = fresh p cap.toNat := by
  obtain ⟨gens, words, hg, hw, hc, hcap, rfl⟩ := ofRelations_eq_ok_iff.1 h
  obtain ⟨-, hne, hnd⟩ := generatorNames_eq_ok_iff.1 hg
  refine ⟨⟨gens, words⟩, ⟨hne, hnd, fun w hmem => ?_⟩, by omega, rfl⟩
  have hmem : w ∈ words := hmem
  have hlen : words.length = relations.length := length_of_mapM_eq_ok hw
  rw [← List.map_snd_zip hlen.le] at hmem
  obtain ⟨r, hr, rfl⟩ := List.mem_map.1 hmem
  exact checkLetters_eq_ok_iff.1 hc r hr

/-- What is accepted with one cap is accepted with every positive one. -/
theorem ofRelations_of_one_le {limit : DigitLimit} {generators : List Datum}
    {relations : List String} {cap m : Int} {e : Enumeration}
    (h : ofRelations limit generators relations cap = .ok e) (hm : 1 ≤ m) :
    ofRelations limit generators relations m = .ok (fresh e.presentation m.toNat) := by
  obtain ⟨gens, words, hg, hw, hc, -, rfl⟩ := ofRelations_eq_ok_iff.1 h
  exact ofRelations_eq_ok_iff.2 ⟨gens, words, hg, hw, hc, hm, rfl⟩

/-- The presentation of the group of two elements. -/
def square : Presentation := ⟨["a"], [[⟨"a", false⟩, ⟨"a", false⟩]]⟩

theorem ofRelations_square {cap : Int} (hcap : 1 ≤ cap) :
    ofRelations none [.text "a"] ["a^2"] cap = .ok (fresh square cap.toNat) :=
  ofRelations_eq_ok_iff.2 ⟨["a"], [[⟨"a", false⟩, ⟨"a", false⟩]], rfl, by cbv, rfl, hcap, rfl⟩

end Enumeration

end ToddCoxeter
