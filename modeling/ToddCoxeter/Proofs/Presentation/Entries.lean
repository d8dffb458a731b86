import Mathlib.Data.List.DropRight
import ToddCoxeter.Presentation
import ToddCoxeter.Proofs.Lists

/-! # The entries of a presentation

`PresentationText.entries text` are the relations of a presentation as they are written behind its bar,
without those that are blank, and `PresentationText.sides` are the sides of an equation.  A presentation
that can be read has one relation for each entry, in the same order (`relations_of_read`), and the text of
that relation depends on the sides of the entry alone (`relatorText_eq_ok_iff`). -/

namespace ToddCoxeter

namespace Text

theorem trim_trim (cs : List Char) : trim (trim cs) = trim cs := by
  have hhead : (trim cs).dropWhile isBlank = trim cs := by
    have hprefix : trim cs <+: cs.dropWhile isBlank := List.rdropWhile_prefix isBlank _
    cases htrim : trim cs with
    | nil => rfl
    | cons c ds =>
        obtain ⟨es, hes⟩ := htrim ▸ hprefix
        have hc := List.head?_dropWhile_not isBlank cs
        rw [← hes] at hc
        exact List.dropWhile_cons_of_neg (by simpa using hc)
  rw [trim, hhead]
  exact List.rdropWhile_idempotent isBlank (cs.dropWhile isBlank)

end Text

namespace PresentationText

open ToddCoxeter.Text

variable {text : String} {p : PresentationText} {entry : List Char}

/-- The relations that are written behind the bar, without the blanks around them; blank ones are left
out. -/
def entries (text : String) : List (List Char) :=
  match body? text.toList with
  | some body => ((fields ',' ((cutAt '|' body).2.getD [])).map trim).filter fun e => !e.isEmpty
  | none => []

/-- The sides of an entry, without the blanks around them. -/
def sides (entry : List Char) : List (List Char) := (fields '=' entry).map trim

theorem trim_of_mem_entries (h : entry ∈ entries text) : trim entry = entry := by
  unfold entries at h
  cases hbody : body? text.toList with
  | none => simp [hbody] at h
  | some body =>
      simp only [hbody, List.mem_filter, List.mem_map] at h
      obtain ⟨⟨cs, -, rfl⟩, -⟩ := h
      exact trim_trim cs

theorem sides_of_notMem (htrim : trim entry = entry) (h : '=' ∉ entry) : sides entry = [entry] := by
  rw [sides, fields_of_notMem h, List.map_singleton, htrim]

/-- The text of a relator consists of the sides of its entry, none of which may be empty. -/
theorem relatorText_eq_ok_iff {cs : List Char} : relatorText text entry = .ok cs ↔
    (∃ side, sides entry = [side] ∧ side ≠ [] ∧ cs = sideText side) ∨
      ∃ lhs rhs, sides entry = [lhs, rhs] ∧ lhs ≠ [] ∧ rhs ≠ [] ∧
        cs = equate (sideText lhs) (sideText rhs) := by
  unfold relatorText
  rw [← sides]
  match sides entry with
  | [] => simp
  | [side] => cases side <;> simp [eq_comm]
  | [lhs, rhs] => cases lhs <;> cases rhs <;> simp [eq_comm, and_assoc]
  | _ :: _ :: _ :: _ => simp

/-- What is read of a presentation: generators that are single letters, and a relation for each entry. -/
theorem relations_of_read (h : read text = .ok p) :
    (p.generators ≠ [] ∧ ∀ g ∈ p.generators, isGenerator g.toList) ∧
      ∃ relations, (entries text).mapM (relatorText text) = .ok relations ∧
        p.relations = relations.map String.ofList := by
  unfold read at h
  cases hbody : body? text.toList with
  | none => simp [hbody, throw, throwThe, MonadExceptOf.throw] at h
  | some body =>
      have hentries : entries text =
          ((fields ',' ((cutAt '|' body).2.getD [])).map trim).filter fun e => !e.isEmpty := by
        simp [entries, hbody]
      have hne : (fields ',' (cutAt '|' body).1).map trim ≠ [] := by simp [fields_ne_nil]
      simp only [hbody, ← hentries] at h
      generalize (fields ',' (cutAt '|' body).1).map trim = generators at h hne
      by_cases hbar : ((cutAt '|' body).2.getD []).contains '|'
      · rw [if_pos hbar] at h
        simp [bind, Except.bind, throw, throwThe, MonadExceptOf.throw] at h
      by_cases hempty : generators = [[]]
      · rw [if_neg hbar, if_pos hempty] at h
        simp [bind, Except.bind, throw, throwThe, MonadExceptOf.throw] at h
      rw [if_neg hbar, if_neg hempty] at h
      cases hbad : generators.find? fun g => !isGenerator g with
      | some bad => simp [hbad, bind, Except.bind, throw, throwThe, MonadExceptOf.throw] at h
      | none =>
          cases hrelations : (entries text).mapM (relatorText text) with
          | error fault => simp [hbad, hrelations, bind, Except.bind] at h
          | ok relations =>
              obtain rfl : (⟨generators.map String.ofList, relations.map String.ofList⟩ :
                  PresentationText) = p := by
                simpa [hbad, hrelations, bind, Except.bind, pure, Except.pure] using h
              exact ⟨⟨by simpa using hne, by simpa using hbad⟩, relations, rfl, rfl⟩

end PresentationText

end ToddCoxeter
