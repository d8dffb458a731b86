import Mathlib.Algebra.Group.MinimalAxioms
import Mathlib.Tactic
import ToddCoxeter.Presentation

/-! # The presented group

Two words over a presentation are equal in the presented group if insertions and deletions of a letter
next to its inverse and of relators lead from one to the other (`Presentation.Equal`).  The classes of
words are the elements of the presented group (`Presentation.Element`), with concatenation as its product
and `Word.inverse` as its inverse.

`Presentation.Valid` is what is checked of a presentation before it is enumerated. -/

namespace ToddCoxeter

namespace Presentation

variable {p : Presentation} {u v w : Word}

/-- All letters of the word are generators or inverses of generators. -/
def Allows (p : Presentation) (w : Word) : Prop := ∀ x ∈ w, x.gen ∈ p.generators

/-- What is checked of a presentation before it is enumerated. -/
structure Valid (p : Presentation) : Prop where
  generators_ne_nil : p.generators ≠ []
  nodup_generators : p.generators.Nodup
  allows_relators : ∀ r ∈ p.relators, p.Allows r

theorem allows_nil : p.Allows [] := fun _ hx => absurd hx (by simp)

theorem allows_cons {x : Letter} : p.Allows (x :: w) ↔ x.gen ∈ p.generators ∧ p.Allows w :=
  List.forall_mem_cons

theorem allows_append : p.Allows (u ++ v) ↔ p.Allows u ∧ p.Allows v := List.forall_mem_append

theorem Allows.inverse (h : p.Allows w) : p.Allows w.inverse := by
  intro x hx
  obtain ⟨y, hy, rfl⟩ := List.mem_map.1 hx
  exact h y (List.mem_reverse.1 hy)

/-! ### Equality of words -/

/-- The two words are the same element of the presented group. -/
inductive Equal (p : Presentation) : Word → Word → Prop
  | refl (w : Word) : Equal p w w
  | symm {u v : Word} : Equal p u v → Equal p v u
  | trans {u v w : Word} : Equal p u v → Equal p v w → Equal p u w
  /-- A letter next to its inverse may be inserted or deleted. -/
  | cancel (u v : Word) {x : Letter} :
      x.gen ∈ p.generators → Equal p (u ++ x :: x.inverse :: v) (u ++ v)
  /-- A relator may be inserted or deleted. -/
  | relator (u v : Word) {r : Word} : r ∈ p.relators → Equal p (u ++ r ++ v) (u ++ v)

namespace Equal

theorem append_left (h : p.Equal u v) (w : Word) : p.Equal (w ++ u) (w ++ v) := by
  induction h with
  | refl u => exact .refl _
  | symm _ ih => exact ih.symm
  | trans _ _ ih₁ ih₂ => exact ih₁.trans ih₂
  | cancel a b hx =>
      rw [← List.append_assoc, ← List.append_assoc]
      exact .cancel (w ++ a) b hx
  | relator a b hr =>
      rw [List.append_assoc a, ← List.append_assoc w, ← List.append_assoc w,
        ← List.append_assoc (w ++ a)]
      exact .relator (w ++ a) b hr

theorem append_right (h : p.Equal u v) (w : Word) : p.Equal (u ++ w) (v ++ w) := by
  induction h with
  | refl u => exact .refl _
  | symm _ ih => exact ih.symm
  | trans _ _ ih₁ ih₂ => exact ih₁.trans ih₂
  | cancel a b hx =>
      simp only [List.append_assoc, List.cons_append]
      exact .cancel a (b ++ w) hx
  | relator a b hr =>
      simpa only [List.append_assoc] using Equal.relator a (b ++ w) hr

theorem append {u' v' : Word} (h : p.Equal u v) (h' : p.Equal u' v') :
    p.Equal (u ++ u') (v ++ v') := (h.append_right u').trans (h'.append_left v)

end Equal

theorem equal_nil_of_mem (hw : w ∈ p.relators) : p.Equal w [] := by
  simpa using Equal.relator (p := p) [] [] hw

theorem Allows.append_inverse (h : p.Allows w) : p.Equal (w ++ w.inverse) [] := by
  induction w with
  | nil => exact .refl []
  | cons x w ih =>
      obtain ⟨hx, hw⟩ := allows_cons.1 h
      have hinner := ((ih hw).append_right [x.inverse]).append_left [x]
      rw [Word.inverse_cons, ← List.append_assoc]
      exact hinner.trans (.cancel [] [] hx)

theorem Allows.inverse_append (h : p.Allows w) : p.Equal (w.inverse ++ w) [] := by
  simpa using h.inverse.append_inverse

theorem Equal.inverse (hu : p.Allows u) (hv : p.Allows v) (h : p.Equal u v) :
    p.Equal u.inverse v.inverse := by
  have hleft := (hv.append_inverse.append_left u.inverse).symm
  have hright := hu.inverse_append.append_right v.inverse
  have hmid := (h.symm.append_right v.inverse).append_left u.inverse
  rw [List.append_nil] at hleft
  rw [List.append_assoc] at hright
  exact (hleft.trans hmid).trans hright

/-! ### The group -/

/-- Equality of words over the presentation. -/
def setoid (p : Presentation) : Setoid {w : Word // p.Allows w} where
  r a b := p.Equal a.1 b.1
  iseqv := ⟨fun a => .refl a.1, .symm, .trans⟩

/-- The elements of the presented group. -/
def Element (p : Presentation) : Type := Quotient p.setoid

namespace Element

/-- The element that the word denotes. -/
def of (w : Word) (hw : p.Allows w) : p.Element := Quotient.mk p.setoid ⟨w, hw⟩

theorem of_eq_of_iff {hu : p.Allows u} {hv : p.Allows v} : of u hu = of v hv ↔ p.Equal u v :=
  Quotient.eq (r := p.setoid)

instance : One p.Element := ⟨of [] allows_nil⟩

instance : Mul p.Element :=
  ⟨Quotient.map₂ (fun a b => ⟨a.1 ++ b.1, allows_append.2 ⟨a.2, b.2⟩⟩)
    fun _ _ ha _ _ hb => Equal.append ha hb⟩

instance : Inv p.Element :=
  ⟨Quotient.map (fun a => ⟨a.1.inverse, a.2.inverse⟩) fun a b h => Equal.inverse a.2 b.2 h⟩

instance : Group p.Element :=
  Group.ofLeftAxioms
    (by
      rintro ⟨a⟩ ⟨b⟩ ⟨c⟩
      exact of_eq_of_iff.2 (List.append_assoc a.1 b.1 c.1 ▸ .refl _))
    (by
      rintro ⟨a⟩
      exact of_eq_of_iff.2 (.refl _))
    (by
      rintro ⟨a⟩
      exact of_eq_of_iff.2 a.2.inverse_append)

end Element

end Presentation

end ToddCoxeter
