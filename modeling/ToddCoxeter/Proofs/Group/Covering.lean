import ToddCoxeter.Proofs.Group.Presented
import ToddCoxeter.Proofs.Table.Adjacency

/-! # Graphs on which a presented group acts

`Presentation.Acts p S R` says that the letters of the presentation act on the nodes in `S` along `R`: each
leads from each node to one node, and its inverse leads back.  `Presentation.Covers p S R` says that in
addition relators lead back to where they start.  Then words that are equal in the group lead from a node
to the same node (`Presentation.Covers.path_iff`), so that nodes which can be reached from the first one
stand for different elements (`Presentation.Covers.exists_injective`). -/

namespace ToddCoxeter.Presentation

/-- The letters act on the nodes. -/
structure Acts (p : Presentation) (S : Set ℕ) (R : ℕ → Letter → ℕ → Prop) : Prop where
  /-- Letters do not lead out of the set. -/
  closed : ∀ i x j, i ∈ S → R i x j → j ∈ S
  /-- The inverse of a letter leads back. -/
  inverse : ∀ i x j, R i x j → R j x.inverse i
  /-- A letter leads to one node at most. -/
  single : ∀ i x, x.gen ∈ p.generators → ∀ j k, R i x j → R i x k → j = k
  /-- A letter leads somewhere. -/
  total : ∀ i ∈ S, ∀ x : Letter, x.gen ∈ p.generators → ∃ j, R i x j

/-- The letters act on the nodes, and relators act trivially. -/
structure Covers (p : Presentation) (S : Set ℕ) (R : ℕ → Letter → ℕ → Prop) : Prop
    extends p.Acts S R where
  /-- A relator leads back to where it starts. -/
  closes : ∀ i ∈ S, ∀ r ∈ p.relators, Path R i r i

variable {p : Presentation} {S : Set ℕ} {R : ℕ → Letter → ℕ → Prop} {u v w : Word} {i j k : ℕ}

namespace Acts

theorem mem_of_path (h : p.Acts S R) (hi : i ∈ S) (hw : Path R i w j) : j ∈ S :=
  hw.mem (fun i hi x _ j => h.closed i x j hi) hi

theorem exists_path (h : p.Acts S R) (hi : i ∈ S) (hw : p.Allows w) : ∃ j, Path R i w j := by
  induction w generalizing i with
  | nil => exact ⟨i, rfl⟩
  | cons x w ih =>
      obtain ⟨hx, hw⟩ := allows_cons.1 hw
      obtain ⟨k, hk⟩ := h.total i hi x hx
      obtain ⟨j, hj⟩ := ih (h.closed i x k hi hk) hw
      exact ⟨j, k, hk, hj⟩

theorem eq_of_path (h : p.Acts S R) (hw : p.Allows w) (hj : Path R i w j) (hk : Path R i w k) :
    j = k := Path.unique h.single hw hj hk

end Acts

namespace Covers

/-- Words that are equal in the group lead to the same nodes. -/
theorem path_iff (h : p.Covers S R) (hp : p.Valid) (heq : p.Equal u v) (hi : i ∈ S) :
    Path R i u j ↔ Path R i v j := by
  induction heq generalizing i j with
  | refl u => exact Iff.rfl
  | symm _ ih => exact (ih hi).symm
  | trans _ _ ih₁ ih₂ => exact (ih₁ hi).trans (ih₂ hi)
  | @cancel a b x hx =>
      simp only [Path.append, Path]
      constructor
      · rintro ⟨k, hk, m, hm, l, hl, hj⟩
        obtain rfl := h.single m x.inverse hx l k hl (h.inverse k x m hm)
        exact ⟨l, hk, hj⟩
      · rintro ⟨k, hk, hj⟩
        obtain ⟨m, hm⟩ := h.total k (h.toActs.mem_of_path hi hk) x hx
        exact ⟨k, hk, m, hm, k, h.inverse k x m hm, hj⟩
  | @relator a b r hr =>
      simp only [Path.append]
      constructor
      · rintro ⟨m, ⟨k, hk, hm⟩, hj⟩
        have hback := h.closes k (h.toActs.mem_of_path hi hk) r hr
        obtain rfl := h.toActs.eq_of_path (hp.allows_relators r hr) hm hback
        exact ⟨m, hk, hj⟩
      · rintro ⟨k, hk, hj⟩
        exact ⟨k, ⟨k, hk, h.closes k (h.toActs.mem_of_path hi hk) r hr⟩, hj⟩

/-- Nodes that can be reached from the first one stand for different elements of the group. -/
theorem exists_injective (h : p.Covers S R) (hp : p.Valid) (h0 : 0 ∈ S)
    (hreach : ∀ i ∈ S, ∃ w, p.Allows w ∧ Path R 0 w i) :
    ∃ f : S → p.Element, Function.Injective f ∧
      ∀ i : S, ∃ w, ∃ hw : p.Allows w, Path R 0 w i ∧ f i = Element.of w hw := by
  choose word hword using fun i : S => hreach i i.2
  refine ⟨fun i => .of (word i) (hword i).1, fun i j hij => Subtype.ext ?_,
    fun i => ⟨word i, (hword i).1, (hword i).2, rfl⟩⟩
  have hpath := (h.path_iff hp (Element.of_eq_of_iff.1 hij) h0).1 (hword i).2
  exact h.toActs.eq_of_path (hword j).1 hpath (hword j).2

end Covers

end ToddCoxeter.Presentation
