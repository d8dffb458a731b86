import ToddCoxeter.Proofs.Group.Presented
import ToddCoxeter.Proofs.Table.Coincidences

/-! # What the nodes of a table denote

`Table.Denotes p t f` says that the words `f i` give each live node `i` an element of the presented group
such that letters lead from a node to the node of the product.  The moves of an enumeration keep to such
words: a new node denotes a new product, and only nodes that denote the same element are identified,
because these are the ones that `Table.Forced` allows to identify.  Hence all words that lead from the
first node to one node are equal in the group (`Table.Denotes.equal_of_path`). -/

namespace ToddCoxeter.Table

/-- The two nodes are coincident, or a relator leads from one to the other. -/
def Forced (p : Presentation) (t : Table) (a b : ℕ) : Prop :=
  Coincident p.generators t a b ∨
    ∃ r ∈ p.relators, Path t.Leads (t.root a) r (t.root b) ∨ Path t.Leads (t.root b) r (t.root a)

theorem stable_forced (p : Presentation) : Stable (Forced p) := by
  have hc := stable_coincident p.generators
  refine ⟨?_, ?_, ?_⟩
  · rintro t a b (h | ⟨r, hr, h⟩)
    · exact .inl (hc.symm h)
    · exact .inr ⟨r, hr, h.symm⟩
  · rintro t a b (h | ⟨r, hr, h⟩)
    · exact .inl (hc.root h)
    · have hroot : ∀ j, t.root (t.root j) = t.root j := t.forest.root_root
      refine .inr ⟨r, hr, ?_⟩
      rwa [hroot, hroot]
  · rintro t u a b hg (h | ⟨r, hr, h⟩)
    · exact .inl (hc.grows hg h)
    · refine .inr ⟨r, hr, ?_⟩
      rw [← hg.root_root a, ← hg.root_root b]
      exact h.imp hg.path hg.path

/-- The moves that the enumeration of a presentation makes. -/
abbrev Steps (p : Presentation) : Table → Table → Prop :=
  Moves (·.gen ∈ p.generators) (Forced p)

/-- The words give each node an element of the group, to which a letter adds itself. -/
structure Denotes (p : Presentation) (t : Table) (f : ℕ → Word) : Prop where
  zero : f 0 = []
  leads : ∀ i x j, t.Leads i x j → p.Equal (f i ++ [x]) (f j)

variable {p : Presentation} {t t' : Table} {f : ℕ → Word} {u v w : Word} {i j : ℕ}

theorem Denotes.path (h : Denotes p t f) (hw : Path t.Leads i w j) : p.Equal (f i ++ w) (f j) := by
  induction w generalizing i with
  | nil =>
      obtain rfl : i = j := hw
      rw [List.append_nil]
      exact .refl _
  | cons x w ih =>
      obtain ⟨k, hk, hj⟩ := hw
      have hfirst := (h.leads i x k hk).append_right w
      rw [List.append_assoc] at hfirst
      exact hfirst.trans (ih hj)

/-- Words that lead from the first node to the same node are equal in the group. -/
theorem Denotes.equal_of_path (h : Denotes p t f) (hu : Path t.Leads 0 u i)
    (hv : Path t.Leads 0 v i) : p.Equal u v := by
  have hu := h.path hu
  have hv := h.path hv
  rw [h.zero, List.nil_append] at hu hv
  exact hu.trans hv.symm

theorem Denotes.equal_of_forced (h : Denotes p t f) {a b : ℕ} (hab : Forced p t a b) :
    p.Equal (f (t.root a)) (f (t.root b)) := by
  rcases hab with ⟨i, x, -, ha, hb⟩ | ⟨r, hr, hpath⟩
  · exact (h.leads i x _ ha).symm.trans (h.leads i x _ hb)
  · have hback : ∀ c d, Path t.Leads c r d → p.Equal (f c) (f d) := by
      intro c d hcd
      have hinsert := (Presentation.equal_nil_of_mem hr).append_left (f c)
      rw [List.append_nil] at hinsert
      exact hinsert.symm.trans (h.path hcd)
    rcases hpath with hpath | hpath
    · exact hback _ _ hpath
    · exact (hback _ _ hpath).symm

/-- The moves of an enumeration keep what the nodes denote. -/
theorem WellFormed.denotes_move (h : t.WellFormed) (hm : Move (·.gen ∈ p.generators) (Forced p) t t')
    (hd : ∃ f, Denotes p t f) : ∃ f, Denotes p t' f := by
  obtain ⟨f, hf⟩ := hd
  cases hm with
  | reshape hr =>
      refine ⟨f, hf.zero, fun i x j hx => hf.leads i x j ?_⟩
      rwa [hr.leads_iff] at hx
  | @attach i x hx hi _ _ =>
      have hne : ∀ k, t.contains k → k ≠ t.forest.size := fun k hk =>
        Nat.ne_of_lt (h.lt_of_contains hk)
      refine ⟨Function.update f t.forest.size (f i ++ [x]), ?_, fun a y b hab => ?_⟩
      · rw [Function.update_of_ne (Nat.ne_of_lt h.pos)]
        exact hf.zero
      · rcases (h.leads_attach_iff hi).1 hab with hold | ⟨rfl, rfl, rfl⟩ | ⟨rfl, rfl, rfl⟩
        · rw [Function.update_of_ne (hne a (h.contains_of_leads hold).1),
            Function.update_of_ne (hne b (h.contains_of_leads hold).2)]
          exact hf.leads a y b hold
        · rw [Function.update_of_ne (hne a hi), Function.update_self]
          exact .refl _
        · rw [Function.update_of_ne (hne b hi), Function.update_self, List.append_assoc]
          simpa using Presentation.Equal.cancel (f b) [] hx
  | @absorb a b ha hb hab hJ =>
      have hfab := hf.equal_of_forced hJ
      rw [h.root_of_contains ha, h.root_of_contains hb] at hfab
      have hroot : ∀ k, p.Equal (f ((t.absorb a b).root k)) (f (t.root k)) := by
        intro k
        rw [h.root_absorb ha hb hab]
        split_ifs with hk
        · rw [hk]
          exact hfab
        · exact .refl _
      refine ⟨f, hf.zero, ?_⟩
      rintro i x j ⟨e, he, hl, rfl, rfl⟩
      have hold : t.Leads (t.root (e.tail x)) x (t.root (e.head x)) := ⟨e, he, hl, rfl, rfl⟩
      exact (((hroot _).append_right [x]).trans (hf.leads _ x _ hold)).trans (hroot _).symm

theorem WellFormed.denotes_moves (h : t.WellFormed) (hm : Steps p t t')
    (hd : ∃ f, Denotes p t f) : ∃ f, Denotes p t' f :=
  (hm.invariant (fun _ _ hu hm hd => hu.denotes_move hm hd) h hd).2

theorem WellFormed.exists_path (h : t.WellFormed) (hr : t.Rooted)
    (hl : ∀ e ∈ t.edges, e.label ∈ p.generators) {q : ℕ} (hq : q < t.forest.size) :
    ∃ w, p.Allows w ∧ Path t.Leads 0 w (t.root q) := by
  induction q using Nat.strongRecOn with
  | ind q ih =>
      rcases Nat.eq_zero_or_pos q with rfl | hpos
      · exact ⟨[], Presentation.allows_nil, (h.root_of_contains h.contains_zero).symm⟩
      · obtain ⟨e, he, b, rfl, hlt⟩ := hr q hpos hq
        obtain ⟨w, hw, hpath⟩ := ih _ hlt (hlt.trans hq)
        have hx : t.Leads (t.root (e.side !b)) ⟨e.label, !b⟩ (t.root (e.side b)) :=
          ⟨e, he, rfl, rfl, by simp [Edge.head]⟩
        refine ⟨w ++ [⟨e.label, !b⟩], Presentation.allows_append.2 ⟨hw, ?_⟩,
          Path.append.2 ⟨_, hpath, Path.singleton.2 hx⟩⟩
        exact Presentation.allows_cons.2 ⟨hl e he, Presentation.allows_nil⟩

end ToddCoxeter.Table
