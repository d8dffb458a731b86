import ToddCoxeter.Proofs.Enumeration.Accepted

/-! # The invariant of the loop

`Enumeration.Visits e t` says that the loop of a run of `e` evaluates its condition when the table is `t`.
In such a table the complete nodes are those below the first incomplete one and letters are single-valued
(`Table.Orderly`).  As long as the table has not been closed, the letters and relators of the presentation
can moreover be followed from a complete node without anything being defined (`Table.Completed`), and what
is established for a node by completing it stays established (`Table.Settled.persists`). -/

namespace ToddCoxeter

namespace Table

/-- The complete nodes come before the others, and no letter has several successors. -/
structure Orderly (p : Presentation) (t : Table) : Prop where
  /-- The complete nodes are those below the first incomplete one. -/
  complete_iff : ∀ i, t.pending? = some i → ∀ j, t.contains j → ((t.row j).complete ↔ j < i)
  /-- Without an incomplete node all are complete. -/
  complete_of_none : t.pending? = none → ∀ j, t.contains j → (t.row j).complete
  /-- A node that is absorbed while it is completed is absorbed by a complete one. -/
  absorbed : ∀ i t', t.pending? = some i → t.round p = .inl t' → ¬ t'.contains i →
    t'.root i < i ∧ t.contains (t'.root i) ∧ (t.row (t'.root i)).complete
  /-- Each letter has at most one successor. -/
  length_neighbours_le : ∀ i, t.contains i → ∀ x ∈ p.letters, (t.neighbours i x).1.length ≤ 1

/-- Letters and relators can be followed from the complete nodes. -/
structure Completed (p : Presentation) (t : Table) : Prop where
  /-- At a complete node each letter has exactly one successor. -/
  neighbours_eq : ∀ i, t.contains i → (t.row i).complete → ∀ x ∈ p.letters,
    ∃ j, (t.neighbours i x).1 = [j]
  /-- A relator traced from a complete node leads back to it and makes no node and no edge. -/
  trace_relator : ∀ i, t.contains i → (t.row i).complete → ∀ r ∈ p.relators,
    (t.trace i r).1 = .ok i ∧ (t.trace i r).2.forest.size = t.forest.size ∧
      (t.trace i r).2.rows = t.rows ∧ (t.trace i r).2.edges = t.edges

namespace Settled

variable {p : Presentation} {t t' : Table}

theorem neighbours_eq (h : Settled p t) {i : ℕ} (hi : t.contains i) {x : Letter}
    (hx : x.gen ∈ p.generators) {j : ℕ} (hj : t.Leads i x j) : (t.neighbours i x).1 = [j] :=
  h.wellFormed.neighbours_eq_of_leads hi hj fun k hk => h.singleValued i x hx k j hk hj

theorem orderly (h : Settled p t) (hp : p.Valid) : Orderly p t := by
  refine ⟨?_, fun hnone => pending?_eq_none.1 hnone, ?_, ?_⟩
  · intro i hi j hj
    obtain ⟨hci, hinc⟩ := pending?_eq_some hi
    refine ⟨fun hc => ?_, h.wellFormed.complete_of_lt_pending? hi hj⟩
    rcases Nat.lt_trichotomy j i with hlt | rfl | hlt
    · exact hlt
    · exact absurd hc hinc
    · exact absurd (h.complete_of_lt i j hci hj hlt hc) hinc
  · intro i t' hi hround hdrop
    obtain ⟨hci, -⟩ := pending?_eq_some hi
    have hr := hround ▸ h.round hp
    obtain ⟨hlt, hct⟩ :=
      h.wellFormed.root_lt_of_not_contains hr.settled.wellFormed hr.grows hci hdrop
    exact ⟨hlt, hct, h.wellFormed.complete_of_lt_pending? hi hct hlt⟩
  · intro i hi x hx
    rcases hnb : (t.neighbours i x).1 with _ | ⟨j, js⟩
    · exact Nat.zero_le 1
    · have hj : t.Leads i x j := by
        rw [← h.wellFormed.root_of_contains hi,
          ← h.wellFormed.mem_neighbours (h.wellFormed.lt_of_contains hi), hnb]
        exact List.mem_cons_self
      rw [← hnb, h.neighbours_eq hi (Letter.mem_signed.1 hx) hj]
      exact Nat.le_refl 1

theorem completed (h : Settled p t) (hp : p.Valid) : Completed p t := by
  refine ⟨?_, ?_⟩
  · intro i hi hc x hx
    obtain ⟨j, hj⟩ := h.leads i hi hc x (Letter.mem_signed.1 hx)
    exact ⟨j, h.neighbours_eq hi (Letter.mem_signed.1 hx) hj⟩
  · intro i hi hc r hr
    obtain ⟨u, heq, hu⟩ := h.wellFormed.trace_of_path hi
      (fun x hx i j k => h.singleValued i x (hp.allows_relators r hr x hx) j k) (h.closes i hi hc r hr)
    rw [heq]
    exact ⟨rfl, hu.size_eq, hu.rows_eq, hu.edges_eq⟩

/-- A complete node stays complete as long as it lives, and its letters lead where they led. -/
theorem persists (h : Settled p t) (h' : Settled p t') (hg : Grows t t') {i : ℕ}
    (hi : t.contains i) (hc : (t.row i).complete) (hi' : t'.contains i) :
    (t'.row i).complete ∧ ∀ x ∈ p.letters, ∀ j, (t.neighbours i x).1 = [j] →
      (t'.neighbours i x).1 = [t'.root j] := by
  have hlt := h.wellFormed.lt_of_contains hi
  refine ⟨hg.complete i hlt hi' hc, fun x hx j hj => ?_⟩
  have hlead : t.Leads i x j := by
    rw [← h.wellFormed.root_of_contains hi, ← h.wellFormed.mem_neighbours hlt, hj]
    exact List.mem_singleton_self j
  exact h'.neighbours_eq hi' (Letter.mem_signed.1 hx) (hg.leads_of_contains h'.wellFormed hi' hlead)

end Settled

end Table

namespace Enumeration

/-- The loop of a run of the enumeration evaluates its condition when this is the table.  A run for which
the graph is already known does not enter the loop. -/
def Visits (e : Enumeration) (t : Table) : Prop :=
  ∃ n, Loop.steps (Table.round e.presentation) n e.table = .inl t

end Enumeration

end ToddCoxeter
