import ToddCoxeter.Proofs.Enumeration.Outcome

/-! # A finished run enumerates the presented group

Since the live nodes of a finished table are the elements of the presented group, the nodes of two words
agree exactly if the words are equal in the group, and the order is that of the group
(`Enumeration.nodeOf_eq_iff_equal`). -/

namespace ToddCoxeter.Enumeration

theorem nodeOf_of_actWord {p : Presentation} {t c : Table} (hc : t.ClosedBy p c) {e : Enumeration}
    (hgraph : e.graph = c.graph) (hdone : e.isComputed) {w : Word} {k : ℕ}
    (hact : e.table.actWord 0 w = .ok k) (hk : k < t.live) :
    ∃ n, e.nodeOf w = .ok n ∧ c.nodes[k]? = some n ∧ n.id = k := by
  obtain ⟨n, hn, hid⟩ := hc.id_eq k hk
  refine ⟨n, ?_, hn, hid⟩
  unfold nodeOf checkComputed
  rw [if_pos hdone, hact, hgraph]
  simp only [bind, Except.bind, Graph.nodeAt, Table.graph, hn]

/-- Once the graph of a finished table is known, a word is at the node with the place of the live node to
which the word leads. -/
theorem nodeOf_eq {p : Presentation} {t c : Table} (ht : t.Settled p) (hc : t.ClosedBy p c)
    {e : Enumeration} (htable : e.table = c) (hgraph : e.graph = c.graph) (hdone : e.isComputed)
    {w : Word} (hw : p.Allows w) {i : ℕ} (hpath : Path t.Leads 0 w i) :
    ∃ n, e.nodeOf w = .ok n ∧ c.nodes[t.ids.idxOf i]? = some n ∧ n.id = t.ids.idxOf i := by
  have hzero := ht.wellFormed.contains_zero
  have hact := hc.actWord_eq ht.wellFormed hw hzero hpath
  rw [ht.wellFormed.idxOf_zero_ids, ← htable] at hact
  have hi := Table.contains_iff_mem_ids.1 (ht.wellFormed.contains_of_path hzero hpath)
  exact nodeOf_of_actWord hc hgraph hdone hact (t.length_ids ▸ List.idxOf_lt_length_of_mem hi)

/-- A run that gives a graph has enumerated the presented group: two words are at the same node exactly
if they are equal in the group, and the order is the number of elements of the group. -/
theorem nodeOf_eq_iff_equal {limit : DigitLimit} {generators : List Datum} {relations : List String}
    {cap : Int} {e : Enumeration} (h : ofRelations limit generators relations cap = .ok e)
    {g : Graph} (hrun : e.run.1.outcome = .ok g) :
    (∀ u v, e.presentation.Allows u → e.presentation.Allows v →
        ∃ n m, e.run.2.nodeOf u = .ok n ∧ e.run.2.nodeOf v = .ok m ∧
          (n = m ↔ e.presentation.Equal u v)) ∧
      Finite e.presentation.Element ∧
      e.run.2.order = .ok (Nat.card e.presentation.Element) := by
  obtain ⟨p, hp, hcap, rfl⟩ := exists_fresh_of_ofRelations h
  obtain ⟨t, c, ht, -, hnone, hc, -, htable, hgraph, hdone⟩ :=
    exists_runsTo_of_outcome_eq_ok hp hcap hrun
  rw [presentation_fresh] at *
  obtain ⟨hfin, hcard⟩ := ht.card_element hnone hp
  have hcov := ht.covers hnone
  have hzero := ht.wellFormed.contains_zero
  refine ⟨fun u v hu hv => ?_, hfin, ?_⟩
  · obtain ⟨i, hi⟩ := hcov.toActs.exists_path hzero hu
    obtain ⟨j, hj⟩ := hcov.toActs.exists_path hzero hv
    have hc' : t.ClosedBy p { c with log := #[] } :=
      ⟨hc.length_nodes, hc.id_eq, hc.act_eq⟩
    obtain ⟨n, hn, hni, hid⟩ := nodeOf_eq ht hc' htable hgraph hdone hu hi
    obtain ⟨m, hm, hmj, hid'⟩ := nodeOf_eq ht hc' htable hgraph hdone hv hj
    refine ⟨n, m, hn, hm, Iff.trans ?_ (ht.eq_iff_equal hnone hp hv hi hj)⟩
    have hmem := Table.contains_iff_mem_ids.1 (ht.wellFormed.contains_of_path hzero hi)
    constructor
    · rintro rfl
      exact (List.idxOf_inj hmem).1 (hid.symm.trans hid')
    · rintro rfl
      exact Option.some.inj (hni.symm.trans hmj)
  · unfold order checkComputed
    rw [if_pos hdone, hgraph, hcard, ← hc.length_nodes]
    rfl

theorem nodeOf_eq_iff_equal_square :
    ∃ g, (fresh square 4).run.1.outcome = .ok g ∧
      (fresh square 4).run.2.order = .ok (Nat.card square.Element) := by
  have hrun : (fresh square 4).run.1.outcome =
      .ok ⟨[⟨0, [], true⟩, ⟨1, [⟨"a", false⟩], true⟩], [⟨0, 1, "a"⟩, ⟨1, 0, "a"⟩]⟩ := by cbv
  exact ⟨_, hrun, (nodeOf_eq_iff_equal (ofRelations_square (by decide : (1 : Int) ≤ 4)) hrun).2.2⟩

end ToddCoxeter.Enumeration
