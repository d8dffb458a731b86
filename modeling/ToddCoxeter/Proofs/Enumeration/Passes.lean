import ToddCoxeter.Proofs.Enumeration.Termination
import ToddCoxeter.Proofs.Table.Calls

/-! # What a pass reports

A pass over the live nodes reports how many nodes it has dropped (`Table.ReportsDrops`).  It counts the
identifications that it makes, and each of these joins two nodes that were alive and different until then.
So the number is exact, and it is zero if and only if the table was single-valued before the pass, which then
has changed nothing.  A loop that goes on as long as nodes are dropped takes no more passes than there were
live nodes: this holds of every open table, and of every table in which a run begins to collapse
coincidences (`Enumeration.sweep_reports_drops`). -/

namespace ToddCoxeter

namespace Table

/-- The number that a pass reports is the number of nodes that it drops. -/
structure ReportsDrops (gens : List String) (t : Table) : Prop where
  /-- The nodes that are reported as dropped and those that are still alive are those that were alive. -/
  count : (t.sweep gens).1 + (t.sweep gens).2.live = t.live
  /-- No node comes to life. -/
  contains : ∀ i, (t.sweep gens).2.contains i → t.contains i
  /-- A node that is not alive any more is represented by a smaller one that is. -/
  dropped : ∀ i < t.forest.size, ¬ (t.sweep gens).2.contains i →
    (t.sweep gens).2.contains ((t.sweep gens).2.find i).1 ∧ ((t.sweep gens).2.find i).1 < i
  /-- None is dropped exactly if each letter led from each live node to one neighbour at most. -/
  eq_zero_iff : (t.sweep gens).1 = 0 ↔
    ∀ i, t.contains i → ∀ x ∈ Letter.signed gens, (t.neighbours i x).1.length ≤ 1
  /-- If none is dropped, nodes, representatives and neighbours stay as they are. -/
  unchanged : (t.sweep gens).1 = 0 →
    (t.sweep gens).2.ids = t.ids ∧ (∀ i, (t.sweep gens).2.node i = t.node i) ∧
    (∀ i, ((t.sweep gens).2.find i).1 = (t.find i).1) ∧
    ∀ i x, ((t.sweep gens).2.neighbours i x).1 = (t.neighbours i x).1
  /-- If some are dropped, fewer nodes are alive. -/
  live_lt : 0 < (t.sweep gens).1 → (t.sweep gens).2.live < t.live
  /-- The loop over the passes takes no more of them than there are live nodes. -/
  passes : ∃ n ≤ t.live, Loop.steps (pass gens) n t = .inr (t.collapse gens)

variable {gens : List String} {t : Table}

/-- A pass drops no node exactly if the table is single-valued. -/
theorem WellFormed.sweep_eq_zero_iff (h : t.WellFormed) : (t.sweep gens).1 = 0 ↔ SingleValued gens t := by
  have hswept := h.sweep_swept gens
  refine ⟨fun h0 => (hswept.settled h0).2, fun hs => ?_⟩
  have hlive := (h.reshaped_of_singleValued hs hswept.moves).live_eq
  have hcount := hswept.count
  omega

theorem WellFormed.reportsDrops (h : t.WellFormed) (gens : List String) : ReportsDrops gens t := by
  have hswept := h.sweep_swept gens
  have hwf := h.moves hswept.moves
  have hgrows := h.grows_moves hswept.moves
  have hsize := (Moves.size_and_edges_eq hswept.moves).1
  have hcount := hswept.count
  refine ⟨hcount, fun i hi => ?_, fun i hi hdrop => ?_, ?_, fun h0 => ?_, by omega, h.exists_steps_pass_eq gens⟩
  · exact hgrows.contains i (hsize ▸ hwf.lt_of_contains hi) hi
  · have hroot : (t.sweep gens).2.contains ((t.sweep gens).2.find i).1 :=
      hwf.contains_root (hgrows.lt_size hi)
    refine ⟨hroot, lt_of_le_of_ne ((t.sweep gens).2.root_le i) fun heq => hdrop ?_⟩
    rwa [heq] at hroot
  · rw [h.sweep_eq_zero_iff, h.singleValued_iff]
  · have hr := (hswept.settled h0).1
    refine ⟨by rw [ids, hr.rows_eq, ids], fun i => ?_, hr.root_eq, hr.fst_neighbours_eq⟩
    simp only [node, hr.root_eq, hr.row_eq]

end Table

namespace Enumeration

/-- What a pass reports is right after any calls on a new table.  It is right as well whenever an accepted
enumeration begins to collapse coincidences, so that its inner loop takes no more passes than there are live
nodes then. -/
theorem sweep_reports_drops :
    (∀ t : Table, t.Reachable → ∀ gens, t.ReportsDrops gens) ∧
      ∀ {limit : DigitLimit} {generators : List Datum} {relations : List String} {cap : Int}
        {e : Enumeration}, ofRelations limit generators relations cap = .ok e →
        ∀ t u, e.Visits t → t.ReadyToCollapse e.presentation u → ∀ gens, u.ReportsDrops gens := by
  refine ⟨fun t ht => ht.wellFormed.reportsDrops, fun {limit generators relations cap e} h => ?_⟩
  obtain ⟨p, hp, hcap, rfl⟩ := exists_fresh_of_ofRelations h
  have hsettled : (Table.start cap.toNat).Settled p := Table.settled_start hcap
  rintro t u ⟨n, hn⟩ hready
  have ht := (hn ▸ hsettled.steps hp n).1
  exact (hready.wellFormed ht.wellFormed hp).reportsDrops

/-- A pass that drops the node 3 in favour of the node 1, and the pass that follows when the only generator
of the group of two elements has been followed from the first node. -/
theorem sweep_reports_drops_crowded :
    (∃ t : Table, (Table.start 4).history Table.crowded = some t ∧ t.ReportsDrops ["a"] ∧
      t.ids = [0, 1, 3, 4] ∧ (t.sweep ["a"]).1 = 1 ∧ ((t.sweep ["a"]).2.find 3).1 = 1) ∧
      ∃ u, (Table.start 4).ReadyToCollapse square u ∧ u.ReportsDrops ["a"] := by
  have heq : ((Table.start 4).history Table.crowded).map (fun t =>
      (t.ids, (t.sweep ["a"]).1, ((t.sweep ["a"]).2.find 3).1)) = some ([0, 1, 3, 4], 1, 1) := by cbv
  obtain ⟨t, ht, heq⟩ := Option.map_eq_some_iff.1 heq
  simp only [Prod.mk.injEq] at heq
  refine ⟨⟨t, ht, sweep_reports_drops.1 t ⟨4, .start 4, Table.crowded, rfl, ht⟩ ["a"], heq⟩, ?_⟩
  have hpending : (Table.start 4).pending? = some 0 := by cbv
  have hsteps : ((Table.start 4).stepAll 0 square.letters).1 = .ok () := by cbv
  have hclose : (((Table.start 4).stepAll 0 square.letters).2.closeRelators 0 square.relators).1 =
      .ok () := by cbv
  have hready : (Table.start 4).ReadyToCollapse square _ :=
    ⟨0, _, hpending, Prod.ext hsteps rfl, Prod.ext hclose rfl⟩
  exact ⟨_, hready, sweep_reports_drops.2 (ofRelations_square (by decide : (1 : Int) ≤ 4)) _ _ ⟨0, rfl⟩
    hready ["a"]⟩

end Enumeration

end ToddCoxeter
