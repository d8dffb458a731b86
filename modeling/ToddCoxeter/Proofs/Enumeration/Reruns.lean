import Mathlib
import ToddCoxeter.Proofs.Enumeration.LifeCycle

/-! # The invariant of the loop from run to run

An enumeration may be run again and again, and its graph be forgotten in between.  Up to the run that gives
the graph every run starts with the first node alone; afterwards the table is closed, and a run that has to
compute the graph once more starts with that table.  It evaluates the condition of its loop once.

Whatever was requested before, the complete nodes come before the others at every evaluation, letters are
single-valued, and nothing that completing a node established is undone later
(`Enumeration.orderly_of_visits`).  That letters and relators can be followed from the complete nodes holds as
long as the table is not closed.  A closed table keeps the marks of its nodes but not their edges, so there
it fails (`Enumeration.exists_visits_not_completed`). -/

namespace ToddCoxeter

namespace Table

variable {p : Presentation} {t t' : Table}

theorem eq_of_steps_of_pending?_eq_none (hnone : t.pending? = none) {n : ℕ}
    (h : Loop.steps (round p) n t = .inl t') : t' = t := by
  cases n with
  | zero => exact (Sum.inl.inj h).symm
  | succ n =>
      simp only [Loop.steps, round_of_pending?_eq_none hnone] at h
      exact absurd h (by simp)

theorem orderly_of_pending?_eq_none (hnone : t.pending? = none)
    (hneighbours : ∀ i x, (t.neighbours i x).1 = []) : t.Orderly p := by
  refine ⟨?_, fun _ => pending?_eq_none.1 hnone, ?_, ?_⟩
  · intro i hi
    exact absurd (hnone.symm.trans hi) (by simp)
  · intro i t' hi
    exact absurd (hnone.symm.trans hi) (by simp)
  · intro i _ x _
    rw [hneighbours]
    exact Nat.zero_le 1

end Table

namespace Enumeration

variable {e : Enumeration} {p : Presentation} {cap : ℕ}

/-- Whatever was requested of it, an enumeration is fresh, or its table is closed with nothing left to do. -/
theorem Stage.eq_or_closed (hp : p.Valid) (hcap : 0 < cap) (h : Stage (fresh p cap) e) :
    e = fresh p cap ∨ e.table.closed = true ∧ e.table.pending? = none ∧
      ∀ i x, (e.table.neighbours i x).1 = [] := by
  cases h with
  | initial => exact .inl rfl
  | finished g hg =>
      have hspent := (spent_of_outcome_eq_ok hp hcap hg).2
      exact .inr ⟨hspent.closed_eq, hspent.pending?_eq, hspent.neighbours_eq⟩
  | spent g hg =>
      have hspent := (spent_of_outcome_eq_ok hp hcap hg).2
      exact .inr ⟨hspent.closed_eq, hspent.pending?_eq, hspent.neighbours_eq⟩

/-- Whatever was requested of an accepted enumeration before, each table at which the loop of a run evaluates
its condition is orderly, and letters and relators can be followed from its complete nodes unless it is closed.
At every later evaluation of the same loop the complete nodes that still live are complete, and their letters
lead where they led. -/
theorem orderly_of_visits {limit : DigitLimit} {generators : List Datum} {relations : List String}
    {cap : Int} {e : Enumeration} (h : ofRelations limit generators relations cap = .ok e)
    (rs : List Request) {t : Table} (ht : (e.afterAll rs).Visits t) :
    t.Orderly e.presentation ∧ (t.closed = false → t.Completed e.presentation) ∧
      ∀ m t', Loop.steps (Table.round e.presentation) m t = .inl t' →
        ∀ i, t.contains i → (t.row i).complete → t'.contains i →
          (t'.row i).complete ∧ ∀ x ∈ e.presentation.letters, ∀ j,
            (t.neighbours i x).1 = [j] → (t'.neighbours i x).1 = [t'.root j] := by
  obtain ⟨p, hp, hcap, rfl⟩ := exists_fresh_of_ofRelations h
  obtain ⟨n, hn⟩ := ht
  rcases (stage_afterAll hp hcap rs).eq_or_closed hp hcap with heq | ⟨hclosed, hnone, hneighbours⟩
  · -- The loop starts with the first node alone, and settled tables follow.
    rw [heq] at hn
    have hstart : (Table.start cap.toNat).Settled p := Table.settled_start hcap
    have hs := (hn ▸ hstart.steps hp n).1
    refine ⟨hs.orderly hp, fun _ => hs.completed hp, fun m t' hm i hi hc hi' => ?_⟩
    obtain ⟨hs', hg, -⟩ := hm ▸ hs.steps hp m
    exact hs.persists hs' hg hi hc hi'
  · -- The loop starts with the closed table, and stops there.
    obtain rfl := Table.eq_of_steps_of_pending?_eq_none hnone hn
    refine ⟨Table.orderly_of_pending?_eq_none hnone hneighbours, fun hopen => ?_, fun m t' hm i _ hc _ => ?_⟩
    · exact absurd (hopen.symm.trans hclosed) (by simp)
    · obtain rfl := Table.eq_of_steps_of_pending?_eq_none hnone hm
      refine ⟨hc, fun x _ j hj => ?_⟩
      exact absurd ((hneighbours i x).symm.trans hj) (by simp)

theorem orderly_of_visits_square :
    ∃ t : Table, ((fresh square 4).afterAll []).Visits t ∧ (t.row 0).complete ∧ t.Orderly square ∧
      t.Completed square ∧
      ∀ t', Loop.steps (Table.round square) 1 t = .inl t' → t'.contains 0 → (t'.row 0).complete := by
  have hround : ((Loop.steps (Table.round square) 1 (.start 4)).getLeft?.map fun t : Table =>
      t.contains 0 && (t.row 0).complete && !t.closed) = some true := by cbv
  obtain ⟨t, ht, hzero⟩ := Option.map_eq_some_iff.1 hround
  obtain ⟨⟨hlive, hc⟩, hopen⟩ : (t.contains 0 ∧ (t.row 0).complete) ∧ t.closed = false := by
    simpa only [Bool.and_eq_true, Bool.not_eq_true'] using hzero
  have hvisits : ((fresh square 4).afterAll []).Visits t := ⟨1, Sum.getLeft?_eq_some_iff.1 ht⟩
  obtain ⟨horderly, hcompleted, hkeeps⟩ :=
    orderly_of_visits (ofRelations_square (by decide : (1 : Int) ≤ 4)) [] hvisits
  exact ⟨t, hvisits, hc, horderly, hcompleted hopen,
    fun t' ht' hlive' => (hkeeps 1 t' ht' 0 hlive hc hlive').1⟩

/-- A run after the graph was forgotten evaluates the condition of its loop at the closed table, where no
letter leads from the first node although that is complete, and tracing the relator makes two nodes. -/
theorem exists_visits_not_completed :
    ofRelations none [.text "a"] ["a^2"] 4 = .ok (fresh square 4) ∧
      ((fresh square 4).afterAll [.run, .forget]).isComputed = false ∧
      ∃ t, ((fresh square 4).afterAll [.run, .forget]).Visits t ∧ t.contains 0 ∧ (t.row 0).complete ∧
        (t.neighbours 0 ⟨"a", false⟩).1 = [] ∧ t.forest.size = 2 ∧
        (∀ r ∈ square.relators, (t.trace 0 r).2.forest.size = 4) ∧ ¬ t.Completed square := by
  have heval : ((fresh square 4).afterAll [.run, .forget]).table.contains 0 ∧
      (((fresh square 4).afterAll [.run, .forget]).table.row 0).complete ∧
      (((fresh square 4).afterAll [.run, .forget]).table.neighbours 0 ⟨"a", false⟩).1 = [] ∧
      ((fresh square 4).afterAll [.run, .forget]).table.forest.size = 2 ∧
      ∀ r ∈ square.relators,
        (((fresh square 4).afterAll [.run, .forget]).table.trace 0 r).2.forest.size = 4 := by
    refine ⟨by cbv, by cbv, by cbv, by cbv, List.forall_mem_singleton.2 (by cbv)⟩
  obtain ⟨hlive, hc, hnone, hsize, htrace⟩ := heval
  refine ⟨ofRelations_square (by decide), by cbv, _, ⟨0, rfl⟩, hlive, hc, hnone, hsize, htrace, ?_⟩
  intro hcompleted
  obtain ⟨j, hj⟩ := hcompleted.neighbours_eq 0 hlive hc ⟨"a", false⟩ (by decide)
  exact absurd (hnone.symm.trans hj) (by simp)

end Enumeration

end ToddCoxeter
