import ToddCoxeter.Enumeration.Access
import ToddCoxeter.Proofs.Enumeration.Finished
import ToddCoxeter.Proofs.Enumeration.Measure

/-! # How a run ends

The loop ends within its budget, with a finished table or because the cap is passed
(`Table.Settled.enumerate_cases`).  A finished table is then closed, so that a run gives the graph of the
closed table (`Enumeration.RunsTo`) or fails for the cap and leaves the enumeration as it was
(`Enumeration.run_cases`). -/

namespace ToddCoxeter

namespace Table

variable {p : Presentation} {t : Table}

/-- An enumeration leaves a finished table, or fails because the cap is passed. -/
theorem Settled.enumerate_cases (h : Settled p t) (hp : p.Valid) :
    (∃ t', t.enumerate p = (.ok (), t') ∧ Settled p t' ∧ t'.cap = t.cap ∧ t'.pending? = none) ∨
      ∃ t', t.enumerate p = (.error (.overflow ⟨t.cap⟩), t') := by
  obtain ⟨r, hr⟩ := h.exists_steps_eq hp
  have hsteps := h.steps hp (2 ^ roundBits p t.cap - 1)
  unfold enumerate
  rw [Loop.run_eq_steps, Nat.one_shiftLeft, hr]
  rw [hr] at hsteps
  rcases r with ⟨fault | _, u⟩
  · obtain rfl : fault = ⟨t.cap⟩ := hsteps
    exact .inr ⟨u, rfl⟩
  · exact .inl ⟨u, rfl, hsteps⟩

/-- An enumeration leaves a finished table exactly if the loop over the rounds ends with that table. -/
theorem Settled.enumerate_eq_ok_iff (h : Settled p t) (hp : p.Valid) {u : Table} :
    t.enumerate p = (.ok (), u) ↔ ∃ n, Loop.steps (Table.round p) n t = .inr (.ok (), u) := by
  obtain ⟨r, hr⟩ := h.exists_steps_eq hp
  unfold enumerate
  rw [Loop.run_eq_steps, Nat.one_shiftLeft, hr]
  constructor
  · intro henum
    rcases r with ⟨fault | _, v⟩
    · simp at henum
    · obtain rfl : v = u := congrArg Prod.snd henum
      exact ⟨_, hr⟩
  · rintro ⟨n, hn⟩
    obtain rfl := Loop.eq_of_steps_eq hr hn
    rfl

end Table

namespace Enumeration

/-- The run finishes the table `t` and closes it to `c`. -/
structure RunsTo (e : Enumeration) (t c : Table) : Prop where
  settled : t.Settled e.presentation
  cap_eq : t.cap = e.cap
  pending?_eq : t.pending? = none
  closedBy : t.ClosedBy e.presentation c
  outcome_eq : e.run.1.outcome = .ok c.graph
  table_eq : e.run.2.table = { c with log := #[] }
  graph_eq : e.run.2.graph = c.graph
  isComputed : e.run.2.isComputed

section run

variable {p : Presentation} {cap : ℕ} {t : Table}

theorem run_fresh_eq (p : Presentation) (cap : ℕ) :
    (fresh p cap).run = match (fresh p cap).compute with
      | (report, e) => match report.outcome with
        | .ok graph => (report, { e with memo := e.memo.insert runKey (some graph) })
        | .error _ => (report, e) := rfl

theorem runsTo_of_close {c : Table} (henum : (Table.start cap).enumerate p = (.ok (), t))
    (ht : t.Settled p) (htcap : t.cap = cap) (hnone : t.pending? = none) (hc : t.ClosedBy p c)
    (hclose : t.close p.generators = (.ok c.graph, c)) : (fresh p cap).RunsTo t c := by
  have hcompute := compute.eq_1 (fresh p cap)
  have hrun := run_fresh_eq p cap
  simp only [fresh, henum, hclose] at hcompute
  simp only [fresh, hcompute] at hrun
  exact ⟨ht, htcap, hnone, hc, congrArg (·.1.outcome) hrun, congrArg (·.2.table) hrun,
    congrArg (·.2.graph) hrun, congrArg (·.2.isComputed) hrun⟩

theorem exists_runsTo (henum : (Table.start cap).enumerate p = (.ok (), t)) (ht : t.Settled p)
    (htcap : t.cap = cap) (hnone : t.pending? = none) : ∃ c, (fresh p cap).RunsTo t c := by
  obtain ⟨c, hc, hclose⟩ := ht.exists_closedBy hnone
  exact ⟨c, runsTo_of_close henum ht htcap hnone hc hclose⟩

theorem run_of_enumerate_eq_error {fault : Fault}
    (henum : (Table.start cap).enumerate p = (.error fault, t)) :
    (fresh p cap).run.1.outcome = .error fault ∧ (fresh p cap).run.2 = fresh p cap := by
  have hcompute := compute.eq_1 (fresh p cap)
  have hrun := run_fresh_eq p cap
  simp only [fresh, henum] at hcompute
  simp only [fresh, hcompute] at hrun
  exact ⟨congrArg (·.1.outcome) hrun, congrArg (·.2) hrun⟩

/-- A run finishes a table, or fails because the cap is passed and leaves the enumeration as it was. -/
theorem run_cases (hp : p.Valid) (hcap : 0 < cap) :
    (∃ t c, (fresh p cap).RunsTo t c) ∨
      (fresh p cap).run.1.outcome = .error (.overflow ⟨cap⟩) ∧
        (fresh p cap).run.2 = fresh p cap := by
  have hsettled : (Table.start cap).Settled p := Table.settled_start hcap
  rcases hsettled.enumerate_cases hp with ⟨t, henum, ht, htcap, hnone⟩ | ⟨t, henum⟩
  · exact .inl ⟨t, exists_runsTo henum ht htcap hnone⟩
  · exact .inr (run_of_enumerate_eq_error henum)

/-- A run that gives a graph has closed the table at which the loop ended. -/
theorem exists_enumerate_of_outcome_eq_ok (hp : p.Valid) (hcap : 0 < cap) {g : Graph}
    (h : (fresh p cap).run.1.outcome = .ok g) :
    ∃ t c, (fresh p cap).RunsTo t c ∧ t.close p.generators = (.ok c.graph, c) ∧
      (Table.start cap).enumerate p = (.ok (), t) := by
  have hsettled : (Table.start cap).Settled p := Table.settled_start hcap
  rcases hsettled.enumerate_cases hp with ⟨t, henum, ht, htcap, hnone⟩ | ⟨t, henum⟩
  · obtain ⟨c, hc, hclose⟩ := ht.exists_closedBy hnone
    exact ⟨t, c, runsTo_of_close henum ht htcap hnone hc hclose, hclose, henum⟩
  · rw [(run_of_enumerate_eq_error henum).1] at h
    exact absurd h (by simp)

theorem exists_close_of_outcome_eq_ok (hp : p.Valid) (hcap : 0 < cap) {g : Graph}
    (h : (fresh p cap).run.1.outcome = .ok g) :
    ∃ t c, (fresh p cap).RunsTo t c ∧ t.close p.generators = (.ok c.graph, c) := by
  obtain ⟨t, c, hrun, hclose, -⟩ := exists_enumerate_of_outcome_eq_ok hp hcap h
  exact ⟨t, c, hrun, hclose⟩

theorem visits_of_enumerate (hp : p.Valid) (hcap : 0 < cap)
    (h : (Table.start cap).enumerate p = (.ok (), t)) : (fresh p cap).Visits t := by
  have hsettled : (Table.start cap).Settled p := Table.settled_start hcap
  obtain ⟨n, hn⟩ := (hsettled.enumerate_eq_ok_iff hp).1 h
  obtain ⟨m, u, hm, hround⟩ := Loop.exists_step_of_steps_eq hn
  have hu := hround ▸ ((hm ▸ hsettled.steps hp m).1.round hp)
  exact ⟨m, hu.1.symm ▸ hm⟩

theorem exists_runsTo_of_outcome_eq_ok (hp : p.Valid) (hcap : 0 < cap) {g : Graph}
    (h : (fresh p cap).run.1.outcome = .ok g) : ∃ t c, (fresh p cap).RunsTo t c := by
  obtain ⟨t, c, hrun, -⟩ := exists_close_of_outcome_eq_ok hp hcap h
  exact ⟨t, c, hrun⟩

theorem RunsTo.card_le {c : Table} (h : (fresh p cap).RunsTo t c) (hp : p.Valid) :
    Finite p.Element ∧ Nat.card p.Element ≤ cap := by
  obtain ⟨hfin, hcard⟩ := h.settled.card_element h.pending?_eq hp
  have hle := h.settled.live_le_cap
  rw [h.cap_eq] at hle
  exact ⟨hfin, hcard.trans_le hle⟩

end run

end Enumeration

end ToddCoxeter
