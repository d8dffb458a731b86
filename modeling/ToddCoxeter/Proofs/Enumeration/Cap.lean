import ToddCoxeter.Proofs.Enumeration.Capacity
import ToddCoxeter.Proofs.Enumeration.Termination

/-! # What the cap decides

The cap decides whether a run fails, and nothing else: a run that gives a graph gives the same report and the
same columns with every larger cap.  No table that a run goes through has more live nodes than the cap allows,
whether between the rounds (`Enumeration.Visits`) or in the course of one (`Table.PassesThrough`). -/

namespace ToddCoxeter

namespace Table

variable {p : Presentation} {t u : Table}

/-- The round that starts in `t` goes through `u`: some letters have been followed from the node to be
completed, or all of them and some relators have been traced from it, the last one perhaps in part, or all
relators have been traced and some nodes of a pass been looked at, the last one perhaps for some letters
only. -/
inductive PassesThrough (p : Presentation) (t : Table) : Table → Prop
  | start : PassesThrough p t t
  | followed {i : ℕ} {xs : List Letter} {u : Table} : t.pending? = some i → xs <+: p.letters →
      t.stepAll i xs = (.ok (), u) → PassesThrough p t u
  | closed {i : ℕ} {ws : List Word} {u v : Table} : t.pending? = some i →
      t.stepAll i p.letters = (.ok (), u) → ws <+: p.relators →
      u.closeRelators i ws = (.ok (), v) → PassesThrough p t v
  | traced {i j : ℕ} {ws : List Word} {w w' : Word} {u v v' : Table} : t.pending? = some i →
      t.stepAll i p.letters = (.ok (), u) → ws ++ [w] <+: p.relators →
      u.closeRelators i ws = (.ok (), v) → w' <+: w →
      (v.find i).2.trace (v.find i).1 w' = (.ok j, v') → PassesThrough p t v'
  | swept {n k : ℕ} {is : List ℕ} {xs : List Letter} {u v : Table} : t.ReadyToCollapse p u →
      Loop.steps (pass p.generators) n u = .inl v → is ++ [k] <+: v.ids → xs <+: p.letters →
      PassesThrough p t ((v.sweepNodes p.letters is).2.sweepNode k xs).2

theorem WellFormed.steps_of_steps_pass (h : t.WellFormed) {n : ℕ}
    (hu : Loop.steps (pass p.generators) n t = .inl u) : Steps p t u := by
  have hpass : ∀ (_ : ℕ) (v w : Table), Steps p t v → pass p.generators v = .inl w →
      Steps p t w := by
    intro _ v w hv hw
    have hswept := (h.moves hv).sweep_swept p.generators
    unfold pass at hw
    split_ifs at hw
    obtain rfl := Sum.inl.inj hw
    exact hv.trans hswept.moves.steps_of_coincident
  rcases Loop.steps_cases hpass (k := 0) .refl n with ⟨v, hv, hm⟩ | ⟨_, _, r, hr, -⟩
  · obtain rfl := Sum.inl.inj (hv.symm.trans hu)
    exact hm
  · exact absurd (hr.symm.trans hu) (by simp)

theorem PassesThrough.steps (hu : PassesThrough p t u) (h : t.WellFormed) (hp : p.Valid) :
    Steps p t u := by
  cases hu with
  | start => exact .refl
  | followed hi hxs hu => exact h.steps_of_stepAll hi hxs hu
  | closed hi hall hws hv => exact h.steps_of_closeRelators hp hi hall hws hv
  | @traced i j ws w w' _ v _ hi hall hws hv hw htrace =>
      have hm := h.steps_of_closeRelators hp hi hall ((List.prefix_append ws [w]).trans hws) hv
      have hr := v.reshaped_find i
      have hlt := (h.grows_moves hm).lt_size (h.lt_of_contains (pending?_eq_some hi).1)
      have hroot : v.root i < (v.find i).2.forest.size := hr.size_eq.symm ▸ Forest.root_lt_size hlt
      have hallowed := hp.allows_relators w (hws.subset (by simp))
      have hyields := htrace ▸ ((h.moves hm).reshaped hr).trace_yields (L := (·.gen ∈ p.generators))
        (J := Forced p) hroot fun x hx => hallowed x (hw.subset hx)
      exact (hm.trans hr.moves).trans hyields.1
  | @swept n k is xs u v hready hn his hxs =>
      obtain ⟨i, u₀, hi, hall, hclose⟩ := hready
      have hm := (h.steps_of_closeRelators hp hi hall (List.prefix_refl _) hclose)
      have hv := hm.trans ((h.moves hm).steps_of_steps_pass hn)
      have hgen : ∀ x ∈ p.letters, x.gen ∈ p.generators := fun x => Letter.mem_signed.1
      have hnodes := (h.moves hv).sweepNodes_swept hgen is
      have hw := hv.trans hnodes.moves.steps_of_coincident
      have hnode := (h.moves hw).sweepNode_swept k fun x hx => hgen x (hxs.subset hx)
      exact hw.trans hnode.moves.steps_of_coincident

/-- No table of a round has more live nodes than the cap allows. -/
theorem Settled.live_le_of_passesThrough (h : Settled p t) (hp : p.Valid) (hu : PassesThrough p t u) :
    u.live ≤ t.cap := by
  have hm := hu.steps h.wellFormed hp
  exact hm.cap_eq ▸ h.wellFormed.live_le_cap hm h.live_le_cap

end Table

namespace Enumeration

variable {p : Presentation} {m m' cap : ℕ} {t : Table}

theorem run_of_close {g : Graph} {c : Table} (henum : (Table.start cap).enumerate p = (.ok (), t))
    (hclose : t.close p.generators = (.ok g, c)) :
    (fresh p cap).run.1 =
        ⟨(c.record (.enumerated p g.nodes.length g.edges.length)).log.toList, .ok g⟩ ∧
      (fresh p cap).run.2.table.columns = c.columns := by
  have hcompute := compute.eq_1 (fresh p cap)
  have hrun := run_fresh_eq p cap
  simp only [fresh, henum, hclose] at hcompute
  simp only [fresh, hcompute] at hrun
  exact ⟨congrArg (·.1) hrun, congrArg (·.2.table.columns) hrun⟩

/-- A run that gives a graph goes in the same way with a larger cap. -/
theorem run_eq_of_le (hp : p.Valid) (hm : 0 < m) (hle : m ≤ m') {g : Graph}
    (h : (fresh p m).run.1.outcome = .ok g) :
    (fresh p m').run.1 = (fresh p m).run.1 ∧
      (fresh p m').run.2.table.columns = (fresh p m).run.2.table.columns := by
  have hstart : (Table.start m).Settled p := Table.settled_start hm
  have hstart' : (Table.start m').Settled p := Table.settled_start (hm.trans_le hle)
  rcases hstart.enumerate_cases hp with ⟨t, henum, ht, -, hnone⟩ | ⟨t, henum⟩
  · obtain ⟨c, -, hclose⟩ := ht.exists_closedBy hnone
    obtain ⟨n, hn⟩ := (hstart.enumerate_eq_ok_iff hp).1 henum
    have henum' : (Table.start m').enumerate p = (.ok (), t.recap m') :=
      (hstart'.enumerate_eq_ok_iff hp).2 ⟨n, (hstart.steps_recap hp hle).2 t hn⟩
    have hclose' : (t.recap m').close p.generators = (.ok c.graph, c.recap m') := by
      rw [Table.close_recap, hclose]
    obtain ⟨hreport, hcolumns⟩ := run_of_close henum hclose
    obtain ⟨hreport', hcolumns'⟩ := run_of_close henum' hclose'
    exact ⟨hreport'.trans hreport.symm, hcolumns'.trans hcolumns.symm⟩
  · rw [(run_of_enumerate_eq_error henum).1] at h
    exact absurd h (by simp)

/-- A run that gives a graph gives the same graph, log and columns with every larger cap, so that a run that
fails with the larger cap fails with the smaller one.  In no table that a run goes through are more nodes
alive than the cap allows, and a graph has no more nodes. -/
theorem run_cap {limit : DigitLimit} {generators : List Datum} {relations : List String}
    {cap cap' : Int} {e : Enumeration} (h : ofRelations limit generators relations cap = .ok e)
    (hle : cap ≤ cap') :
    (∃ e', ofRelations limit generators relations cap' = .ok e' ∧
        (∀ g, e.run.1.outcome = .ok g →
          e'.run.1 = e.run.1 ∧ e'.run.2.table.columns = e.run.2.table.columns) ∧
        (∀ fault', e'.run.1.outcome = .error fault' → ∃ fault, e.run.1.outcome = .error fault)) ∧
      (∀ t u, e.Visits t → t.PassesThrough e.presentation u → u.live ≤ cap) ∧
      ∀ g, e.run.1.outcome = .ok g → g.nodes.length ≤ cap := by
  have haccepted := fun m => ofRelations_of_one_le (m := m) h
  have hone : 1 ≤ cap := by
    obtain ⟨-, -, -, -, -, hone, -⟩ := ofRelations_eq_ok_iff.1 h
    exact hone
  obtain ⟨p, hp, hcap, rfl⟩ := exists_fresh_of_ofRelations h
  have hle' : cap.toNat ≤ cap'.toNat := by omega
  have hsame := fun g => run_eq_of_le (g := g) hp hcap hle'
  refine ⟨⟨_, haccepted cap' (by omega), hsame, fun fault' hfault' => ?_⟩, ?_, fun g hg => ?_⟩
  · cases hrun : (fresh p cap.toNat).run.1.outcome with
    | error fault => exact ⟨fault, rfl⟩
    | ok g =>
        rw [presentation_fresh, (hsame g hrun).1, hrun] at hfault'
        exact absurd hfault' (by simp)
  · rintro t u ⟨n, hn⟩ hu
    have hstart : (Table.start cap.toNat).Settled p := Table.settled_start hcap
    obtain ⟨ht, -, htcap⟩ := hn ▸ hstart.steps hp n
    have hlive := ht.live_le_of_passesThrough hp hu
    have htcap : t.cap = cap.toNat := htcap
    omega
  · obtain ⟨t, c, hruns⟩ := exists_runsTo_of_outcome_eq_ok hp hcap hg
    obtain rfl : c.graph = g := Except.ok.inj (hruns.outcome_eq.symm.trans hg)
    have hlive := hruns.settled.live_le_cap
    have hlength : c.graph.nodes.length = t.live := hruns.closedBy.length_nodes
    have htcap : t.cap = cap.toNat := hruns.cap_eq
    omega

theorem run_cap_square :
    ofRelations none [.text "a"] ["a^2"] 4 = .ok (fresh square 4) ∧ (4 : Int) ≤ 9 ∧
      (∃ e', ofRelations none [.text "a"] ["a^2"] 9 = .ok e' ∧
        e'.run.1 = (fresh square 4).run.1) ∧
      (∀ t u, (fresh square 4).Visits t → t.PassesThrough square u → (u.live : Int) ≤ 4) ∧
      ∃ g, (fresh square 4).run.1.outcome = .ok g ∧ (g.nodes.length : Int) ≤ 4 := by
  have haccepted : ofRelations none [.text "a"] ["a^2"] 4 = .ok (fresh square 4) :=
    ofRelations_square (by decide : (1 : Int) ≤ 4)
  have hrun : (fresh square 4).run.1.outcome =
      .ok ⟨[⟨0, [], true⟩, ⟨1, [⟨"a", false⟩], true⟩], [⟨0, 1, "a"⟩, ⟨1, 0, "a"⟩]⟩ := by cbv
  obtain ⟨⟨e', he', hsame, -⟩, hlive, hlength⟩ := run_cap haccepted (by decide : (4 : Int) ≤ 9)
  exact ⟨haccepted, by decide, ⟨e', he', (hsame _ hrun).1⟩, hlive, _, hrun, hlength _ hrun⟩

end Enumeration

end ToddCoxeter
