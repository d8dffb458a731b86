import ToddCoxeter.Proofs.Enumeration.Outcome
import ToddCoxeter.Proofs.Enumeration.Recap
import ToddCoxeter.Proofs.Enumeration.Survivors

/-! # The cap and the size of the group

A finished table has as many live nodes as the group has elements, and never more than the cap.  So if the
group is infinite or larger than the cap, a run fails.  If the group is finite, then the enumeration
succeeds with some cap (`Presentation.Valid.exists_succeeds`), for otherwise it would go through a chain of
tables that never ends, each of them with a cap that is large enough for it; and it succeeds with every
larger cap (`Presentation.Succeeds.mono`). -/

namespace ToddCoxeter

namespace Presentation

variable {p : Presentation} {m m' n : ℕ}

/-- With this cap the loop finishes a table. -/
def Succeeds (p : Presentation) (m : ℕ) : Prop :=
  ∃ n t, Loop.steps (Table.round p) n (.start m) = .inr (.ok (), t)

theorem Succeeds.mono (h : p.Succeeds m) (hp : p.Valid) (hm : 0 < m) (hle : m ≤ m') :
    p.Succeeds m' := by
  obtain ⟨n, t, ht⟩ := h
  have hstart : (Table.start m).Settled p := Table.settled_start hm
  exact ⟨n, _, (hstart.steps_recap hp hle).2 t ht⟩

theorem Valid.steps_recap (hp : p.Valid) (hm : 0 < m) (hle : m ≤ m') {t : Table}
    (ht : Loop.steps (Table.round p) n (.start m) = .inl t) :
    Loop.steps (Table.round p) n (.start m') = .inl (t.recap m') ∧ (t.recap m').Settled p := by
  have hstart : (Table.start m).Settled p := Table.settled_start hm
  have hstart' : (Table.start m').Settled p := Table.settled_start (hm.trans_le hle)
  have ht' : Loop.steps (Table.round p) n (.start m') = .inl (t.recap m') :=
    (hstart.steps_recap hp hle).1 t ht
  exact ⟨ht', (ht' ▸ hstart'.steps hp n).1⟩

/-- If the loop never finishes a table, then every number of rounds is gone through with some cap. -/
theorem Valid.exists_steps_eq (hp : p.Valid) (hno : ∀ m, 0 < m → ¬ p.Succeeds m) (n : ℕ) :
    ∃ m t, 0 < m ∧ Loop.steps (Table.round p) n (.start m) = .inl t := by
  induction n with
  | zero => exact ⟨1, .start 1, Nat.one_pos, rfl⟩
  | succ n ih =>
      obtain ⟨m, t, hm, ht⟩ := ih
      have hle : m ≤ max m (t.live + p.roundLength) := Nat.le_max_left _ _
      have hroom : t.live + p.roundLength ≤ max m (t.live + p.roundLength) := Nat.le_max_right _ _
      generalize max m (t.live + p.roundLength) = m' at hle hroom
      have hm' := hm.trans_le hle
      obtain ⟨ht', hs⟩ := hp.steps_recap hm hle ht
      have hsteps := Loop.steps_succ_of_eq ht'
      have hround := hs.round hp
      rcases hu : (t.recap m').round p with u | ⟨fault | _, u⟩ <;> rw [hu] at hround hsteps
      · exact ⟨m', u, hm', hsteps⟩
      · exact absurd hround.2 (Nat.not_lt.2 hroom)
      · exact absurd ⟨n + 1, u, hsteps⟩ (hno m' hm')

/-- If the loop never finishes a table, then it goes through a chain of tables that never ends. -/
theorem Valid.exists_chain (hp : p.Valid) (hno : ∀ m, 0 < m → ¬ p.Succeeds m) :
    ∃ T, Table.Chain p T := by
  choose m T hm hT using hp.exists_steps_eq hno
  have hrounds : ∀ n, ∃ c, ((T n).recap c).Rounds p ((T (n + 1)).recap c) := by
    intro n
    refine ⟨max (m n) (m (n + 1)), ?_⟩
    obtain ⟨hn, hs⟩ := hp.steps_recap (hm n) (Nat.le_max_left _ (m (n + 1))) (hT n)
    obtain ⟨hn', -⟩ := hp.steps_recap (hm (n + 1)) (Nat.le_max_right (m n) _) (hT (n + 1))
    have hround := hs.round hp
    rw [← Loop.steps_succ_of_eq hn, hn'] at hround
    exact hround
  refine ⟨T, fun n => ?_, fun n => ?_, fun n => ?_⟩
  · have hstart : (Table.start (m n)).Settled p := Table.settled_start (hm n)
    exact (hT n ▸ hstart.steps hp n).1
  · obtain ⟨c, hc⟩ := hrounds n
    exact ⟨hc.grows.size_le, hc.grows.mem_edges, hc.grows.root_root, hc.grows.contains,
      hc.grows.complete⟩
  · obtain ⟨c, hc⟩ := hrounds n
    exact hc.pending

/-- If the group is finite, then the loop finishes a table with some cap. -/
theorem Valid.exists_succeeds (hp : p.Valid) (hfin : Finite p.Element) :
    ∃ m, 0 < m ∧ p.Succeeds m := by
  by_contra hno
  push Not at hno
  obtain ⟨T, hT⟩ := hp.exists_chain hno
  exact hT.infinite_element hp hfin

end Presentation

namespace Enumeration

theorem exists_runsTo_of_succeeds {p : Presentation} {m : ℕ} (hp : p.Valid) (hm : 0 < m)
    (h : p.Succeeds m) : ∃ t c, (fresh p m).RunsTo t c := by
  obtain ⟨n, t, ht⟩ := h
  have hstart : (Table.start m).Settled p := Table.settled_start hm
  obtain ⟨hs, hcap, hnone⟩ := ht ▸ hstart.steps hp n
  exact ⟨t, exists_runsTo ((hstart.enumerate_eq_ok_iff hp).2 ⟨n, ht⟩) hs hcap hnone⟩

/-- A run over a group that is infinite or larger than the cap fails because the cap is passed.  A run over
a finite group gives a graph if the cap is large enough. -/
theorem run_verdict {limit : DigitLimit} {generators : List Datum} {relations : List String}
    {cap : Int} {e : Enumeration} (h : ofRelations limit generators relations cap = .ok e) :
    (¬ Finite e.presentation.Element ∨ cap < Nat.card e.presentation.Element →
        e.run.1.outcome = .error (.overflow ⟨cap.toNat⟩)) ∧
      (Finite e.presentation.Element → ∃ m₀ : Int, ∀ m ≥ m₀,
        ∃ e', ofRelations limit generators relations m = .ok e' ∧ ∃ g, e'.run.1.outcome = .ok g) := by
  have haccepted := fun m => ofRelations_of_one_le (m := m) h
  obtain ⟨p, hp, hcap, rfl⟩ := exists_fresh_of_ofRelations h
  refine ⟨fun hlarge => ?_, fun hfin => ?_⟩
  · refine ((run_cases hp hcap).resolve_left ?_).1
    rintro ⟨t, c, hrun⟩
    obtain ⟨hfin, hle⟩ := hrun.card_le hp
    rcases hlarge with hinf | hlt
    · exact hinf hfin
    · rw [presentation_fresh] at hlt
      omega
  · obtain ⟨m₀, hm₀, hsucceeds⟩ := hp.exists_succeeds hfin
    refine ⟨m₀, fun m hm => ⟨_, haccepted m (by omega), ?_⟩⟩
    obtain ⟨t, c, hrun⟩ := exists_runsTo_of_succeeds hp (by omega)
      (hsucceeds.mono hp hm₀ (show m₀ ≤ m.toNat by omega))
    exact ⟨c.graph, hrun.outcome_eq⟩

theorem run_verdict_square :
    (fresh square 1).run.1.outcome = .error (.overflow ⟨1⟩) ∧
      ∃ m₀ : Int, ∀ m ≥ m₀, ∃ e, ofRelations none [.text "a"] ["a^2"] m = .ok e ∧
        ∃ g, e.run.1.outcome = .ok g := by
  have haccepted : ofRelations none [.text "a"] ["a^2"] 1 = .ok (fresh square 1) :=
    ofRelations_square (by decide : (1 : Int) ≤ 1)
  obtain ⟨p, hp, -, heq⟩ := exists_fresh_of_ofRelations haccepted
  obtain rfl : square = p := congrArg presentation heq
  have hrun : (fresh square 4).run.1.outcome =
      .ok ⟨[⟨0, [], true⟩, ⟨1, [⟨"a", false⟩], true⟩], [⟨0, 1, "a"⟩, ⟨1, 0, "a"⟩]⟩ := by cbv
  obtain ⟨t, c, hruns⟩ := exists_runsTo_of_outcome_eq_ok hp (by decide : 0 < 4) hrun
  obtain ⟨hfin, hcard⟩ := hruns.settled.card_element hruns.pending?_eq hp
  have hgraph := Except.ok.inj (hruns.outcome_eq.symm.trans hrun)
  have hlive : t.live = 2 := by
    rw [← hruns.closedBy.length_nodes]
    exact congrArg (·.nodes.length) hgraph
  have hlarge : (1 : Int) < Nat.card square.Element := by
    rw [show Nat.card square.Element = 2 from hcard.trans hlive]
    decide
  exact ⟨(run_verdict haccepted).1 (.inr hlarge), (run_verdict haccepted).2 hfin⟩

end Enumeration

end ToddCoxeter
