import ToddCoxeter.Proofs.Checked.Run
import ToddCoxeter.Proofs.Enumeration.LoopInvariant

/-! # Every run ends

The loop over the nodes ends because every round makes the table smaller, and the loop over the passes
because every pass but the last drops a node (`Table.WellFormed.exists_steps_pass_eq`).  With the checks
of every access this gives that a run ends in one of two ways (`Enumeration.run_ends`). -/

namespace ToddCoxeter

namespace Table

/-- The passes of the round that starts in `t` begin with `u`: from the node to be completed every letter
has been followed and every relator traced. -/
def ReadyToCollapse (t : Table) (p : Presentation) (u : Table) : Prop :=
  ∃ i v, t.pending? = some i ∧ t.stepAll i p.letters = (.ok (), v) ∧
    v.closeRelators i p.relators = (.ok (), u)

theorem ReadyToCollapse.wellFormed {p : Presentation} {t u : Table} (hready : t.ReadyToCollapse p u)
    (h : t.WellFormed) (hp : p.Valid) : u.WellFormed := by
  obtain ⟨i, v, hi, hall, hclose⟩ := hready
  exact h.moves (h.steps_of_closeRelators hp hi hall (List.prefix_refl p.relators) hclose)

end Table

namespace Enumeration

/-- Over every accepted presentation the loop over the nodes ends, and in each of its rounds the loop over
the passes; no access of the run fails, and the run gives a graph or fails because the cap is passed. -/
theorem run_ends {limit : DigitLimit} {generators : List Datum} {relations : List String} {cap : Int}
    {e : Enumeration} (h : ofRelations limit generators relations cap = .ok e) :
    (∃ n r, Loop.steps (Table.round e.presentation) n e.table = .inr r) ∧
      (∀ t u, e.Visits t → t.ReadyToCollapse e.presentation u →
        ∃ n, Loop.steps (Table.pass e.presentation.generators) n u =
          .inr (u.collapse e.presentation.generators)) ∧
      e.run? = some e.run ∧
      ((∃ g, e.run.1.outcome = .ok g) ∨ e.run.1.outcome = .error (.overflow ⟨cap.toNat⟩)) := by
  obtain ⟨p, hp, hcap, rfl⟩ := exists_fresh_of_ofRelations h
  have hsettled : (Table.start cap.toNat).Settled p := Table.settled_start hcap
  refine ⟨⟨_, hsettled.exists_steps_eq hp⟩, ?_, run?_fresh_eq hp hcap, ?_⟩
  · rintro t u ⟨n, hn⟩ hready
    have ht := (hn ▸ hsettled.steps hp n).1
    exact ((hready.wellFormed ht.wellFormed hp).exists_steps_pass_eq _).imp fun _ hn => hn.2
  · rcases run_cases hp hcap with ⟨t, c, hrun⟩ | ⟨hfail, -⟩
    · exact .inl ⟨c.graph, hrun.outcome_eq⟩
    · exact .inr hfail

theorem run_ends_square :
    (fresh square 2).run? = some (fresh square 2).run ∧
      ((∃ g, (fresh square 2).run.1.outcome = .ok g) ∨
        (fresh square 2).run.1.outcome = .error (.overflow ⟨2⟩)) :=
  (run_ends (ofRelations_square (by decide : (1 : Int) ≤ 2))).2.2

end Enumeration

end ToddCoxeter
