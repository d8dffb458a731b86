import ToddCoxeter.Proofs.Enumeration.Correctness
import ToddCoxeter.Proofs.Table.Labels
import ToddCoxeter.Proofs.Table.Renumbering

/-! # Labels name the nodes of a finished run

The rounds of an enumeration make no other changes than calls do, so that what labels tell
(`Table.Labelled`) holds in every table between rounds (`Table.Settled.exists_labelled_steps`).  The label of a
node of the finished graph is therefore a word at that node. -/

namespace ToddCoxeter

namespace Table

variable {p : Presentation} {t t' : Table}

/-- A round completes the first incomplete node and marks it. -/
theorem Settled.exists_completes (h : Settled p t) (hp : p.Valid) (hround : t.round p = .inl t') :
    ∃ i u, Completes p i t u ∧ t' = u.finishRound i (t.row i).label := by
  unfold Table.round at hround
  cases hi : t.pending? with
  | none => simp [hi] at hround
  | some i =>
      have hnode := h.wellFormed.completeNode_yields hp (pending?_eq_some hi).1
      rcases hnode' : t.completeNode p i with ⟨fault | _, v⟩ <;> rw [hnode'] at hnode
      · simp [hi, hnode'] at hround
      · obtain rfl : v = t' := by simpa [hi, hnode'] using hround
        obtain ⟨u, hu, rfl⟩ := hnode
        exact ⟨i, u, hu, rfl⟩

theorem WellFormed.keepsLabels_finishRound (h : t.WellFormed) {i : ℕ} {label : Word} :
    KeepsLabels t (t.finishRound i label) := by
  refine ⟨h.grows_finishRound, congrArg Forest.size forest_finishRound, fun j _ => ?_⟩
  rw [h.row_finishRound]
  split_ifs <;> rfl

/-- Labels stay what they are from round to round. -/
theorem Settled.exists_labelled_steps (h : Settled p t) (hp : p.Valid) {made : List Word}
    (hl : Labelled made t) {n : ℕ} (hn : Loop.steps (Table.round p) n t = .inl t') :
    ∃ made', Labelled made' t' := by
  have hstep : ∀ (k : ℕ) (u u' : Table), (Settled p u ∧ ∃ made, Labelled made u) → u.round p = .inl u' →
      Settled p u' ∧ ∃ made, Labelled made u' := by
    rintro k u u' ⟨hu, made, hl⟩ hround
    have hr := hround ▸ hu.round hp
    obtain ⟨i, v, hv, rfl⟩ := hu.exists_completes hp hround
    obtain ⟨made', -, hl'⟩ := hl.moves hu.wellFormed hv.steps
    have hwf := hu.wellFormed.moves hv.steps
    exact ⟨hr.settled, made', hl'.keepsLabels hwf.finishRound hwf.keepsLabels_finishRound⟩
  rcases Loop.steps_cases hstep (k := 0) ⟨h, made, hl⟩ n with ⟨u, hu, -, hlu⟩ | ⟨m, u, r, hr, -⟩
  · obtain rfl := Sum.inl.inj (hu.symm.trans hn)
    exact hlu
  · exact absurd (hr.symm.trans hn) (by simp)

theorem Settled.allows_of_path (h : Settled p t) {w : Word} {i j : ℕ} (hw : Path t.Leads i w j) :
    p.Allows w := by
  induction w generalizing i with
  | nil => exact Presentation.allows_nil
  | cons x w ih =>
      obtain ⟨k, ⟨e, he, hx, -⟩, hw⟩ := hw
      exact Presentation.allows_cons.2 ⟨hx ▸ h.labels e he, ih hw⟩

end Table

namespace Enumeration

theorem nodeOf_label {p : Presentation} {cap : ℕ} (hp : p.Valid) (hcap : 0 < cap) {g : Graph}
    (hrun : (fresh p cap).run.1.outcome = .ok g) :
    ∀ n ∈ g.nodes, n.label.Reduced ∧ (fresh p cap).run.2.nodeOf n.label = .ok n := by
  obtain ⟨t, c, ⟨ht, -, -, hc, houtcome, htable, hgraph, hdone⟩, hclose, henum⟩ :=
    exists_enumerate_of_outcome_eq_ok hp hcap hrun
  rw [presentation_fresh] at ht hc
  obtain rfl : c.graph = g := Except.ok.inj (houtcome.symm.trans hrun)
  obtain ⟨m, hm⟩ := visits_of_enumerate hp hcap henum
  obtain ⟨made, hl⟩ :=
    (Table.settled_start hcap).exists_labelled_steps hp (Table.labelled_start cap) hm
  have hr := ht.wellFormed.renumbers hclose
  intro n hn
  obtain ⟨i, hi, hni⟩ := hr.exists_getElem?_eq ht.wellFormed hn
  have hpath := hl.path i hi
  rw [← hni.1] at hpath
  refine ⟨hni.1 ▸ hl.reduced _ (List.mem_of_getElem? (hl.label_eq i hi)), ?_⟩
  have hc' : t.ClosedBy p { c with log := #[] } := ⟨hc.length_nodes, hc.id_eq, hc.act_eq⟩
  obtain ⟨n', hn', hni', -⟩ := nodeOf_eq ht hc' htable hgraph hdone (ht.allows_of_path hpath) hpath
  obtain rfl : n' = n := Option.some.inj (hni'.symm.trans hni.2)
  exact hn'

/-- In the course of calls on a new table within the cap, labels spell paths from the first node, are reduced
and belong to one node each.  In a finished graph each node is at its label. -/
theorem label_names_node :
    (∀ (cap : Int) (t₀ : Table) (cs : List Table.Call) (t : Table), Table.withCap cap = .ok t₀ →
      t₀.history cs = some t → t₀.withinCap cs → Table.TellsNodes t₀ cs t) ∧
    ∀ (limit : DigitLimit) (generators : List Datum) (relations : List String) (cap : Int)
      (e : Enumeration) (g : Graph), ofRelations limit generators relations cap = .ok e →
      e.run.1.outcome = .ok g → ∀ n ∈ g.nodes, n.label.Reduced ∧ e.run.2.nodeOf n.label = .ok n := by
  refine ⟨fun _ _ _ _ h₀ hcs hcap => Table.tellsNodes_of_withCap h₀ hcs hcap, fun _ _ _ _ _ _ h hrun => ?_⟩
  obtain ⟨p, hp, hcap, rfl⟩ := exists_fresh_of_ofRelations h
  exact nodeOf_label hp hcap hrun

theorem label_names_node_crowded :
    (∃ t, (Table.start 8).history (Table.crowded ++ [.sweep ["a"]]) = some t ∧ t.ids = [0, 1, 4] ∧
      Table.TellsNodes (.start 8) (Table.crowded ++ [.sweep ["a"]]) t) ∧
    (fresh square 4).run.2.nodeOf [⟨"a", false⟩] = .ok ⟨1, [⟨"a", false⟩], true⟩ := by
  have hids : ((Table.start 8).history (Table.crowded ++ [.sweep ["a"]])).map Table.ids =
      some [0, 1, 4] := by cbv
  have hwithin : (Table.start 8).withinCap (Table.crowded ++ [.sweep ["a"]]) := by cbv
  obtain ⟨t, ht, hids⟩ := Option.map_eq_some_iff.1 hids
  have hrun : (fresh square 4).run.1.outcome =
      .ok ⟨[⟨0, [], true⟩, ⟨1, [⟨"a", false⟩], true⟩], [⟨0, 1, "a"⟩, ⟨1, 0, "a"⟩]⟩ := by cbv
  refine ⟨⟨t, ht, hids, label_names_node.1 8 _ _ t rfl ht hwithin⟩, ?_⟩
  exact (label_names_node.2 none _ _ 4 _ _ (ofRelations_square (by decide : (1 : Int) ≤ 4)) hrun
    ⟨1, [⟨"a", false⟩], true⟩ (by simp)).2

end Enumeration

end ToddCoxeter
