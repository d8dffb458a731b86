import Mathlib
import ToddCoxeter.Proofs.Table.Calls

/-! # Closing a table renumbers its nodes

A table may have gaps among the numbers of its live nodes, and where letters lead from them is found by
looking up the ends of edges in the forest.  The closed table has numbers without gaps and columns instead of
edges at the nodes.  Both say the same (`Table.Renumbers`): the place of a live node among the live nodes is
its number in the closed table, where it has its word and its mark of completeness, smaller nodes have smaller
numbers, and letters and words act on the places of nodes as they lead from node to node. -/

namespace ToddCoxeter.Table

variable {t c : Table} {gens : List String} {g : Graph}

/-! ### The nodes of the closed table -/

theorem row_renumber {k : ℕ} (hk : k < t.bareRows.length) : t.renumber.row k = t.bareRows[k] := by
  have hnodup : ((t.bareRows.zipIdx.map fun entry => (entry.2, entry.1)).map Prod.fst).Nodup :=
    t.map_fst_zipIdx_bareRows ▸ List.nodup_range
  have hmem : (k, t.bareRows[k]) ∈ t.bareRows.zipIdx.map fun entry => (entry.2, entry.1) :=
    List.mem_map.2 ⟨(t.bareRows[k], k),
      List.mem_zipIdx_iff_getElem?.2 (List.getElem?_eq_getElem hk), rfl⟩
  exact Register.getD_ofList hnodup hmem _

theorem exists_row_of_close (hclose : t.close gens = (.ok g, c)) {k : ℕ} (hk : c.contains k) :
    ∃ i, t.contains i ∧ c.row k = { label := (t.row i).label, complete := (t.row i).complete } := by
  obtain ⟨f, columns, -, rfl⟩ := exists_renumber_of_close hclose
  have hlive : k < t.live := by
    rwa [contains_iff_mem_ids, ids_renumber, List.mem_range] at hk
  have hids : k < t.ids.length := t.length_ids.symm ▸ hlive
  have hrow : k < t.bareRows.length := t.length_bareRows.symm ▸ hlive
  refine ⟨t.ids[k], contains_iff_mem_ids.2 (List.getElem_mem hids), (row_renumber hrow).trans ?_⟩
  simp [bareRows_eq, row]

/-- No letter leads anywhere along the edges of the closed table: it has none at its nodes. -/
theorem neighbours_of_close (hclose : t.close gens = (.ok g, c)) (i : ℕ) (x : Letter) :
    (c.neighbours i x).1 = [] := by
  have hends : (c.row (c.root i)).farEnds x = [] := by
    by_cases hi : c.contains (c.root i)
    · obtain ⟨j, -, hrow⟩ := exists_row_of_close hclose hi
      simp [hrow, Row.farEnds]
    · rw [row, Register.getD_of_not_contains hi]
      simp [Row.farEnds]
  rw [fst_neighbours, hends, List.map_nil, List.eraseDups_nil]

theorem WellFormed.nodes_renumber_eq (h : t.WellFormed) :
    t.renumber.nodes = t.nodes.map fun n => { n with id := t.ids.idxOf n.id } := by
  have hroot : ∀ k, t.renumber.root k = k := Forest.root_discrete _
  refine List.ext_getElem (by simp [nodes, ids_renumber, length_ids]) fun k hk _ => ?_
  have hlive : k < t.live := by simpa [nodes, ids_renumber] using hk
  have hids : k < t.ids.length := t.length_ids.symm ▸ hlive
  have hrow : k < t.bareRows.length := t.length_bareRows.symm ▸ hlive
  have hold : t.root t.ids[k] = t.ids[k] :=
    h.root_of_contains (contains_iff_mem_ids.2 (List.getElem_mem hids))
  simp only [nodes, ids_renumber, List.getElem_map, List.getElem_range, node, hroot, hold,
    row_renumber hrow, t.nodup_ids.idxOf_getElem k hids]
  simp [bareRows_eq]

theorem map_idxOf_ids (t : Table) : t.ids.map t.ids.idxOf = List.range t.ids.length :=
  List.ext_getElem (by simp) fun k hk _ => by
    simpa using t.nodup_ids.idxOf_getElem k (by simpa using hk)

/-- What a closed table has of the table that was closed: the nodes, the first of parallel edges, and the
columns of the generators, which led from each live node to one node. -/
theorem WellFormed.exists_next_of_close (h : t.WellFormed) (hclose : t.close gens = (.ok g, c)) :
    ∃ next : ℕ → Letter → ℕ,
      (∀ a ∈ gens, ∀ i ∈ t.ids, (t.neighbours i ⟨a, false⟩).1 = [next i ⟨a, false⟩]) ∧
      c.closed = true ∧ c.graph = g ∧
      c.nodes = (t.nodes.map fun n => { n with id := t.ids.idxOf n.id }) ∧
      c.edges.toList = t.liveEdges.map (Edge.map t.ids.idxOf) ∧
      ∀ a ∈ gens, c.columns.lookup a = some (t.places next a).toArray := by
  obtain ⟨hopen, next, hnext⟩ := Table.exists_next_of_close hclose
  obtain ⟨f, columns, hf, hcolumns, heq⟩ := close_eq next hopen hnext
  obtain ⟨rfl, rfl⟩ : _ = g ∧ _ = c := by simpa using heq.symm.trans hclose
  -- The table is reshaped and given its columns before it is renumbered.
  have hwf : { t with forest := f, columns }.WellFormed :=
    (h.reshaped ⟨f, hf, rfl⟩).of_eq rfl rfl rfl
  have hroot : { t with forest := f, columns }.root = t.root := funext hf.root_eq
  have hnodes : { t with forest := f, columns }.nodes = t.nodes :=
    List.map_congr_left fun i _ => by simp only [node, hroot]; rfl
  have hedges : { t with forest := f, columns }.liveEdges = t.liveEdges := by
    simp only [liveEdges, hroot]
  refine ⟨next, hnext, rfl, rfl, ?_, ?_, fun a ha => ?_⟩
  · rw [← hnodes]
    exact hwf.nodes_renumber_eq
  · rw [← hedges]
    rfl
  · show columns.lookup a = _
    rw [hcolumns, lookup_setEntries, if_pos ha]

/-! ### How letters and words act -/

/-- The letter leads from each live node to one node. -/
def Total (t : Table) (x : Letter) : Prop := ∀ i, t.contains i → ∃ j, (t.neighbours i x).1 = [j]

/-- `g` and `c` are the graph and the table that come of renumbering the live nodes of `t` without gaps. -/
structure Renumbers (gens : List String) (t : Table) (g : Graph) (c : Table) : Prop where
  /-- The live nodes are listed in increasing order. -/
  sorted : (t.nodes.map Node.id).Pairwise (· < ·)
  mem_nodes : ∀ i, i ∈ t.nodes.map Node.id ↔ t.contains i
  /-- The nodes of the graph are the live nodes in this order, with their words and marks. -/
  nodes_eq : g.nodes = t.nodes.map fun n => { n with id := t.ids.idxOf n.id }
  /-- Their numbers have no gaps. -/
  ids_eq : g.nodes.map Node.id = List.range g.nodes.length
  /-- Smaller nodes get smaller numbers. -/
  lt_iff : ∀ i j, t.contains i → t.contains j → (t.ids.idxOf i < t.ids.idxOf j ↔ i < j)
  /-- The first node stays the first. -/
  zero : t.ids.idxOf 0 = 0
  /-- The table has the nodes and edges of the graph. -/
  graph_eq : c.graph = g
  /-- A generator acts as it led. -/
  act_forward : ∀ i, t.contains i → ∀ a ∈ gens, ∃ j, (t.neighbours i ⟨a, false⟩).1 = [j] ∧
    c.act (t.ids.idxOf i) ⟨a, false⟩ = .ok (t.ids.idxOf j)
  /-- Against its direction a generator acts as it led, on nodes from which it led to one node. -/
  act_backward : ∀ i, t.contains i → ∀ a ∈ gens, ∀ j, (t.neighbours i ⟨a, true⟩).1 = [j] →
    c.act (t.ids.idxOf i) ⟨a, true⟩ = .ok (t.ids.idxOf j)
  /-- A word acts as it led, when its letters led from each node to one; tracing it defined nothing. -/
  actWord : ∀ w : Word, (∀ x ∈ w, x.gen ∈ gens) → (∀ x ∈ w, x.inverted → t.Total x) →
    ∀ i, t.contains i → ∃ j u, t.trace i w = (.ok j, u) ∧ t.contains j ∧
      u.forest.size = t.forest.size ∧ u.ids = t.ids ∧ u.edges = t.edges ∧
      c.actWord (t.ids.idxOf i) w = .ok (t.ids.idxOf j)

theorem Renumbers.exists_getElem?_eq (hr : t.Renumbers gens g c) (h : t.WellFormed) {n : Node}
    (hn : n ∈ g.nodes) :
    ∃ i, t.contains i ∧ n.label = (t.row i).label ∧ g.nodes[t.ids.idxOf i]? = some n := by
  rw [hr.nodes_eq, nodes, List.map_map] at hn ⊢
  obtain ⟨i, hi, rfl⟩ := List.mem_map.1 hn
  have hroot := h.root_of_contains (contains_iff_mem_ids.2 hi)
  refine ⟨i, contains_iff_mem_ids.2 hi, by simp only [Function.comp_apply, node, hroot], ?_⟩
  rw [List.getElem?_map, List.getElem?_eq_getElem (List.idxOf_lt_length_of_mem hi), List.getElem_idxOf]
  rfl

section act

variable {next : ℕ → Letter → ℕ} {a : String} {i j : ℕ}

theorem act_forward (hclosed : c.closed = true)
    (hcolumn : c.columns.lookup a = some (t.places next a).toArray) (hi : t.contains i) :
    c.act (t.ids.idxOf i) ⟨a, false⟩ = .ok (t.ids.idxOf (next i ⟨a, false⟩)) := by
  have hlt := List.idxOf_lt_length_of_mem (contains_iff_mem_ids.1 hi)
  rw [act_eq_getElem hclosed hcolumn (by simpa [places] using hlt)]
  simp [places]

theorem WellFormed.act_backward (h : t.WellFormed) (hclosed : c.closed = true)
    (hnext : ∀ i ∈ t.ids, (t.neighbours i ⟨a, false⟩).1 = [next i ⟨a, false⟩])
    (hcolumn : c.columns.lookup a = some (t.places next a).toArray) (hi : t.contains i)
    (hj : (t.neighbours i ⟨a, true⟩).1 = [j]) :
    c.act (t.ids.idxOf i) ⟨a, true⟩ = .ok (t.ids.idxOf j) := by
  have hback : ∀ k, t.Leads i ⟨a, true⟩ k ↔ k = j := fun k => h.leads_iff_of_neighbours_eq hi hj
  have hlive := (h.contains_of_leads ((hback j).2 rfl)).2
  have hfind := findIdx?_places (f := (next · ⟨a, false⟩)) t.nodup_ids (contains_iff_mem_ids.1 hi)
    (contains_iff_mem_ids.1 hlive) fun k hk => by
      rw [@eq_comm _ j k, ← hback k, ← leads_inverse]
      exact ((h.leads_iff_of_neighbours_eq (contains_iff_mem_ids.2 hk) (hnext k hk)).trans eq_comm).symm
  simp only [act, hclosed, hcolumn, if_true]
  unfold places
  rw [hfind]
  rfl

end act

theorem WellFormed.exists_path_actWord (h : t.WellFormed) {w : Word}
    (hw : ∀ x ∈ w, ∀ i, t.contains i → ∃ j, (t.neighbours i x).1 = [j] ∧
      c.act (t.ids.idxOf i) x = .ok (t.ids.idxOf j)) {i : ℕ} (hi : t.contains i) :
    ∃ j, Path t.Leads i w j ∧ c.actWord (t.ids.idxOf i) w = .ok (t.ids.idxOf j) := by
  induction w generalizing i with
  | nil => exact ⟨i, rfl, rfl⟩
  | cons x w ih =>
      obtain ⟨hx, hw⟩ := List.forall_mem_cons.1 hw
      obtain ⟨k, hk, hact⟩ := hx i hi
      have hlead := (h.leads_iff_of_neighbours_eq hi hk).2 rfl
      obtain ⟨j, hpath, hrest⟩ := ih hw (h.contains_of_leads hlead).2
      refine ⟨j, ⟨k, hlead, hpath⟩, ?_⟩
      unfold actWord
      rw [hact]
      exact hrest

theorem WellFormed.renumbers (h : t.WellFormed) (hclose : t.close gens = (.ok g, c)) :
    t.Renumbers gens g c := by
  obtain ⟨next, hnext, hclosed, rfl, hnodes, -, hcolumn⟩ := h.exists_next_of_close hclose
  have hforward : ∀ i, t.contains i → ∀ a ∈ gens, ∃ j, (t.neighbours i ⟨a, false⟩).1 = [j] ∧
      c.act (t.ids.idxOf i) ⟨a, false⟩ = .ok (t.ids.idxOf j) := fun i hi a ha =>
    ⟨_, hnext a ha i (contains_iff_mem_ids.1 hi), act_forward hclosed (hcolumn a ha) hi⟩
  have hbackward : ∀ i, t.contains i → ∀ a ∈ gens, ∀ j, (t.neighbours i ⟨a, true⟩).1 = [j] →
      c.act (t.ids.idxOf i) ⟨a, true⟩ = .ok (t.ids.idxOf j) := fun i hi a ha j hj =>
    h.act_backward hclosed (hnext a ha) (hcolumn a ha) hi hj
  refine ⟨h.map_id_nodes ▸ h.sorted_ids, fun i => ?_, hnodes, ?_, fun i j => h.idxOf_lt_idxOf,
    h.idxOf_zero_ids, rfl, hforward, hbackward, fun w hw htotal i hi => ?_⟩
  · rw [h.map_id_nodes, contains_iff_mem_ids]
  · have hids : c.nodes.map Node.id = t.ids.map t.ids.idxOf := by
      rw [hnodes, List.map_map, ← h.map_id_nodes, List.map_map]
      rfl
    have hlength : c.nodes.length = t.ids.length := by simpa using congrArg List.length hids
    exact hids.trans (hlength ▸ t.map_idxOf_ids)
  · have hact : ∀ x ∈ w, ∀ i, t.contains i → ∃ j, (t.neighbours i x).1 = [j] ∧
        c.act (t.ids.idxOf i) x = .ok (t.ids.idxOf j) := by
      rintro ⟨a, inverted⟩ hx i hi
      cases inverted with
      | false => exact hforward i hi a (hw _ hx)
      | true =>
          obtain ⟨j, hj⟩ := htotal _ hx rfl i hi
          exact ⟨j, hj, hbackward i hi a (hw _ hx) j hj⟩
    have huniq : ∀ x ∈ w, ∀ i j k, t.Leads i x j → t.Leads i x k → j = k := by
      intro x hx i j k hj hk
      have hi := (h.contains_of_leads hj).1
      obtain ⟨m, hm, -⟩ := hact x hx i hi
      have hiff : ∀ n, t.Leads i x n ↔ n = m := fun n => h.leads_iff_of_neighbours_eq hi hm
      exact ((hiff j).1 hj).trans ((hiff k).1 hk).symm
    obtain ⟨j, hpath, hactWord⟩ := h.exists_path_actWord hact hi
    obtain ⟨u, htrace, hu⟩ := h.trace_of_path hi huniq hpath
    refine ⟨j, u, htrace, h.contains_of_path hi hpath, hu.size_eq, ?_, hu.edges_eq, hactWord⟩
    rw [ids, hu.rows_eq, ids]

/-- Closing a table that calls on a new table lead to renumbers its live nodes, in the old order and with
their words and marks, and letters and words act on the new numbers as they led from node to node. -/
theorem Reachable.renumbers_of_close (h : t.Reachable) (hclose : t.close gens = (.ok g, c)) :
    t.Renumbers gens g c := h.wellFormed.renumbers hclose

/-- Calls that leave the nodes 0, 1 and 3 alive, of which the letter `a` permutes the first two. -/
def gapped : List Call :=
  [.step 0 ⟨"a", false⟩, .step 0 ⟨"a", true⟩, .identify 1 2, .step 0 ⟨"b", false⟩, .step 3 ⟨"a", false⟩,
    .identify 3 4]

theorem renumbers_of_close_gapped :
    ∃ t g c, (start 8).history gapped = some t ∧ t.ids = [0, 1, 3] ∧ t.close ["a"] = (.ok g, c) ∧
      g.nodes = [⟨0, [], false⟩, ⟨1, [⟨"a", false⟩], false⟩, ⟨2, [⟨"b", false⟩], false⟩] ∧
      t.Renumbers ["a"] g c ∧ c.act 2 ⟨"a", true⟩ = .ok 2 := by
  have hclose : ((start 8).history gapped).map (fun t =>
      (t.ids, (t.neighbours 3 ⟨"a", true⟩).1, (t.close ["a"]).1.toOption.map Graph.nodes)) =
        some ([0, 1, 3], [3],
          some [⟨0, [], false⟩, ⟨1, [⟨"a", false⟩], false⟩, ⟨2, [⟨"b", false⟩], false⟩]) := by cbv
  obtain ⟨t, ht, heq⟩ := Option.map_eq_some_iff.1 hclose
  obtain ⟨hids, hback, hnodes⟩ : t.ids = [0, 1, 3] ∧ _ ∧ _ := by simpa only [Prod.mk.injEq] using heq
  rcases hc : t.close ["a"] with ⟨fault | g, c⟩ <;> rw [hc] at hnodes
  · simp [Except.toOption] at hnodes
  have hr := Reachable.renumbers_of_close ⟨8, start 8, gapped, rfl, ht⟩ hc
  refine ⟨t, g, c, ht, hids, hc, Option.some.inj hnodes, hr, ?_⟩
  have hact := hr.act_backward 3 (contains_iff_mem_ids.2 (by simp [hids])) "a" (by simp) 3 hback
  rwa [hids] at hact

end ToddCoxeter.Table
