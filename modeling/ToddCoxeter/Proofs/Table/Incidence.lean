import ToddCoxeter.Proofs.Lists
import ToddCoxeter.Proofs.Table.Calls

/-! # Edges at the nodes of a table

A table keeps each edge in three places: in the list of all edges, among the outgoing edges of one row and
among the incoming edges of another.  The ends of edges are never rewritten, and when a node is absorbed,
only its own row is merged.  Still the three places agree, with the number of times that an edge stands in
them (`Table.Indexed`): whatever calls were made, a row has exactly the edges of the list that begin or end
at its node (`Table.WellFormed.indexed_change`).  Therefore the neighbours of a node are what the edges say
(`Table.Incidence`), and a step finds them (`Table.StepsAlongEdges`). -/

namespace ToddCoxeter.Table

/-- In the rows of live nodes stand the edges of the list that begin or end there, each as often. -/
def Indexed (t : Table) : Prop :=
  ∀ i, t.contains i → ∀ b, ((t.row i).side b).Perm (t.edges.toList.filter fun e => t.root (e.side b) = i)

variable {J : Table → ℕ → ℕ → Prop} {t t' : Table} {i : ℕ}

theorem indexed_start (cap : ℕ) : (start cap).Indexed := by
  intro i _ b
  rw [row_start]
  cases b <;> exact .refl []

theorem WellFormed.indexed_addNode (h : t.WellFormed) (ht : t.Indexed) (label : Word) :
    (t.addNode label).Indexed := by
  intro i hi b
  simp only [row_addNode, root_addNode]
  split_ifs with hn
  · -- No edge has an end at a node that has just been made.
    have hno : ∀ e ∈ t.edges.toList, t.root (e.side b) ≠ i := by
      intro e he heq
      have hlt : t.root (e.side b) < t.forest.size :=
        Forest.root_lt_size (h.side_lt e (Array.mem_toList_iff.1 he) b)
      omega
    show List.Perm _ (t.edges.toList.filter _)
    rw [List.filter_eq_nil_iff.2 fun e he => by simpa using hno e he]
    cases b <;> exact .refl []
  · exact ht i (((t.contains_addNode label).1 hi).resolve_left hn) b

theorem WellFormed.indexed_addEdge (h : t.WellFormed) (ht : t.Indexed) {e : Edge ℕ}
    (hs : t.contains e.source) (hr : t.contains e.target) : (t.addEdge e).Indexed := by
  intro i hi b
  have hroot : t.root (e.side b) = e.side b := by
    cases b
    · exact h.root_of_contains hs
    · exact h.root_of_contains hr
  rw [contains_addEdge] at hi
  rw [side_row_addEdge hs hr]
  show List.Perm _ ((t.edges.push e).toList.filter fun e' => t.root (e'.side b) = i)
  rw [Array.toList_push, List.filter_append]
  refine (ht i hi b).append ?_
  rw [List.filter_singleton, hroot]
  by_cases hib : e.side b = i <;> simp [hib]

theorem WellFormed.indexed_absorb (h : t.WellFormed) (ht : t.Indexed) {a b : ℕ} (ha : t.contains a)
    (hb : t.contains b) (hab : a < b) : (t.absorb a b).Indexed := by
  intro i hi s
  obtain ⟨hib, hi⟩ := contains_absorb.1 hi
  have hroot := h.root_absorb ha hb hab
  simp only [row_absorb ha hab.ne hib, hroot]
  show List.Perm _ (t.edges.toList.filter _)
  split_ifs with hai
  · subst hai
    rw [side_absorb]
    refine ((ht a ha s).append (ht b hb s)).trans ((filter_append_filter_perm _ ?_).trans ?_)
    · intro e he
      simp only [decide_eq_true_eq] at he
      simpa [he] using hab.ne
    · refine List.Perm.of_eq (List.filter_congr fun e _ => ?_)
      by_cases heb : t.root (e.side s) = b <;> simp [heb, hab.ne']
  · refine (ht i hi s).trans (List.Perm.of_eq (List.filter_congr fun e _ => ?_))
    by_cases heb : t.root (e.side s) = b
    · simp [heb, hai, Ne.symm hib]
    · simp [heb]

theorem WellFormed.indexed_change (h : t.WellFormed) (hc : Change J t t') (ht : t.Indexed) :
    t'.Indexed := by
  cases hc with
  | move hm =>
      cases hm with
      | reshape hr =>
          intro i hi b
          rw [hr.contains_eq] at hi
          simp only [hr.row_eq, hr.edges_eq, hr.root_eq]
          exact ht i hi b
      | attach _ hi =>
          exact (h.addNode _).indexed_addEdge (h.indexed_addNode ht _)
            (contains_side_along hi _ false) (contains_side_along hi _ true)
      | absorb ha hb hab => exact h.indexed_absorb ht ha hb hab
  | spare label => exact h.indexed_addNode ht label
  | mark hk =>
      intro i hi b
      rw [contains_markComplete] at hi
      rw [h.side_markComplete hk]
      exact ht i hi b
  | columns => exact ht

theorem Reachable.indexed (h : t.Reachable) : t.Indexed := by
  obtain ⟨cap, t₀, cs, h₀, hcs⟩ := h
  obtain ⟨rfl, -⟩ := withCap_eq_ok h₀
  have hstart := wellFormed_start cap.toNat
  exact ((hstart.changes_history hcs).invariant (q := Indexed)
    (fun _ _ hu hc => hu.indexed_change hc) hstart (indexed_start _)).2

/-! ### Neighbours and steps -/

/-- The rows and the neighbours of nodes agree with the list of edges. -/
structure Incidence (t : Table) : Prop where
  /-- The outgoing edges of a row are the edges that begin at its node. -/
  outgoing : ∀ i, t.contains i →
    (t.row i).outgoing.Perm (t.edges.toList.filter fun e => t.root e.source = i)
  /-- The incoming edges of a row are the edges that end at its node. -/
  incoming : ∀ i, t.contains i →
    (t.row i).incoming.Perm (t.edges.toList.filter fun e => t.root e.target = i)
  /-- Each neighbour is listed once. -/
  nodup : ∀ i x, (t.neighbours i x).1.Nodup
  /-- Neighbours are alive. -/
  contains : ∀ i < t.forest.size, ∀ x, ∀ j ∈ (t.neighbours i x).1, t.contains j
  /-- A generator leads to the ends of the edges that begin at the node. -/
  mem_forward : ∀ i < t.forest.size, ∀ g j, j ∈ (t.neighbours i ⟨g, false⟩).1 ↔
    ∃ e ∈ t.edges, e.label = g ∧ t.root e.source = t.root i ∧ t.root e.target = j
  /-- The inverse of a generator leads to the beginnings of the edges that end at the node. -/
  mem_backward : ∀ i < t.forest.size, ∀ g j, j ∈ (t.neighbours i ⟨g, true⟩).1 ↔
    ∃ e ∈ t.edges, e.label = g ∧ t.root e.target = t.root i ∧ t.root e.source = j
  /-- If a letter leads from one node to another, its inverse leads back. -/
  mem_inverse : ∀ i j, t.contains i → t.contains j → ∀ x,
    j ∈ (t.neighbours i x).1 ↔ i ∈ (t.neighbours j x.inverse).1

theorem WellFormed.incidence (h : t.WellFormed) (ht : t.Indexed) : t.Incidence := by
  refine ⟨fun i hi => ht i hi false, fun i hi => ht i hi true, t.nodup_neighbours,
    fun i hi x j hj => ?_, fun i hi g j => h.mem_neighbours hi _, fun i hi g j => h.mem_neighbours hi _,
    fun i j hi hj x => ?_⟩
  · exact (h.contains_of_leads ((h.mem_neighbours hi x).1 hj)).2
  · rw [h.mem_neighbours (h.lt_of_contains hi), h.mem_neighbours (h.lt_of_contains hj),
      h.root_of_contains hi, h.root_of_contains hj, leads_inverse]

/-- A step leads to a neighbour, and defines one only where there is none. -/
structure StepsAlongEdges (t : Table) : Prop where
  /-- The node to which a step leads is a neighbour. -/
  mem_neighbours : ∀ i < t.forest.size, ∀ x j u, t.step i x = (.ok j, u) → j ∈ (u.neighbours i x).1
  /-- Where there is a neighbour, a step leads to one that is there and makes neither node nor edge. -/
  of_neighbour : ∀ i < t.forest.size, ∀ x, (t.neighbours i x).1 ≠ [] → ∃ j u,
    t.step i x = (.ok j, u) ∧ j ∈ (t.neighbours i x).1 ∧ u.forest.size = t.forest.size ∧
      u.ids = t.ids ∧ u.edges = t.edges
  /-- Where there is none, a step leads to a new node, or fails if the cap does not allow one. -/
  of_no_neighbour : ∀ i < t.forest.size, ∀ x, (t.neighbours i x).1 = [] →
    if t.live < t.cap then
      ∃ u, t.step i x = (.ok t.forest.size, u) ∧ u.forest.size = t.forest.size + 1 ∧
        u.edges = t.edges.push (.along (t.root i) x t.forest.size)
    else ∃ u, t.step i x = (.error ⟨t.cap⟩, u) ∧ u.edges = t.edges

theorem WellFormed.stepsAlongEdges (h : t.WellFormed) : t.StepsAlongEdges := by
  refine ⟨fun i hi x j u hstep => ?_, fun i hi x hne => ?_, fun i hi x hnil => ?_⟩
  · have hyields := h.step_yields (L := fun _ => True) (J := fun _ _ _ => False) hi (x := x) trivial
    rw [hstep] at hyields
    have hiu := (h.grows_moves hyields.1).lt_size hi
    exact ((h.moves hyields.1).mem_neighbours hiu x).2 hyields.2.2
  · rcases h.step_cases hi x with ⟨j, u, heq, hr, hj⟩ | ⟨hno, -⟩
    · refine ⟨j, u, heq, (h.mem_neighbours hi x).2 hj, hr.size_eq, ?_, hr.edges_eq⟩
      rw [ids, hr.rows_eq, ids]
    · obtain ⟨j, hj⟩ := List.exists_mem_of_ne_nil _ hne
      exact absurd ((h.mem_neighbours hi x).1 hj) (hno j)
  · rcases h.step_cases hi x with ⟨j, u, -, -, hj⟩ | ⟨-, u, hr, heq⟩
    · rw [← h.mem_neighbours hi, hnil] at hj
      exact absurd hj (by simp)
    · have hlive := (h.reshaped hr).live_addNode ((u.row (t.root i)).label ++ [x])
      rw [heq, define_eq, hlive, hr.live_eq, hr.cap_eq, hr.size_eq]
      by_cases hcap : t.live < t.cap
      · rw [if_pos hcap, if_neg (by omega)]
        refine ⟨_, rfl, ?_, ?_⟩
        · rw [size_attach, hr.size_eq]
        · rw [← hr.size_eq, ← hr.edges_eq]
          rfl
      · rw [if_neg hcap, if_pos (by omega)]
        exact ⟨_, rfl, hr.edges_eq⟩

/-- Whatever calls were made on a new table, in its rows stand the edges of the list, neighbours are what
the edges say, steps lead to neighbours, and no later call removes an edge. -/
theorem Reachable.agrees_with_edges (h : t.Reachable) :
    t.Incidence ∧ t.StepsAlongEdges ∧
      ∀ cs u, t.history cs = some u → t.edges.toList <+: u.edges.toList :=
  ⟨h.wellFormed.incidence h.indexed, h.wellFormed.stepsAlongEdges,
    fun _ _ hcs => (h.wellFormed.changes_history hcs).edges_isPrefix⟩

theorem agrees_with_edges_crowded :
    ∃ t, (start 4).history crowded = some t ∧ (t.neighbours 2 ⟨"a", false⟩).1 = [1, 3] ∧
      t.Incidence ∧ t.StepsAlongEdges := by
  have hends : ((start 4).history crowded).map (fun t => (t.neighbours 2 ⟨"a", false⟩).1) =
      some [1, 3] := by cbv
  obtain ⟨t, ht, hends⟩ := Option.map_eq_some_iff.1 hends
  have h : t.Reachable := ⟨4, start 4, crowded, rfl, ht⟩
  exact ⟨t, ht, hends, (Reachable.agrees_with_edges h).1, (Reachable.agrees_with_edges h).2.1⟩

end ToddCoxeter.Table
