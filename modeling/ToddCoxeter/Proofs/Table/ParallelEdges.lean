import ToddCoxeter.Proofs.Table.Renumbering

/-! # Which edges a closed table keeps

A table has many edges between the same two nodes, made for different letters or for nodes that were merged
later.  The closed table keeps the one of them that was made first.  So it has one edge for each pair of nodes
of which a column sends one to the other (`Table.WellFormed.keepsFirsts`). -/

namespace ToddCoxeter

namespace Table

variable {t c : Table} {gens : List String} {g : Graph} {a : String} {i j : ℕ}

/-- The column of the generator has the node `j` at the place `i`. -/
def Sends (c : Table) (a : String) (i j : ℕ) : Prop :=
  ∃ images, c.columns.lookup a = some images ∧ images[i]? = some j

/-- The number that the node which stands for the given one has when the table is closed. -/
def place (t : Table) (i : ℕ) : ℕ := t.ids.idxOf (t.root i)

/-- The edges of the graph `g` and the table `c` that come of closing `t`. -/
structure KeepsFirsts (gens : List String) (t : Table) (g : Graph) (c : Table) : Prop where
  /-- No two edges are parallel. -/
  nodup : (g.edges.map Edge.ends).Nodup
  /-- An edge leads from one node to another if and only if a column does. -/
  mem_ends_iff : ∀ s d, (s, d) ∈ g.edges.map Edge.ends ↔ ∃ a ∈ gens, c.Sends a s d
  /-- The column of an edge's label leads along it. -/
  sends : ∀ k ∈ g.edges, k.label ∈ gens ∧ c.Sends k.label k.source k.target
  /-- The label is that of the first edge made between the two nodes. -/
  find?_eq : ∀ k ∈ g.edges, ∃ f,
    t.edges.toList.find? (fun f => (t.place f.source, t.place f.target) = k.ends) = some f ∧
      f.label = k.label

theorem WellFormed.sends_iff (h : t.WellFormed) {next : ℕ → Letter → ℕ}
    (hnext : ∀ i ∈ t.ids, (t.neighbours i ⟨a, false⟩).1 = [next i ⟨a, false⟩])
    (hcolumn : c.columns.lookup a = some (t.places next a).toArray) {s d : ℕ} :
    c.Sends a s d ↔ ∃ i j, t.Leads i ⟨a, false⟩ j ∧ t.ids.idxOf i = s ∧ t.ids.idxOf j = d := by
  have hlead : ∀ i, t.contains i → ∀ j, t.Leads i ⟨a, false⟩ j ↔ j = next i ⟨a, false⟩ := fun i hi j =>
    h.leads_iff_of_neighbours_eq hi (hnext i (contains_iff_mem_ids.1 hi))
  have hplace : ∀ i ∈ t.ids, (t.places next a)[t.ids.idxOf i]? = some (t.ids.idxOf (next i ⟨a, false⟩)) := by
    intro i hi
    rw [places, List.getElem?_map, List.getElem?_idxOf hi]
    rfl
  constructor
  · rintro ⟨images, himages, hd⟩
    obtain rfl := Option.some.inj (hcolumn.symm.trans himages)
    have hs : s < t.live := by
      simpa [places, length_ids] using (Array.getElem?_eq_some_iff.1 hd).1
    obtain ⟨i, hi, rfl⟩ := exists_idxOf_eq hs
    rw [List.getElem?_toArray, hplace i (contains_iff_mem_ids.1 hi)] at hd
    exact ⟨i, _, (hlead i hi _).2 rfl, rfl, Option.some.inj hd⟩
  · rintro ⟨i, j, hij, rfl, rfl⟩
    have hi := (h.contains_of_leads hij).1
    obtain rfl := (hlead i hi j).1 hij
    refine ⟨_, hcolumn, ?_⟩
    rw [List.getElem?_toArray]
    exact hplace i (contains_iff_mem_ids.1 hi)

theorem exists_find?_of_mem_liveEdges {e : Edge ℕ} (he : e ∈ t.liveEdges) :
    ∃ f, t.edges.toList.find? (fun f => (f.map t.root).ends = e.ends) = some f ∧ f.map t.root = e := by
  have hfind := Edge.find?_of_mem_firsts he
  rw [List.find?_map] at hfind
  exact Option.map_eq_some_iff.1 hfind

theorem WellFormed.contains_ends (h : t.WellFormed) {f : Edge ℕ} (hf : f ∈ t.edges) :
    t.contains (t.root f.source) ∧ t.contains (t.root f.target) :=
  ⟨h.contains_root (h.side_lt f hf false), h.contains_root (h.side_lt f hf true)⟩

theorem mem_ends_liveEdges {q : ℕ × ℕ} :
    q ∈ t.liveEdges.map Edge.ends ↔ ∃ f ∈ t.edges, (f.map t.root).ends = q := by
  rw [liveEdges, Edge.mem_ends_firsts]
  simp only [List.mem_map, exists_exists_and_eq_and, Array.mem_toList_iff]

theorem WellFormed.keepsFirsts (h : t.WellFormed) (hlabels : ∀ e ∈ t.edges, e.label ∈ gens)
    (hclose : t.close gens = (.ok g, c)) : t.KeepsFirsts gens g c := by
  obtain ⟨next, hnext, -, rfl, -, hedges, hcolumn⟩ := h.exists_next_of_close hclose
  replace hedges : c.graph.edges = t.liveEdges.map (Edge.map t.ids.idxOf) := hedges
  have hends : c.graph.edges.map Edge.ends =
      (t.liveEdges.map Edge.ends).map (Prod.map t.ids.idxOf t.ids.idxOf) := by
    rw [hedges, List.map_map, List.map_map]
    rfl
  have hsends : ∀ f ∈ t.edges, c.Sends f.label (t.place f.source) (t.place f.target) := fun f hf =>
    (h.sends_iff (hnext _ (hlabels f hf)) (hcolumn _ (hlabels f hf))).2 ⟨_, _, ⟨f, hf, rfl, rfl, rfl⟩, rfl, rfl⟩
  refine ⟨?_, fun s d => ?_, fun k hk => ?_, fun k hk => ?_⟩
  · rw [hends]
    refine (Edge.nodup_ends_firsts _).map_on fun q hq q' _ heq => ?_
    obtain ⟨f, hf, rfl⟩ := mem_ends_liveEdges.1 hq
    obtain ⟨hsource, htarget⟩ := h.contains_ends hf
    obtain ⟨hs, hd⟩ := Prod.mk.inj heq
    exact Prod.ext ((idxOf_inj hsource).1 hs) ((idxOf_inj htarget).1 hd)
  · rw [hends]
    constructor
    · intro hmem
      obtain ⟨q, hq, heq⟩ := List.mem_map.1 hmem
      obtain ⟨f, hf, rfl⟩ := mem_ends_liveEdges.1 hq
      obtain ⟨rfl, rfl⟩ := Prod.mk.inj heq
      exact ⟨f.label, hlabels f hf, hsends f hf⟩
    · rintro ⟨a, ha, hsd⟩
      obtain ⟨i, j, ⟨f, hf, -, rfl, rfl⟩, rfl, rfl⟩ := (h.sends_iff (hnext a ha) (hcolumn a ha)).1 hsd
      exact List.mem_map.2 ⟨_, mem_ends_liveEdges.2 ⟨f, hf, rfl⟩, rfl⟩
  · rw [hedges] at hk
    obtain ⟨e, he, rfl⟩ := List.mem_map.1 hk
    obtain ⟨f, hf, rfl⟩ := exists_find?_of_mem_liveEdges he
    have hmem := Array.mem_toList_iff.1 (List.mem_of_find?_eq_some hf)
    exact ⟨hlabels f hmem, hsends f hmem⟩
  · rw [hedges] at hk
    obtain ⟨e, he, rfl⟩ := List.mem_map.1 hk
    obtain ⟨f, hf, rfl⟩ := exists_find?_of_mem_liveEdges he
    have hmem := Array.mem_toList_iff.1 (List.mem_of_find?_eq_some hf)
    obtain ⟨hsource, htarget⟩ := h.contains_ends hmem
    refine ⟨f, ?_, rfl⟩
    have hplace : ∀ i j, t.contains (t.root j) → (t.place i = t.place j ↔ t.root i = t.root j) :=
      fun i j hj => eq_comm.trans ((idxOf_inj hj).trans eq_comm)
    rw [← hf]
    congr 1
    funext e
    apply decide_eq_decide.2
    simp only [Edge.ends, Edge.map, Prod.mk.injEq]
    exact and_congr (hplace _ _ hsource) (hplace _ _ htarget)

end Table

end ToddCoxeter
