import ToddCoxeter.Proofs.Enumeration.Regular
import ToddCoxeter.Proofs.Table.ParallelEdges

/-! # The edges of a finished graph

The graph of a finished run has one edge from a node to another if some generator leads from the one to the
other (`Table.KeepsFirsts`).  The columns are elements of a group that acts regularly on the nodes, so that two
of them are equal if they agree at one node (`Table.Regular.images_eq`).  Hence two generators lead to the same
nodes everywhere or nowhere, and there are as many edges as nodes times different columns
(`Table.Regular.length_edges`). -/

namespace ToddCoxeter

namespace Table

variable {p : Presentation} {t c : Table} {n : ℕ} {g : Graph} {column column' : String × Array ℕ}

/-- The different columns. -/
def columnSet (c : Table) : Finset (Array ℕ) := (c.columns.map Prod.snd).toFinset

theorem mem_columnSet {images : Array ℕ} : images ∈ c.columnSet ↔ ∃ column ∈ c.columns, column.2 = images := by
  rw [columnSet, List.mem_toFinset, List.mem_map]

namespace Regular

variable (h : c.Regular p n)
include h

theorem size_images (hcolumn : column ∈ c.columns) : column.2.size = n := by
  have hlength := (h.column_perm column hcolumn).length_eq
  rwa [Array.length_toList, List.length_range] at hlength

/-- Columns that agree at one node are equal. -/
theorem images_eq (hcolumn : column ∈ c.columns) (hcolumn' : column' ∈ c.columns) {i j : ℕ}
    (hj : column.2[i]? = some j) (hj' : column'.2[i]? = some j) : column.2 = column'.2 := by
  obtain ⟨σ, hσ⟩ := Permutation.exists_eq_ofPerm (h.column_perm column hcolumn)
  obtain ⟨τ, hτ⟩ := Permutation.exists_eq_ofPerm (h.column_perm column' hcolumn')
  have hmem := Permutation.mem_generated (mem_columnPermutations.2 ⟨column, hcolumn, hσ⟩)
  have hmem' := Permutation.mem_generated (mem_columnPermutations.2 ⟨column', hcolumn', hτ⟩)
  replace hσ : column.2 = Array.ofFn fun i => (σ i : ℕ) := congrArg Permutation.images hσ
  replace hτ : column'.2 = Array.ofFn fun i => (τ i : ℕ) := congrArg Permutation.images hτ
  obtain ⟨hi, rfl⟩ := Array.getElem?_eq_some_iff.1 hj
  obtain ⟨hi', heq⟩ := Array.getElem?_eq_some_iff.1 hj'
  have hlt : i < n := h.size_images hcolumn ▸ hi
  have hστ : τ ⟨i, hlt⟩ = σ ⟨i, hlt⟩ := Fin.ext (by simpa [hσ, hτ] using heq)
  rw [hσ, hτ, h.eq_of_apply_eq hmem' hmem hστ]

theorem exists_sends (hp : p.Valid) {a : String} (ha : a ∈ p.generators) :
    ∃ column ∈ c.columns, column.1 = a ∧ ∀ i j, c.Sends a i j ↔ column.2[i]? = some j := by
  obtain ⟨column, hcolumn, rfl⟩ := List.mem_map.1 (h.keys_eq ▸ ha)
  have hlookup : c.columns.lookup column.1 = some column.2 :=
    lookup_eq_some_of_mem (h.keys_eq ▸ hp.nodup_generators) hcolumn
  refine ⟨column, hcolumn, rfl, fun i j => ⟨?_, fun hj => ⟨_, hlookup, hj⟩⟩⟩
  rintro ⟨images, himages, hj⟩
  obtain rfl := Option.some.inj (hlookup.symm.trans himages)
  exact hj

theorem exists_sends_iff (hp : p.Valid) {i j : ℕ} :
    (∃ a ∈ p.generators, c.Sends a i j) ↔ i < n ∧ ∃ images ∈ c.columnSet, images[i]? = some j := by
  constructor
  · rintro ⟨a, ha, hij⟩
    obtain ⟨column, hcolumn, -, hiff⟩ := h.exists_sends hp ha
    have hj := (hiff i j).1 hij
    refine ⟨?_, column.2, mem_columnSet.2 ⟨column, hcolumn, rfl⟩, hj⟩
    rw [← h.size_images hcolumn]
    exact (Array.getElem?_eq_some_iff.1 hj).1
  · rintro ⟨-, images, himages, hj⟩
    obtain ⟨column, hcolumn, rfl⟩ := mem_columnSet.1 himages
    have ha : column.1 ∈ p.generators := h.keys_eq ▸ List.mem_map.2 ⟨column, hcolumn, rfl⟩
    exact ⟨column.1, ha, column.2,
      lookup_eq_some_of_mem (h.keys_eq ▸ hp.nodup_generators) hcolumn, hj⟩

theorem getElem?_eq {images : Array ℕ} (himages : images ∈ c.columnSet) {i : ℕ} (hi : i < n) :
    images[i]? = some (images.getD i 0) := by
  obtain ⟨column, hcolumn, rfl⟩ := mem_columnSet.1 himages
  have hlt : i < column.2.size := (h.size_images hcolumn).symm ▸ hi
  simp [hlt]

/-- If there is one edge for each pair of nodes of which a column sends one to the other, then there are as
many edges as nodes times different columns. -/
theorem length_edges (hp : p.Valid) (hnodup : (g.edges.map Edge.ends).Nodup)
    (hiff : ∀ i j, (i, j) ∈ g.edges.map Edge.ends ↔ ∃ a ∈ p.generators, c.Sends a i j) :
    g.edges.length = n * c.columnSet.card := by
  have hset : (g.edges.map Edge.ends).toFinset =
      (Finset.range n ×ˢ c.columnSet).image fun q => (q.1, q.2.getD q.1 0) := by
    ext ⟨i, j⟩
    rw [List.mem_toFinset, hiff, h.exists_sends_iff hp]
    simp only [Finset.mem_image, Finset.mem_product, Finset.mem_range, Prod.exists, Prod.mk.injEq]
    constructor
    · rintro ⟨hi, images, himages, hj⟩
      rw [h.getElem?_eq himages hi] at hj
      exact ⟨i, images, ⟨hi, himages⟩, rfl, Option.some.inj hj⟩
    · rintro ⟨i, images, ⟨hi, himages⟩, rfl, rfl⟩
      exact ⟨hi, images, himages, h.getElem?_eq himages hi⟩
  have hinj : Set.InjOn (fun q : ℕ × Array ℕ => (q.1, q.2.getD q.1 0)) ↑(Finset.range n ×ˢ c.columnSet) := by
    rintro ⟨i, images⟩ hq ⟨i', images'⟩ hq' heq
    obtain ⟨hi, himages⟩ := Finset.mem_product.1 (Finset.mem_coe.1 hq)
    obtain ⟨-, himages'⟩ := Finset.mem_product.1 (Finset.mem_coe.1 hq')
    obtain ⟨rfl, hj⟩ := Prod.mk.inj heq
    have hget := h.getElem?_eq himages (Finset.mem_range.1 hi)
    have hget' := h.getElem?_eq himages' (Finset.mem_range.1 hi)
    rw [← hj] at hget'
    obtain ⟨column, hcolumn, rfl⟩ := mem_columnSet.1 himages
    obtain ⟨column', hcolumn', rfl⟩ := mem_columnSet.1 himages'
    exact Prod.ext rfl (h.images_eq hcolumn hcolumn' hget hget')
  rw [← List.length_map Edge.ends, ← List.toFinset_card_of_nodup hnodup, hset,
    Finset.card_image_of_injOn hinj, Finset.card_product, Finset.card_range]

end Regular

/-- There is a column for each generator, and if no two are equal, as many as generators. -/
theorem Regular.card_columnSet_eq_iff (h : c.Regular p n) (hp : p.Valid) :
    c.columnSet.card = p.generators.length ↔
      ∀ column ∈ c.columns, ∀ column' ∈ c.columns, column.2 = column'.2 → column = column' := by
  have hnodup : c.columns.Nodup := .of_map Prod.fst (h.keys_eq ▸ hp.nodup_generators)
  have hlength : p.generators.length = (c.columns.map Prod.snd).length := by
    rw [← h.keys_eq, List.length_map, List.length_map]
  rw [← List.nodup_map_iff_inj_on hnodup, hlength]
  exact Multiset.toFinset_card_eq_card_iff_nodup (m := .ofList (c.columns.map Prod.snd))

/-- The columns of two generators are equal if and only if the generators are equal in the group. -/
theorem Settled.images_eq_iff_equal (h : Settled p t) (hnone : t.pending? = none) (hp : p.Valid)
    (hc : t.ClosedBy p c) (hregular : c.Regular p n) (hcolumn : column ∈ c.columns)
    (hcolumn' : column' ∈ c.columns) :
    column.2 = column'.2 ↔ p.Equal [⟨column.1, false⟩] [⟨column'.1, false⟩] := by
  have hzero := h.wellFormed.contains_zero
  have hfirst : ∀ column ∈ c.columns, column.1 ∈ p.generators ∧ ∃ j, t.Leads 0 ⟨column.1, false⟩ j ∧
      column.2[0]? = some (t.ids.idxOf j) := by
    intro column hcolumn
    have ha : column.1 ∈ p.generators := hregular.keys_eq ▸ List.mem_map.2 ⟨column, hcolumn, rfl⟩
    obtain ⟨j, hj⟩ := (h.covers hnone).total 0 hzero ⟨column.1, false⟩ ha
    have hlt : 0 < column.2.size := hregular.size_images hcolumn ▸ hregular.pos
    have hact := hc.act_eq 0 _ j hzero ha hj
    rw [h.wellFormed.idxOf_zero_ids, hregular.act_eq column hcolumn 0 hlt] at hact
    exact ⟨ha, j, hj, Array.getElem?_eq_some_iff.2 ⟨hlt, Except.ok.inj hact⟩⟩
  obtain ⟨ha, i, hi, himage⟩ := hfirst column hcolumn
  obtain ⟨ha', j, hj, himage'⟩ := hfirst column' hcolumn'
  have hallows : p.Allows [⟨column'.1, false⟩] := Presentation.allows_cons.2 ⟨ha', Presentation.allows_nil⟩
  rw [← h.eq_iff_equal hnone hp hallows (Path.singleton.2 hi) (Path.singleton.2 hj)]
  constructor
  · intro heq
    rw [heq, himage', Option.some.injEq] at himage
    exact ((idxOf_inj (h.wellFormed.contains_of_leads hj).2).1 himage).symm
  · rintro rfl
    exact hregular.images_eq hcolumn hcolumn' himage himage'

end Table

namespace Enumeration

/-- The edges of the graph that a run of `e` gives, and the columns that it leaves behind. -/
structure CollapsedEdges (e : Enumeration) (g : Graph) : Prop where
  order_eq : e.run.2.order = .ok g.nodes.length
  /-- The generators have one column each. -/
  keys_eq : e.run.2.table.columns.map Prod.fst = e.presentation.generators
  /-- A column sends each node to one. -/
  exists_sends : ∀ a ∈ e.presentation.generators, ∀ i < g.nodes.length, ∃ j, e.run.2.table.Sends a i j
  /-- No two edges are parallel. -/
  nodup : (g.edges.map Edge.ends).Nodup
  /-- There is an edge from one node to another if and only if a column sends the one to the other. -/
  mem_ends_iff : ∀ i j, (i, j) ∈ g.edges.map Edge.ends ↔
    i < g.nodes.length ∧ ∃ a ∈ e.presentation.generators, e.run.2.table.Sends a i j
  /-- The column of an edge's label leads along it. -/
  sends : ∀ k ∈ g.edges, k.label ∈ e.presentation.generators ∧
    e.run.2.table.Sends k.label k.source k.target
  /-- The label is that of the first edge made between the two nodes in the table that was closed. -/
  find?_eq : ∃ t, e.Visits t ∧ t.pending? = none ∧ (t.close e.presentation.generators).1 = .ok g ∧
    ∀ k ∈ g.edges, ∃ f,
      t.edges.toList.find? (fun f => (t.place f.source, t.place f.target) = k.ends) = some f ∧
        f.label = k.label
  length_eq : g.edges.length = g.nodes.length * e.run.2.table.columnSet.card
  length_eq_iff : g.edges.length = g.nodes.length * e.presentation.generators.length ↔
    ∀ a ∈ e.presentation.generators, ∀ b ∈ e.presentation.generators,
      e.presentation.Equal [⟨a, false⟩] [⟨b, false⟩] → a = b

/-- The edges of a graph that a run gives. -/
theorem run_edges {limit : DigitLimit} {generators : List Datum} {relations : List String} {cap : Int}
    {e : Enumeration} (h : ofRelations limit generators relations cap = .ok e) {g : Graph}
    (hrun : e.run.1.outcome = .ok g) : e.CollapsedEdges g := by
  obtain ⟨p, hp, hcap, rfl⟩ := exists_fresh_of_ofRelations h
  obtain ⟨t, c, ⟨ht, -, hnone, hc, houtcome, htable, hgraph, hdone⟩, hclose, henum⟩ :=
    exists_enumerate_of_outcome_eq_ok hp hcap hrun
  rw [presentation_fresh] at ht hc
  obtain rfl : c.graph = g := Except.ok.inj (houtcome.symm.trans hrun)
  obtain ⟨hclosed, hkeys, hsizes⟩ := ht.columns_of_close hnone hp.nodup_generators hclose
  have hn : c.graph.nodes.length = t.live := hc.length_nodes
  have hregular := ht.regular hnone hp hc hclosed hkeys hsizes
  have hfirsts := ht.wellFormed.keepsFirsts ht.labels hclose
  rw [← hn] at hregular
  have hlength := hregular.length_edges hp hfirsts.nodup hfirsts.mem_ends_iff
  have hcolumns : (fresh p cap.toNat).run.2.table.columns = c.columns := by rw [htable]
  have hset : (fresh p cap.toNat).run.2.table.columnSet = c.columnSet := by
    rw [Table.columnSet, hcolumns, Table.columnSet]
  have hsends : (fresh p cap.toNat).run.2.table.Sends = c.Sends := by
    funext a i j
    rw [Table.Sends, hcolumns, Table.Sends]
  refine ⟨?_, ?_, fun a ha i hi => ?_, hfirsts.nodup, fun i j => ?_, fun k hk => ?_,
    ⟨t, visits_of_enumerate hp hcap henum, hnone, congrArg Prod.fst hclose, hfirsts.find?_eq⟩, ?_, ?_⟩
  · unfold order checkComputed
    rw [if_pos hdone, hgraph]
    rfl
  · rw [hcolumns]
    exact hkeys
  · obtain ⟨column, hcolumn, -, hiff⟩ := hregular.exists_sends hp ha
    rw [hsends]
    exact ⟨_, (hiff i _).2 (hregular.getElem?_eq (Table.mem_columnSet.2 ⟨column, hcolumn, rfl⟩) hi)⟩
  · rw [hfirsts.mem_ends_iff, hsends]
    exact ⟨fun hij => ⟨((hregular.exists_sends_iff hp).1 hij).1, hij⟩, And.right⟩
  · rw [hsends]
    exact hfirsts.sends k hk
  · rw [hset]
    exact hlength
  · rw [hlength, Nat.mul_right_inj hregular.pos.ne', presentation_fresh, hregular.card_columnSet_eq_iff hp,
      ← hkeys]
    simp only [List.forall_mem_map]
    refine forall₂_congr fun column hcolumn => forall₂_congr fun column' hcolumn' => imp_congr ?_ ?_
    · exact ht.images_eq_iff_equal hnone hp hc hregular hcolumn hcolumn'
    · have hnodup := hkeys.symm ▸ hp.nodup_generators
      exact ⟨congrArg Prod.fst, fun heq => List.inj_on_of_nodup_map hnodup hcolumn hcolumn' heq⟩

/-- The presentation of the group of two elements by two generators, which are equal in it. -/
def twins : Presentation :=
  ⟨["a", "b"], [[⟨"a", false⟩, ⟨"a", false⟩], [⟨"a", false⟩, ⟨"b", false⟩]]⟩

theorem run_edges_twins :
    ofRelations none [.text "a", .text "b"] ["a^2", "ab"] 8 = .ok (fresh twins 8) ∧
      ∃ g, (fresh twins 8).run.1.outcome = .ok g ∧ g.edges = [⟨0, 1, "a"⟩, ⟨1, 0, "a"⟩] ∧
        (fresh twins 8).CollapsedEdges g := by
  have haccepted : ofRelations none [.text "a", .text "b"] ["a^2", "ab"] 8 = .ok (fresh twins 8) :=
    ofRelations_eq_ok_iff.2 ⟨["a", "b"], [[⟨"a", false⟩, ⟨"a", false⟩], [⟨"a", false⟩, ⟨"b", false⟩]],
      rfl, by cbv, rfl, by decide, rfl⟩
  have hrun : (fresh twins 8).run.1.outcome =
      .ok ⟨[⟨0, [], true⟩, ⟨1, [⟨"a", false⟩], true⟩], [⟨0, 1, "a"⟩, ⟨1, 0, "a"⟩]⟩ := by cbv
  exact ⟨haccepted, _, hrun, rfl, run_edges haccepted hrun⟩

end Enumeration

end ToddCoxeter
