import ToddCoxeter.Proofs.Enumeration.LoopInvariant
import ToddCoxeter.Proofs.Group.Covering
import ToddCoxeter.Proofs.Table.Closing

/-! # Finished tables

When no node is left to be completed, the letters act on the live nodes, and relators act trivially
(`Table.Settled.covers`).  The live nodes are then the elements of the presented group: words lead from
the first node to the same node exactly if they are equal in the group
(`Table.Settled.eq_iff_equal`), and there are as many live nodes as elements
(`Table.Settled.card_element`).

A finished table can be closed, and a word acts on the nodes of the closed table as it leads from node to
node in the finished one (`Table.Settled.exists_closedBy`, `Table.ClosedBy.actWord_eq`). -/

namespace ToddCoxeter.Table

variable {p : Presentation} {t : Table} {i j : ℕ} {u v : Word}

theorem card_contains (t : Table) : Nat.card {i | t.contains i} = t.live := by
  have hset : {i | t.contains i} = (t.ids.toFinset : Set ℕ) := by
    ext i
    rw [Set.mem_ofPred_eq, Finset.mem_coe, List.mem_toFinset, contains_iff_mem_ids]
  rw [hset, Nat.card_coe_set_eq, Set.ncard_coe_finset, List.toFinset_card_of_nodup t.nodup_ids,
    length_ids]

theorem finite_contains (t : Table) : Finite {i | t.contains i} :=
  (t.ids.finite_toSet.subset fun _ hi => contains_iff_mem_ids.1 hi).to_subtype

namespace Settled

variable (h : Settled p t) (hnone : t.pending? = none)
include h hnone

theorem covers : p.Covers {i | t.contains i} t.Leads :=
  ⟨⟨fun _ _ _ _ hx => (h.wellFormed.contains_of_leads hx).2, fun _ _ _ => Leads.inverse,
      h.singleValued, fun i hi x hx => h.leads i hi (pending?_eq_none.1 hnone i hi) x hx⟩,
    fun i hi r hr => h.closes i hi (pending?_eq_none.1 hnone i hi) r hr⟩

/-- Words lead to the same node exactly if they are equal in the group. -/
theorem eq_iff_equal (hp : p.Valid) (hv : p.Allows v) (hui : Path t.Leads 0 u i)
    (hvj : Path t.Leads 0 v j) : i = j ↔ p.Equal u v := by
  constructor
  · rintro rfl
    obtain ⟨f, hf⟩ := h.denotes
    exact hf.equal_of_path hui hvj
  · intro heq
    have hcov := h.covers hnone
    exact hcov.toActs.eq_of_path hv ((hcov.path_iff hp heq h.wellFormed.contains_zero).1 hui) hvj

/-- The live nodes are in bijection with the elements of the group. -/
theorem exists_bijective (hp : p.Valid) :
    ∃ f : {i | t.contains i} → p.Element, Function.Bijective f := by
  have hcov := h.covers hnone
  have hzero := h.wellFormed.contains_zero
  obtain ⟨f, hinj, hf⟩ := hcov.exists_injective hp hzero fun i hi => h.exists_path hi
  refine ⟨f, hinj, ?_⟩
  rintro ⟨w, hw⟩
  obtain ⟨j, hj⟩ := hcov.toActs.exists_path hzero hw
  obtain ⟨w', hw', hj', hfj⟩ := hf ⟨j, hcov.toActs.mem_of_path hzero hj⟩
  refine ⟨_, hfj.trans (Presentation.Element.of_eq_of_iff.2 ?_)⟩
  exact (h.eq_iff_equal hnone hp hw hj' hj).1 rfl

/-- There are as many live nodes as elements of the group. -/
theorem card_element (hp : p.Valid) : Finite p.Element ∧ Nat.card p.Element = t.live := by
  obtain ⟨f, hf⟩ := h.exists_bijective hnone hp
  have := t.finite_contains
  exact ⟨Finite.of_surjective f hf.2, (Nat.card_eq_of_bijective f hf).symm.trans t.card_contains⟩

end Settled

/-! ### The closed table -/

/-- `c` is the closed table of `t`: it has a node for each live node of `t`, and words act on it as they
lead in `t`. -/
structure ClosedBy (p : Presentation) (t c : Table) : Prop where
  length_nodes : c.nodes.length = t.live
  id_eq : ∀ k < t.live, ∃ n, c.nodes[k]? = some n ∧ n.id = k
  act_eq : ∀ i x j, t.contains i → x.gen ∈ p.generators → t.Leads i x j →
    c.act (t.ids.idxOf i) x = .ok (t.ids.idxOf j)

theorem Settled.exists_next (h : Settled p t) (hnone : t.pending? = none) :
    ∃ next : ℕ → Letter → ℕ, ∀ i x, t.contains i → x.gen ∈ p.generators → t.Leads i x (next i x) := by
  have hcov := h.covers hnone
  choose! next hnext using fun i (hi : t.contains i) (x : Letter) => hcov.total i hi x
  exact ⟨next, fun i x hi hx => hnext i hi x hx⟩

/-- A finished table can be closed. -/
theorem Settled.exists_closedBy (h : Settled p t) (hnone : t.pending? = none) :
    ∃ c, ClosedBy p t c ∧ t.close p.generators = (.ok c.graph, c) := by
  obtain ⟨next, hlead⟩ := h.exists_next hnone
  obtain ⟨f, columns, hf, hcolumns, heq⟩ := close_eq next h.closed_eq
    fun g hg i hi => h.neighbours_eq (contains_iff_mem_ids.2 hi) hg
      (hlead i ⟨g, false⟩ (contains_iff_mem_ids.2 hi) hg)
  obtain ⟨hlength, hid⟩ := nodes_renumber { t with forest := f, columns }
  refine ⟨_, ⟨hlength, hid, fun i x j hi hx hj => ?_⟩, heq⟩
  have hij := h.singleValued i x hx j _ hj (hlead i x hi hx)
  have hlive : ∀ k, t.contains k → t.contains (next k x) := fun k hk =>
    (h.wellFormed.contains_of_leads (hlead k x hk hx)).2
  have hcolumn : columns.lookup x.gen = some (t.places next x.gen).toArray := by
    rw [hcolumns, lookup_setEntries, if_pos hx]
  rw [hij]
  refine act_eq rfl hcolumn t.nodup_ids (contains_iff_mem_ids.1 hi)
    (contains_iff_mem_ids.1 (hlive i hi)) fun k hk => ?_
  have hk := contains_iff_mem_ids.2 hk
  constructor
  · intro hki
    have hback := hki ▸ hlead k x.inverse hk hx
    exact h.singleValued i x hx _ _ (hlead i x hi hx) (leads_inverse.1 hback)
  · intro hik
    have hback := (hik ▸ hlead i x hi hx).inverse
    exact h.singleValued k x.inverse hx _ _ (hlead k x.inverse hk hx) hback

theorem Settled.columns_of_close (h : Settled p t) (hnone : t.pending? = none) (hp : p.generators.Nodup)
    {g : Graph} {c : Table} (hclose : t.close p.generators = (.ok g, c)) :
    c.closed = true ∧ c.columns.map Prod.fst = p.generators ∧
      ∀ column ∈ c.columns, column.2.size = t.live := by
  obtain ⟨next, hlead⟩ := h.exists_next hnone
  obtain ⟨f, columns, -, hcolumns, heq⟩ := close_eq next h.closed_eq
    fun g hg i hi => h.neighbours_eq (contains_iff_mem_ids.2 hi) hg
      (hlead i ⟨g, false⟩ (contains_iff_mem_ids.2 hi) hg)
  obtain ⟨-, rfl⟩ := Prod.mk.inj (hclose.symm.trans heq)
  have hlist : columns = p.generators.map fun g => (g, (t.places next g).toArray) := by
    rw [hcolumns, h.columns_eq, setEntries_of_nodup _ hp fun _ he => absurd he (by simp)]
    rfl
  refine ⟨rfl, ?_, fun column hcolumn => ?_⟩
  · show columns.map Prod.fst = p.generators
    rw [hlist, List.map_map]
    exact List.map_id _
  · have hcolumn : column ∈ columns := hcolumn
    rw [hlist] at hcolumn
    obtain ⟨g, -, rfl⟩ := List.mem_map.1 hcolumn
    rw [List.size_toArray, places, List.length_map, length_ids]

/-- Words act as they lead. -/
theorem ClosedBy.actWord_eq {c : Table} (hc : ClosedBy p t c) (h : t.WellFormed) {w : Word}
    (hw : p.Allows w) {i j : ℕ} (hi : t.contains i) (hpath : Path t.Leads i w j) :
    c.actWord (t.ids.idxOf i) w = .ok (t.ids.idxOf j) := by
  induction w generalizing i with
  | nil =>
      obtain rfl : i = j := hpath
      rfl
  | cons x w ih =>
      obtain ⟨hx, hw⟩ := Presentation.allows_cons.1 hw
      obtain ⟨k, hk, hj⟩ := hpath
      unfold actWord
      rw [hc.act_eq i x k hi hx hk]
      exact ih hw (h.contains_of_leads hk).2 hj

end ToddCoxeter.Table
