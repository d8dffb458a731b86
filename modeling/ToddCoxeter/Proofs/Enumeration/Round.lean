import ToddCoxeter.Proofs.Enumeration.Completion

/-! # From round to round

A round completes the first node that is not complete.  `Table.Settled` collects what holds between
rounds, and `Table.Settled.round` is the step from one evaluation of the loop's condition to the next. -/

namespace ToddCoxeter

namespace Table

/-! ### The node to be completed next -/

section pending

variable {t : Table} {i : ℕ}

theorem pending?_eq_find? (t : Table) : t.pending? = t.ids.find? fun i => !(t.row i).complete := by
  rw [pending?, t.rows.toList_eq { label := [] }, List.find?_map, Option.map_map]
  exact Option.map_id'

theorem pending?_eq_some (h : t.pending? = some i) : t.contains i ∧ ¬ (t.row i).complete := by
  rw [pending?_eq_find?] at h
  exact ⟨contains_iff_mem_ids.2 (List.mem_of_find?_eq_some h), by simpa using List.find?_some h⟩

/-- As live nodes are listed in increasing order, those below the first incomplete one are complete. -/
theorem WellFormed.complete_of_lt_pending? (h : t.WellFormed) (hi : t.pending? = some i) {j : ℕ}
    (hj : t.contains j) (hlt : j < i) : (t.row j).complete := by
  rw [pending?_eq_find?] at hi
  obtain ⟨-, as, bs, heq, has⟩ := List.find?_eq_some_iff_append.1 hi
  have hmem := contains_iff_mem_ids.1 hj
  have hsorted := h.sorted_ids
  rw [heq] at hmem hsorted
  rcases List.mem_append.1 hmem with hmem | hmem
  · simpa using has j hmem
  · have hbehind := (List.pairwise_append.1 hsorted).2.1
    rcases List.mem_cons.1 hmem with rfl | hmem
    · exact absurd hlt (Nat.lt_irrefl j)
    · have := (List.pairwise_cons.1 hbehind).1 j hmem
      omega

theorem pending?_eq_none : t.pending? = none ↔ ∀ j, t.contains j → (t.row j).complete := by
  simp only [pending?_eq_find?, List.find?_eq_none, contains_iff_mem_ids, Bool.not_eq_true',
    Bool.not_eq_false]

end pending

/-! ### The parts of a round make moves -/

section parts

variable {p : Presentation} {t u v : Table} {i : ℕ}

theorem WellFormed.steps_of_stepAll (h : t.WellFormed) (hi : t.pending? = some i) {xs : List Letter}
    (hxs : xs <+: p.letters) (hu : t.stepAll i xs = (.ok (), u)) : Steps p t u := by
  have hlt := h.lt_of_contains (pending?_eq_some hi).1
  have hyields := hu ▸ h.stepAll_yields (L := (·.gen ∈ p.generators)) (J := Forced p) hlt
    fun x hx => Letter.mem_signed.1 (hxs.subset hx)
  exact hyields.1

theorem WellFormed.steps_of_closeRelators (h : t.WellFormed) (hp : p.Valid) (hi : t.pending? = some i)
    (hu : t.stepAll i p.letters = (.ok (), u)) {ws : List Word} (hws : ws <+: p.relators)
    (hv : u.closeRelators i ws = (.ok (), v)) : Steps p t v := by
  have hm := h.steps_of_stepAll hi (List.prefix_refl p.letters) hu
  have hlt := (h.grows_moves hm).lt_size (h.lt_of_contains (pending?_eq_some hi).1)
  have hyields := hv ▸ (h.moves hm).closeRelators_yields hp hlt fun w hw => hws.subset hw
  exact hm.trans hyields.1

end parts

/-! ### Between rounds -/

/-- What holds whenever the loop's condition is evaluated. -/
structure Settled (p : Presentation) (t : Table) : Prop where
  wellFormed : t.WellFormed
  rooted : t.Rooted
  labels : ∀ e ∈ t.edges, e.label ∈ p.generators
  live_le_cap : t.live ≤ t.cap
  closed_eq : t.closed = false
  columns_eq : t.columns = []
  /-- The nodes stand for elements of the group. -/
  denotes : ∃ f, Denotes p t f
  /-- Each letter leads to one node at most. -/
  singleValued : SingleValued p.generators t
  /-- Each letter leads from a complete node to some node. -/
  leads : ∀ i, t.contains i → (t.row i).complete → ∀ x : Letter, x.gen ∈ p.generators →
    ∃ j, t.Leads i x j
  /-- Each relator leads from a complete node back to it. -/
  closes : ∀ i, t.contains i → (t.row i).complete → ∀ r ∈ p.relators, Path t.Leads i r i
  /-- The nodes below a complete one are complete. -/
  complete_of_lt : ∀ i j, t.contains i → t.contains j → i < j → (t.row j).complete →
    (t.row i).complete

section Settled

variable {p : Presentation} {t t' : Table}

theorem settled_start {cap : ℕ} (hcap : 0 < cap) : Settled p (start cap) := by
  have hno : ∀ i x j, ¬ (start cap).Leads i x j := by
    rintro i x j ⟨e, he, -⟩
    exact absurd he (Array.not_mem_empty e)
  have hcomplete : ∀ i, ¬ ((start cap).row i).complete := by
    intro i
    rw [row_start]
    simp
  refine ⟨wellFormed_start cap, ?_, ?_, ?_, rfl, rfl, ⟨fun _ => [], rfl, ?_⟩, ?_, ?_, ?_, ?_⟩
  · intro q hq hlt
    have hsize : (start cap).forest.size = 1 := Array.size_range
    omega
  · intro e he
    exact absurd he (Array.not_mem_empty e)
  · have hlive : (start cap).live = 1 := by
      rw [← length_ids]
      rfl
    exact hlive ▸ hcap
  · intro i x j hj
    exact absurd hj (hno i x j)
  · intro i x _ j k hj
    exact absurd hj (hno i x j)
  · intro i _ hc
    exact absurd hc (hcomplete i)
  · intro i _ hc
    exact absurd hc (hcomplete i)
  · intro i j _ _ _ hc
    exact absurd hc (hcomplete j)

/-- What a round does to a settled table. -/
structure Rounds (p : Presentation) (t t' : Table) : Prop where
  settled : Settled p t'
  grows : Grows t t'
  cap_eq : t'.cap = t.cap
  /-- The node that was the first incomplete one is complete, or has been absorbed. -/
  pending : ∃ i, t.pending? = some i ∧ ∀ j ≤ i, t'.contains j → (t'.row j).complete

/-- After a round the complete nodes are the completed one and the smaller ones. -/
theorem Settled.complete_finishRound_iff (h : Settled p t) {i j : ℕ} (hi : t.pending? = some i)
    {u : Table} (hu : Completes p i t u) (hj : u.contains j) {label : Word} :
    ((u.finishRound i label).row j).complete ↔ j ≤ i := by
  obtain ⟨hci, hinc⟩ := pending?_eq_some hi
  have hg := h.wellFormed.grows_moves hu.steps
  rw [(h.wellFormed.moves hu.steps).complete_finishRound]
  constructor
  · rintro (hc | ⟨-, rfl⟩)
    · obtain ⟨hct, hc⟩ := h.wellFormed.complete_moves hu.steps hj hc
      by_contra hij
      exact hinc (h.complete_of_lt i j hci hct (by omega) hc)
    · exact Nat.le_refl i
  · intro hji
    by_cases heq : i = j
    · exact .inr ⟨heq ▸ hj, heq⟩
    · have hlt := h.wellFormed.lt_of_contains hci
      have hjt : j < t.forest.size := by omega
      exact .inl (hg.complete j hjt hj (h.wellFormed.complete_of_lt_pending? hi
        (hg.contains j hjt hj) (by omega)))

theorem Settled.finishRound (h : Settled p t) {i : ℕ} (hi : t.pending? = some i) {u : Table}
    (hu : Completes p i t u) (label : Word) : Rounds p t (u.finishRound i label) := by
  have hwf := h.wellFormed.moves hu.steps
  have hg := h.wellFormed.grows_moves hu.steps
  have hframe := hu.steps.frame
  have hframe' := @frame_finishRound u i label
  refine ⟨⟨hwf.finishRound, ?_, ?_, ?_, ?_, ?_, ?_, ?_, ?_, ?_, ?_⟩, hg.trans hwf.grows_finishRound,
    hframe'.1.trans hframe.1, i, hi, ?_⟩
  · unfold Rooted
    rw [forest_finishRound, edges_finishRound]
    exact h.wellFormed.rooted_moves hu.steps h.rooted
  · rw [edges_finishRound]
    exact h.wellFormed.labels_moves hu.steps (fun _ hx => hx) h.labels
  · rw [live_finishRound, hframe'.1]
    exact h.wellFormed.live_le_cap hu.steps h.live_le_cap
  · rw [hframe'.2.1, hframe.2.1, h.closed_eq]
  · rw [hframe'.2.2, hframe.2.2, h.columns_eq]
  · obtain ⟨f, hf⟩ := h.wellFormed.denotes_moves hu.steps h.denotes
    refine ⟨f, hf.zero, ?_⟩
    rw [leads_finishRound]
    exact hf.leads
  · unfold SingleValued
    rw [leads_finishRound]
    exact hu.singleValued
  · intro j hj hc x hx
    rw [contains_finishRound] at hj
    rw [leads_finishRound]
    rcases (hwf.complete_finishRound j).1 hc with hc | ⟨-, rfl⟩
    · obtain ⟨hct, hc⟩ := h.wellFormed.complete_moves hu.steps hj hc
      obtain ⟨k, hk⟩ := h.leads j hct hc x hx
      exact ⟨_, hg.leads_of_contains hwf hj hk⟩
    · obtain ⟨k, hk⟩ := hu.leads x hx
      rw [hwf.root_of_contains hj] at hk
      exact ⟨k, hk⟩
  · intro j hj hc r hr
    rw [contains_finishRound] at hj
    rw [leads_finishRound]
    rcases (hwf.complete_finishRound j).1 hc with hc | ⟨-, rfl⟩
    · obtain ⟨hct, hc⟩ := h.wellFormed.complete_moves hu.steps hj hc
      exact hg.path_of_contains hwf hj hj (h.closes j hct hc r hr)
    · have hpath := hu.closes r hr
      rwa [hwf.root_of_contains hj] at hpath
  · intro j k hj hk hjk hc
    rw [contains_finishRound] at hj hk
    have := (h.complete_finishRound_iff hi hu hk).1 hc
    exact (h.complete_finishRound_iff hi hu hj).2 (by omega)
  · intro j hj hcj
    rw [contains_finishRound] at hcj
    exact (h.complete_finishRound_iff hi hu hcj).2 hj

theorem Settled.exists_path (h : Settled p t) {i : ℕ} (hi : t.contains i) :
    ∃ w, p.Allows w ∧ Path t.Leads 0 w i := by
  have hpath := h.wellFormed.exists_path h.rooted h.labels (h.wellFormed.lt_of_contains hi)
  rwa [h.wellFormed.root_of_contains hi] at hpath

/-- The round that starts in a settled table ends the loop, fails because more nodes may be needed than
the cap allows, or leads to a settled table. -/
theorem Settled.round (h : Settled p t) (hp : p.Valid) :
    match t.round p with
    | .inl t' => Rounds p t t'
    | .inr (.ok _, t') => t' = t ∧ t.pending? = none
    | .inr (.error fault, _) => fault = ⟨t.cap⟩ ∧ t.cap < t.live + p.roundLength := by
  unfold Table.round
  cases hi : t.pending? with
  | none => exact ⟨rfl, rfl⟩
  | some i =>
      have hnode := h.wellFormed.completeNode_yields hp (pending?_eq_some hi).1
      simp only
      rcases hnode' : t.completeNode p i with ⟨fault | _, t'⟩ <;> rw [hnode'] at hnode
      · exact hnode
      · obtain ⟨u, hu, rfl⟩ := hnode
        exact h.finishRound hi hu _

theorem Settled.steps (h : Settled p t) (hp : p.Valid) (n : ℕ) :
    match Loop.steps (Table.round p) n t with
    | .inl t' => Settled p t' ∧ Grows t t' ∧ t'.cap = t.cap
    | .inr (.ok _, t') => Settled p t' ∧ t'.cap = t.cap ∧ t'.pending? = none
    | .inr (.error fault, _) => fault = ⟨t.cap⟩ := by
  induction n generalizing t with
  | zero => exact ⟨h, .refl t, rfl⟩
  | succ n ih =>
      have hround := h.round hp
      unfold Loop.steps
      rcases hu : t.round p with u | ⟨fault | _, u⟩ <;> rw [hu] at hround
      · have hrest := ih hround.settled
        simp only
        rcases hv : Loop.steps (Table.round p) n u with v | ⟨fault | _, v⟩ <;> rw [hv] at hrest
        · exact ⟨hrest.1, hround.grows.trans hrest.2.1, hrest.2.2.trans hround.cap_eq⟩
        · exact hrest.trans (by rw [hround.cap_eq])
        · exact ⟨hrest.1, hrest.2.1.trans hround.cap_eq, hrest.2.2⟩
      · exact hround.1
      · obtain ⟨rfl, hnone⟩ := hround
        exact ⟨h, rfl, hnone⟩

end Settled

end Table

end ToddCoxeter
