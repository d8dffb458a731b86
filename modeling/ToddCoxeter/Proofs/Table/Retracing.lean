import ToddCoxeter.Proofs.Table.Classes

/-! # Walking back

A table is deterministic if each letter leads from a live node to one neighbour at most
(`Table.Deterministic`), as it is when a pass over all labels drops no node
(`Table.WellFormed.deterministic_sweep`).  Definitions keep it so: the letter for which a node is attached led
nowhere, and from the new node only its inverse leads anywhere (`Table.WellFormed.deterministic_attach`).

Since every edge can be followed in both directions, the inverse of a word leads back along each path of the
word.  In a deterministic table it leads nowhere else, so a walk along a word and then along its inverse ends
where it began, even if nodes were defined on the way (`Table.Reachable.retraces_of_trace`). -/

namespace ToddCoxeter

/-- Where the inverse of each letter leads back, the inverse of a word does. -/
theorem Path.inverse {R : ℕ → Letter → ℕ → Prop} (hR : ∀ i x j, R i x j → R j x.inverse i) {w : Word}
    {i j : ℕ} (h : Path R i w j) : Path R j w.inverse i := by
  induction w generalizing i with
  | nil => exact h.symm
  | cons x w ih =>
      obtain ⟨k, hk, hj⟩ := h
      rw [Word.inverse_cons, Path.append]
      exact ⟨k, ih hj, Path.singleton.2 (hR i x k hk)⟩

namespace Table

variable {L : Letter → Prop} {t u : Table} {i j k : ℕ} {x : Letter} {w : Word}

/-- The labels of the edges. -/
def labels (t : Table) : List String := t.edges.toList.map Edge.label

/-- Each generator that labels an edge, and its inverse, leads from each live node to one neighbour at
most. -/
def Deterministic (t : Table) : Prop :=
  ∀ i, t.contains i → ∀ x ∈ Letter.signed t.labels, (t.neighbours i x).1.length ≤ 1

theorem Leads.gen_mem_labels (h : t.Leads i x j) : x.gen ∈ t.labels := by
  obtain ⟨e, he, hl, -⟩ := h
  exact List.mem_map.2 ⟨e, Array.mem_toList_iff.2 he, hl⟩

/-! ### Deterministic tables -/

theorem WellFormed.deterministic_iff (h : t.WellFormed) :
    t.Deterministic ↔ ∀ i x j k, t.Leads i x j → t.Leads i x k → j = k := by
  refine h.singleValued_iff.symm.trans ⟨fun hs i x j k hj hk => ?_, fun huniq i x _ => huniq i x⟩
  exact hs i x hj.gen_mem_labels j k hj hk

/-- If a pass over all labels drops no node, then the table is deterministic, before the pass and after
it. -/
theorem WellFormed.deterministic_sweep (h : t.WellFormed) {gens : List String} (hsub : t.labels ⊆ gens)
    (h0 : (t.sweep gens).1 = 0) : t.Deterministic ∧ (t.sweep gens).2.Deterministic := by
  obtain ⟨hr, hs⟩ := (h.sweep_swept gens).settled h0
  have hd : ∀ i x j k, t.Leads i x j → t.Leads i x k → j = k := fun i x j k hj hk =>
    hs i x (hsub hj.gen_mem_labels) j k hj hk
  refine ⟨h.deterministic_iff.2 hd, (h.reshaped hr).deterministic_iff.2 ?_⟩
  rwa [hr.leads_eq]

/-- Attaching a node for a letter that leads nowhere keeps a table deterministic. -/
theorem WellFormed.deterministic_attach (h : t.WellFormed) (hd : t.Deterministic) (hi : t.contains i)
    (hno : ∀ j, ¬ t.Leads i x j) : (t.attach i x).Deterministic := by
  rw [h.deterministic_iff] at hd
  have hlt := h.lt_of_contains hi
  -- Nothing led from the new node before.
  have hnew : ∀ y j, ¬ t.Leads t.forest.size y j := fun y j hj =>
    Nat.lt_irrefl _ (h.lt_of_contains (h.contains_of_leads hj).1)
  refine (h.attach hi).deterministic_iff.2 fun a y b c hb hc => ?_
  rw [h.leads_attach_iff hi] at hb hc
  rcases hb with hb | ⟨rfl, rfl, rfl⟩ | ⟨rfl, rfl, rfl⟩
  · rcases hc with hc | ⟨rfl, rfl, rfl⟩ | ⟨rfl, rfl, rfl⟩
    · exact hd a y b c hb hc
    · exact absurd hb (hno b)
    · exact absurd hb (hnew _ b)
  · rcases hc with hc | ⟨-, -, rfl⟩ | ⟨heq, -, -⟩
    · exact absurd hc (hno c)
    · rfl
    · omega
  · rcases hc with hc | ⟨heq, -, -⟩ | ⟨-, -, rfl⟩
    · exact absurd hc (hnew _ c)
    · omega
    · rfl

/-- Definitions keep a table deterministic. -/
theorem WellFormed.deterministic_moves (h : t.WellFormed) (hm : Moves L (fun _ _ _ => False) t u)
    (hd : t.Deterministic) : u.Deterministic := by
  refine (hm.invariant (q := Deterministic) ?_ h hd).2
  intro v v' hv hm hd
  cases hm with
  | reshape hr =>
      rw [hv.deterministic_iff] at hd
      refine (hv.reshaped hr).deterministic_iff.2 ?_
      rwa [hr.leads_eq]
  | attach _ hi hno => exact hv.deterministic_attach hd hi hno
  | absorb _ _ _ hJ => exact hJ.elim

theorem WellFormed.neighbours_eq_singleton (h : t.WellFormed) (hd : t.Deterministic)
    (hk : k < t.forest.size) (hj : t.Leads (t.root k) x j) : (t.neighbours k x).1 = [j] := by
  have hroot : t.root (t.root k) = t.root k := t.forest.root_root k
  have hlive := h.neighbours_eq_of_leads (h.contains_root hk) hj fun m hm =>
    h.deterministic_iff.1 hd _ _ _ _ hm hj
  rwa [fst_neighbours, hroot, ← fst_neighbours] at hlive

/-- Definitions leave nodes with the neighbours that they had. -/
theorem WellFormed.neighbours_moves (h : t.WellFormed) (hm : Moves L (fun _ _ _ => False) t u)
    (hd : t.Deterministic) (hk : k < t.forest.size) (hne : (t.neighbours k x).1 ≠ []) :
    (u.neighbours k x).1 = (t.neighbours k x).1 := by
  have hg := h.grows_moves hm
  obtain ⟨j, hj⟩ := List.exists_mem_of_ne_nil _ hne
  rw [h.mem_neighbours hk] at hj
  have hlead : u.Leads (u.root k) x j := by
    have hroot : u.root j = t.root j := root_eq_of_classes_eq hm.changes.classes_eq j
    rw [← h.root_of_contains (h.contains_of_leads hj).2, ← hroot, ← hg.root_root]
    exact hg.leads hj
  rw [h.neighbours_eq_singleton hd hk hj]
  exact (h.moves hm).neighbours_eq_singleton (h.deterministic_moves hm hd) (hg.lt_size hk) hlead

/-! ### Walks -/

/-- What becomes of a table in which a walk along `w` from `i` has led to `j`, if the table `u` is left
behind. -/
structure Retraces (t u : Table) (i : ℕ) (w : Word) (j : ℕ) : Prop where
  /-- The walk along the inverse of the word leads back, and makes neither node nor edge. -/
  trace_inverse : ∃ v, u.trace j w.inverse = (.ok (t.find i).1, v) ∧ v.forest.size = u.forest.size ∧
    v.ids = u.ids ∧ v.edges = u.edges
  /-- The table is deterministic after the walk. -/
  deterministic : u.Deterministic
  /-- The neighbours that there were are the neighbours after the walk. -/
  neighbours_eq : ∀ k < t.forest.size, ∀ x, (t.neighbours k x).1 ≠ [] →
    (u.neighbours k x).1 = (t.neighbours k x).1

/-- After any calls on a new table that leave it deterministic, a walk along a word that keeps to the cap is
undone by the walk along the inverse of the word. -/
theorem Reachable.retraces_of_trace (h : t.Reachable) (hd : t.Deterministic) (hi : i < t.forest.size)
    (hw : t.trace i w = (.ok j, u)) : Retraces t u i w j := by
  have hwf := h.wellFormed
  have hyields := hwf.trace_yields (L := fun _ => True) (J := fun _ _ _ => False) hi (w := w)
    fun _ _ => trivial
  rw [hw] at hyields
  obtain ⟨hm, -, hpath⟩ := hyields
  have hu := hwf.moves hm
  have hdu := hwf.deterministic_moves hm hd
  have hroot : u.root i = t.root i := root_eq_of_classes_eq hm.changes.classes_eq i
  have hj := hu.contains_of_path (hu.contains_root ((hwf.grows_moves hm).lt_size hi)) hpath
  obtain ⟨v, hback, hv⟩ := hu.trace_of_path hj (fun x _ i j k => hu.deterministic_iff.1 hdu i x j k)
    (hpath.inverse fun _ _ _ => Leads.inverse)
  refine ⟨⟨v, ?_, hv.size_eq, ?_, hv.edges_eq⟩, hdu, fun k hk x => hwf.neighbours_moves hm hd hk⟩
  · rw [hback, hroot]
    rfl
  · rw [ids, hv.rows_eq, ids]

/-- Calls after which the nodes 0, 1 and 4 are alive and a pass over all labels drops nothing. -/
def resolved : List Call := crowded ++ [.sweep ["a", "b"]]

/-- A walk that begins at a node that has been merged away, and on which the letter `b` leads to a node that
has just been defined and back from it. -/
theorem retraces_of_trace_resolved :
    ∃ t u, (start 4).history resolved = some t ∧ t.Deterministic ∧
      t.trace 2 [⟨"a", false⟩, ⟨"b", true⟩, ⟨"b", false⟩, ⟨"b", true⟩] = (.ok 5, u) ∧
      Retraces t u 2 [⟨"a", false⟩, ⟨"b", true⟩, ⟨"b", false⟩, ⟨"b", true⟩] 5 ∧
      ∃ v, u.trace 5 [⟨"b", false⟩, ⟨"b", true⟩, ⟨"b", false⟩, ⟨"a", true⟩] = (.ok 0, v) := by
  have heq : ((start 4).history resolved).map (fun t => (t.forest.size, (t.find 2).1, t.labels,
      (t.sweep ["a", "b"]).1,
      (t.trace 2 [⟨"a", false⟩, ⟨"b", true⟩, ⟨"b", false⟩, ⟨"b", true⟩]).1.toOption)) =
      some (5, 0, ["a", "b", "a"], 0, some 5) := by cbv
  obtain ⟨t, ht, heq⟩ := Option.map_eq_some_iff.1 heq
  simp only [Prod.mk.injEq] at heq
  obtain ⟨hsize, hfind, hlabels, hsweep, hwalk⟩ := heq
  have h : t.Reachable := ⟨4, start 4, resolved, rfl, ht⟩
  have hd := (h.wellFormed.deterministic_sweep (by simp [hlabels]) hsweep).1
  rcases hw : t.trace 2 [⟨"a", false⟩, ⟨"b", true⟩, ⟨"b", false⟩, ⟨"b", true⟩] with ⟨fault | j, u⟩ <;>
    rw [hw] at hwalk
  · simp [Except.toOption] at hwalk
  obtain rfl : j = 5 := Option.some.inj hwalk
  have hr := Reachable.retraces_of_trace h hd (by omega) hw
  obtain ⟨v, hv, -⟩ := hr.trace_inverse
  exact ⟨t, u, ht, hd, hw, hr, v, hfind ▸ hv⟩

end Table

end ToddCoxeter
