import ToddCoxeter.Loop
import ToddCoxeter.Proofs.Table.Moves

/-! # Coincidences are collapsed

A pass over the live nodes identifies nodes to which one letter leads from the same node
(`Table.Coincident`), and nothing else.  `Table.Swept` is what each part of a pass does: it moves by
such identifications, the number that it reports is the number of nodes that it drops, and if it drops
none, then it has changed nothing and found every letter single-valued where it looked.

`Table.WellFormed.sweep_swept` is the statement about a pass, and `Table.WellFormed.collapse_spec` the
one about the loop: in the end every letter leads from each node to one node at most
(`Table.SingleValued`).  `Table.WellFormed.collapse_eq` shows that the loop ends when a pass reports
that it has dropped no node, and `Table.WellFormed.exists_steps_pass_eq` that it ends if it is taken step
by step (`Table.pass`). -/

namespace ToddCoxeter.Table

/-- One letter leads from one node to both of these. -/
def Coincident (gens : List String) (t : Table) (a b : ℕ) : Prop :=
  ∃ i x, x.gen ∈ gens ∧ t.Leads i x (t.root a) ∧ t.Leads i x (t.root b)

/-- Each letter leads from each node to one node at most. -/
def SingleValued (gens : List String) (t : Table) : Prop :=
  ∀ i x, x.gen ∈ gens → ∀ j k, t.Leads i x j → t.Leads i x k → j = k

theorem Reshaped.singleValued {gens : List String} {t u : Table} (h : Reshaped t u)
    (ht : SingleValued gens t) : SingleValued gens u := by
  unfold SingleValued
  rwa [h.leads_eq]

/-- A table is single-valued if each letter leads from each live node to one neighbour at most. -/
theorem WellFormed.singleValued_iff {gens : List String} {t : Table} (h : t.WellFormed) :
    SingleValued gens t ↔
      ∀ i, t.contains i → ∀ x ∈ Letter.signed gens, (t.neighbours i x).1.length ≤ 1 := by
  have hmem : ∀ i, t.contains i → ∀ x j, j ∈ (t.neighbours i x).1 ↔ t.Leads i x j := by
    intro i hi x j
    rw [h.mem_neighbours (h.lt_of_contains hi), h.root_of_contains hi]
  constructor
  · intro hs i hi x hx
    cases hn : (t.neighbours i x).1 with
    | nil => exact Nat.zero_le 1
    | cons j js =>
        have hj := (hmem i hi x j).1 (hn ▸ List.mem_cons_self)
        rw [h.neighbours_eq_of_leads hi hj fun k hk => hs i x (Letter.mem_signed.1 hx) k j hk hj] at hn
        rw [← hn]
        exact Nat.le_refl 1
  · intro hle i x hx j k hj hk
    have hi := (h.contains_of_leads hj).1
    have hle := hle i hi x (Letter.mem_signed.2 hx)
    rw [← hmem i hi] at hj hk
    rcases Nat.le_one_iff_eq_zero_or_eq_one.1 hle with h0 | h1
    · rw [List.length_eq_zero_iff.1 h0] at hj
      exact absurd hj List.not_mem_nil
    · obtain ⟨m, hm⟩ := List.length_eq_one_iff.1 h1
      rw [hm, List.mem_singleton] at hj hk
      exact hj.trans hk.symm

theorem WellFormed.reshaped_of_singleValued {gens : List String} {t u : Table} (h : t.WellFormed)
    (hs : SingleValued gens t) (hm : Moves (fun _ => False) (Coincident gens) t u) : Reshaped t u := by
  induction hm with
  | refl => exact .refl t
  | tail _ hm hr =>
      cases hm with
      | reshape hr' => exact hr.trans hr'
      | attach hx => exact hx.elim
      | absorb ha hb hab hJ =>
          have hwf := h.reshaped hr
          obtain ⟨i, x, hx, hleada, hleadb⟩ := hJ
          have heq := hr.singleValued hs i x hx _ _ hleada hleadb
          rw [hwf.root_of_contains ha, hwf.root_of_contains hb] at heq
          omega

/-- A ground for identifying two nodes that does not depend on their order or on which nodes of their
trees are named, and that stays a ground in later tables. -/
structure Stable (J : Table → ℕ → ℕ → Prop) : Prop where
  symm : ∀ {t a b}, J t a b → J t b a
  root : ∀ {t a b}, J t a b → J t (t.root a) (t.root b)
  grows : ∀ {t u a b}, Grows t u → J t a b → J u a b

theorem Stable.minMax {J : Table → ℕ → ℕ → Prop} (hJ : Stable J) {t u : Table} {a b : ℕ}
    (h : J t a b) (hu : Reshaped t u) :
    J u (min (t.root a) (t.root b)) (max (t.root a) (t.root b)) := by
  have hab : J u (t.root a) (t.root b) := by
    rw [← hu.root_eq, ← hu.root_eq]
    exact hJ.root (hJ.grows hu.grows h)
  rcases le_total (t.root a) (t.root b) with hle | hle
  · rwa [min_eq_left hle, max_eq_right hle]
  · rw [min_eq_right hle, max_eq_left hle]
    exact hJ.symm hab

theorem stable_coincident (gens : List String) : Stable (Coincident gens) := by
  refine ⟨?_, ?_, ?_⟩
  · rintro t a b ⟨i, x, hx, ha, hb⟩
    exact ⟨i, x, hx, hb, ha⟩
  · rintro t a b ⟨i, x, hx, ha, hb⟩
    have hroot : ∀ j, t.root (t.root j) = t.root j := t.forest.root_root
    exact ⟨i, x, hx, by rwa [hroot], by rwa [hroot]⟩
  · rintro t u a b hg ⟨i, x, hx, ha, hb⟩
    refine ⟨u.root i, x, hx, ?_, ?_⟩
    · rw [← hg.root_root a]
      exact hg.leads ha
    · rw [← hg.root_root b]
      exact hg.leads hb

/-! ### Identifying several nodes with one -/

section identifyAll

variable {t : Table} {kept : ℕ}

theorem identifyAll_cons_of_ne {j : ℕ} (hj : j ≠ kept) (js : List ℕ) :
    t.identifyAll kept (j :: js) =
      (((t.identify kept j).2.identifyAll kept js).1 + 1,
        ((t.identify kept j).2.identifyAll kept js).2) := if_neg hj

theorem identifyAll_cons_self (js : List ℕ) :
    t.identifyAll kept (kept :: js) = t.identifyAll kept js := if_pos rfl

theorem WellFormed.identifyAll_moves {L : Letter → Prop} {J : Table → ℕ → ℕ → Prop}
    (h : t.WellFormed) (hJ : Stable J) (hk : kept < t.forest.size) {js : List ℕ}
    (hjs : ∀ j ∈ js, j < t.forest.size ∧ J t kept j) :
    Moves L J t (t.identifyAll kept js).2 := by
  induction js generalizing t with
  | nil => exact .refl
  | cons j js ih =>
      by_cases hj : j = kept
      · subst hj
        rw [identifyAll_cons_self]
        exact ih h hk fun i hi => hjs i (List.mem_cons_of_mem _ hi)
      · rw [identifyAll_cons_of_ne hj]
        obtain ⟨hlt, hj⟩ := hjs j List.mem_cons_self
        have hm := (h.identify_moves (L := L) hk hlt fun u hu => hJ.minMax hj hu).1
        have hg := h.grows_moves hm
        refine hm.trans (ih (h.moves hm) (hg.lt_size hk) fun i hi => ?_)
        obtain ⟨hi, hji⟩ := hjs i (List.mem_cons_of_mem _ hi)
        exact ⟨hg.lt_size hi, hJ.grows hg hji⟩

/-- Identifying different live nodes with a smaller one drops each of them. -/
theorem WellFormed.identifyAll_count (h : t.WellFormed) (hk : t.contains kept) {js : List ℕ}
    (hjs : ∀ j ∈ js, t.contains j ∧ kept ≤ j) (hnd : js.Nodup) :
    (t.identifyAll kept js).1 + (t.identifyAll kept js).2.live = t.live := by
  induction js generalizing t with
  | nil => exact Nat.zero_add _
  | cons j js ih =>
      obtain ⟨hnot, hnd⟩ := List.nodup_cons.1 hnd
      by_cases hj : j = kept
      · subst hj
        rw [identifyAll_cons_self]
        exact ih h hk (fun i hi => hjs i (List.mem_cons_of_mem _ hi)) hnd
      · rw [identifyAll_cons_of_ne hj]
        obtain ⟨hcj, hle⟩ := hjs j List.mem_cons_self
        have hlt : kept < j := by omega
        obtain ⟨u, hu, heq⟩ := t.identify_eq kept j
        rw [h.root_of_contains hk, h.root_of_contains hcj, if_neg (by omega),
          min_eq_left hle, max_eq_right hle] at heq
        rw [heq]
        have hwf := h.reshaped hu
        have huk : u.contains kept := by rwa [hu.contains_eq]
        have huj : u.contains j := by rwa [hu.contains_eq]
        have hlive := live_absorb (a := kept) huj
        rw [hu.live_eq] at hlive
        have hrest := ih (hwf.absorb huk huj hlt) (contains_absorb.2 ⟨Ne.symm hj, huk⟩)
          (fun i hi => ⟨contains_absorb.2 ⟨fun hij => hnot (hij ▸ hi), by
            rw [hu.contains_eq]
            exact (hjs i (List.mem_cons_of_mem _ hi)).1⟩,
            (hjs i (List.mem_cons_of_mem _ hi)).2⟩) hnd
        simp only
        omega

theorem identifyAll_eq_of_fst_eq_zero {js : List ℕ} (h0 : (t.identifyAll kept js).1 = 0) :
    (∀ j ∈ js, j = kept) ∧ (t.identifyAll kept js).2 = t := by
  induction js with
  | nil => exact ⟨fun j hj => absurd hj (by simp), rfl⟩
  | cons j js ih =>
      by_cases hj : j = kept
      · subst hj
        rw [identifyAll_cons_self] at h0 ⊢
        obtain ⟨hall, heq⟩ := ih h0
        exact ⟨List.forall_mem_cons.2 ⟨rfl, hall⟩, heq⟩
      · rw [identifyAll_cons_of_ne hj] at h0
        exact absurd h0 (Nat.succ_ne_zero _)

end identifyAll

/-! ### A pass and its parts -/

/-- A part of a pass comes from `t` to `r.2` by identifying coincident nodes, drops `r.1` nodes, and if
that are none, then it has changed nothing and `q` holds. -/
structure Swept (gens : List String) (t : Table) (r : ℕ × Table) (q : Prop) : Prop where
  moves : Moves (fun _ => False) (Coincident gens) t r.2
  count : r.1 + r.2.live = t.live
  settled : r.1 = 0 → Reshaped t r.2 ∧ q

section Swept

variable {gens : List String} {t : Table}

theorem Swept.andThen {m n : ℕ} {u v : Table} {q₁ q₂ q : Prop} (h₁ : Swept gens t (m, u) q₁)
    (h₂ : Swept gens u (n, v) q₂) (hq : Reshaped t u → q₁ → q₂ → q) :
    Swept gens t (m + n, v) q := by
  refine ⟨h₁.moves.trans h₂.moves, ?_, ?_⟩
  · have := h₁.count
    have := h₂.count
    simp only at *
    omega
  · intro h0
    have h0 : m + n = 0 := h0
    obtain ⟨hu, hq₁⟩ := h₁.settled (show m = 0 by omega)
    obtain ⟨hv, hq₂⟩ := h₂.settled (show n = 0 by omega)
    exact ⟨hu.trans hv, hq hu hq₁ hq₂⟩

theorem WellFormed.sweepLetter_swept (h : t.WellFormed) (i : ℕ) {x : Letter} (hx : x.gen ∈ gens) :
    Swept gens t (t.sweepLetter i x) (∀ j k, t.Leads i x j → t.Leads i x k → j = k) := by
  unfold sweepLetter
  split_ifs with hi
  · have hr := t.reshaped_neighbours i x
    have hnd := t.nodup_neighbours i x
    have hmem : ∀ j, j ∈ (t.neighbours i x).1 ↔ t.Leads i x j := by
      intro j
      rw [h.mem_neighbours (h.lt_of_contains hi), h.root_of_contains hi]
    rcases hnb : t.neighbours i x with ⟨_ | ⟨j, js⟩, u⟩ <;> rw [hnb] at hr hnd hmem
    · refine ⟨hr.moves, ?_, fun _ => ⟨hr, fun j k hj => ?_⟩⟩
      · exact (Nat.zero_add _).trans hr.live_eq
      · exact absurd ((hmem j).2 hj) (by simp)
    · have hwf := h.reshaped hr
      obtain ⟨hmin, hle⟩ := List.min?_eq_some_iff.1 (List.min?_cons' : (j :: js).min? = _)
      have hlive : ∀ k ∈ j :: js, u.contains k := fun k hk => by
        rw [hr.contains_eq]
        exact (h.contains_of_leads ((hmem k).1 hk)).2
      have hlead : ∀ k ∈ j :: js, u.Leads i x (u.root k) := fun k hk => by
        rw [hwf.root_of_contains (hlive k hk), hr.leads_iff]
        exact (hmem k).1 hk
      refine ⟨hr.moves.trans (hwf.identifyAll_moves (stable_coincident gens)
        (hwf.lt_of_contains (hlive _ hmin)) fun k hk => ⟨hwf.lt_of_contains (hlive k hk),
          i, x, hx, hlead _ hmin, hlead k hk⟩), ?_, fun h0 => ?_⟩
      · rw [← hr.live_eq]
        exact hwf.identifyAll_count (hlive _ hmin) (fun k hk => ⟨hlive k hk, hle k hk⟩) hnd
      · obtain ⟨hall, heq⟩ := identifyAll_eq_of_fst_eq_zero h0
        refine ⟨?_, fun a b ha hb => ?_⟩
        · show Reshaped t (u.identifyAll (js.foldl min j) (j :: js)).2
          rwa [heq]
        · rw [hall a ((hmem a).2 ha), hall b ((hmem b).2 hb)]
  · refine ⟨.refl, Nat.zero_add _, fun _ => ⟨.refl t, fun j k hj => ?_⟩⟩
    exact absurd (h.contains_of_leads hj).1 hi

theorem WellFormed.sweepNode_swept (h : t.WellFormed) (i : ℕ) {xs : List Letter}
    (hx : ∀ x ∈ xs, x.gen ∈ gens) :
    Swept gens t (t.sweepNode i xs) (∀ x ∈ xs, ∀ j k, t.Leads i x j → t.Leads i x k → j = k) := by
  induction xs generalizing t with
  | nil => exact ⟨.refl, Nat.zero_add _, fun _ => ⟨.refl t, fun x hx => absurd hx (by simp)⟩⟩
  | cons x xs ih =>
      have hfirst := h.sweepLetter_swept i (hx x List.mem_cons_self)
      have hrest := ih (h.moves hfirst.moves) fun y hy => hx y (List.mem_cons_of_mem _ hy)
      refine hfirst.andThen hrest fun hu hq₁ hq₂ => ?_
      have hu : Reshaped t (t.sweepLetter i x).2 := hu
      rw [hu.leads_eq] at hq₂
      exact List.forall_mem_cons.2 ⟨hq₁, hq₂⟩

theorem WellFormed.sweepNodes_swept (h : t.WellFormed) {xs : List Letter}
    (hx : ∀ x ∈ xs, x.gen ∈ gens) (is : List ℕ) :
    Swept gens t (t.sweepNodes xs is)
      (∀ i ∈ is, ∀ x ∈ xs, ∀ j k, t.Leads i x j → t.Leads i x k → j = k) := by
  induction is generalizing t with
  | nil => exact ⟨.refl, Nat.zero_add _, fun _ => ⟨.refl t, fun i hi => absurd hi (by simp)⟩⟩
  | cons i is ih =>
      have hfirst := h.sweepNode_swept i hx
      have hrest := ih (h.moves hfirst.moves)
      refine hfirst.andThen hrest fun hu hq₁ hq₂ => ?_
      have hu : Reshaped t (t.sweepNode i xs).2 := hu
      rw [hu.leads_eq] at hq₂
      exact List.forall_mem_cons.2 ⟨hq₁, hq₂⟩

/-- A pass drops as many nodes as it reports, and if it drops none, the table is single-valued. -/
theorem WellFormed.sweep_swept (h : t.WellFormed) (gens : List String) :
    Swept gens t (t.sweep gens) (SingleValued gens t) := by
  have hletters : ∀ x ∈ Letter.signed gens, x.gen ∈ gens := fun x => Letter.mem_signed.1
  have hswept := h.sweepNodes_swept hletters t.ids
  refine ⟨hswept.moves, hswept.count, fun h0 => ⟨(hswept.settled h0).1, ?_⟩⟩
  intro i x hx j k hj hk
  have hi := contains_iff_mem_ids.1 (h.contains_of_leads hj).1
  exact (hswept.settled h0).2 i hi x (Letter.mem_signed.2 hx) j k hj hk

/-- The loop goes on as long as a pass reports that it has dropped a node. -/
theorem WellFormed.collapse_eq (h : t.WellFormed) (gens : List String) :
    t.collapse gens =
      if 0 < (t.sweep gens).1 then (t.sweep gens).2.collapse gens else (t.sweep gens).2 := by
  have hcount := (h.sweep_swept gens).count
  rw [collapse]
  simp only [show (t.sweep gens).2.live < t.live ↔ 0 < (t.sweep gens).1 by omega]

/-- The loop identifies coincident nodes until the table is single-valued. -/
theorem WellFormed.collapse_spec (h : t.WellFormed) (gens : List String) :
    Moves (fun _ => False) (Coincident gens) t (t.collapse gens) ∧
      SingleValued gens (t.collapse gens) := by
  induction hn : t.live using Nat.strongRecOn generalizing t with
  | ind n ih =>
      have hswept := h.sweep_swept gens
      have hcount := hswept.count
      rw [h.collapse_eq]
      split_ifs with hpos
      · obtain ⟨hm, hs⟩ := ih _ (by omega) (h.moves hswept.moves) rfl
        exact ⟨hswept.moves.trans hm, hs⟩
      · obtain ⟨hr, hs⟩ := hswept.settled (by omega)
        exact ⟨hswept.moves, hr.singleValued hs⟩

end Swept

/-! ### The loop over the passes -/

/-- One pass of the loop that collapses a table; the loop goes on if a node is reported as dropped. -/
def pass (gens : List String) (t : Table) : Table ⊕ Table :=
  if 0 < (t.sweep gens).1 then .inl (t.sweep gens).2 else .inr (t.sweep gens).2

/-- The loop over the passes collapses the table, and takes no more passes than there are live nodes. -/
theorem WellFormed.exists_steps_pass_eq {t : Table} (h : t.WellFormed) (gens : List String) :
    ∃ n ≤ t.live, Loop.steps (pass gens) n t = .inr (t.collapse gens) := by
  induction hlive : t.live using Nat.strongRecOn generalizing t with
  | ind l ih =>
      have hswept := h.sweep_swept gens
      have hcount := hswept.count
      rw [h.collapse_eq]
      split_ifs with hpos
      · obtain ⟨n, hle, hn⟩ := ih _ (by omega) (h.moves hswept.moves) rfl
        refine ⟨n + 1, by omega, ?_⟩
        unfold Loop.steps pass
        rw [if_pos hpos]
        exact hn
      · refine ⟨1, hlive ▸ live_pos h.contains_zero, ?_⟩
        unfold Loop.steps pass
        rw [if_neg hpos]

end ToddCoxeter.Table
