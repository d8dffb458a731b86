import ToddCoxeter.Proofs.Table.Adjacency

/-! # The changes of a table

Everything that an enumeration does to a table while nodes are defined and identified is a sequence of
three changes: the forest is reshaped, a node is attached to a live node by a new edge
(`Table.attach`), and a live node is absorbed by a smaller one (`Table.absorb`).  For the last two this
module tells what becomes of roots, rows and edges, and that the table stays well-formed.  Between these
changes a node may be marked as complete (`Table.markComplete`).

`Table.Grows t t'` is what all changes have in common: no edge is lost, nodes that are identified stay
identified, and a live node keeps its mark of completeness.  Hence letters and words that lead from
one node to another do so ever after, up to identification (`Table.Grows.leads`, `Table.Grows.path`). -/

namespace ToddCoxeter.Table

/-- The table with a new node, to which the letter leads from `i` along a new edge. -/
def attach (t : Table) (i : ℕ) (x : Letter) : Table :=
  (t.addNode ((t.row i).label ++ [x])).addEdge (.along i x t.forest.size)

/-! ### Rows -/

section addNode

variable (t : Table) (label : Word)

theorem root_addNode (j : ℕ) : (t.addNode label).root j = t.root j := t.forest.root_push j

theorem size_addNode : (t.addNode label).forest.size = t.forest.size + 1 := t.forest.size_push

theorem contains_addNode {j : ℕ} :
    (t.addNode label).contains j ↔ j = t.forest.size ∨ t.contains j := by
  simp only [contains, addNode, Register.contains_insert]

theorem row_addNode (j : ℕ) :
    (t.addNode label).row j = if j = t.forest.size then { label } else t.row j := by
  simp only [row, addNode, Register.getD_insert, @eq_comm _ j]

/-- A new node is listed last. -/
theorem WellFormed.ids_addNode {t : Table} (h : t.WellFormed) :
    (t.addNode label).ids = t.ids ++ [t.forest.size] := by
  refine Register.keys_insert (Bool.not_eq_true _ ▸ fun hc => ?_)
  exact Nat.lt_irrefl _ (h.lt_of_contains hc)

theorem WellFormed.addNode {t : Table} (h : t.WellFormed) : (t.addNode label).WellFormed := by
  refine ⟨?_, h.descending.push, ?_, ?_, ?_, ?_⟩
  · rw [size_addNode]
    omega
  · intro i
    rw [contains_addNode, size_addNode, root_addNode, h.live_iff]
    constructor
    · rintro (rfl | ⟨hi, hr⟩)
      · exact ⟨by omega, Forest.root_of_size_le (Nat.le_refl _)⟩
      · exact ⟨by omega, hr⟩
    · rintro ⟨hi, hr⟩
      by_cases hn : i = t.forest.size
      · exact .inl hn
      · exact .inr ⟨by omega, hr⟩
  · intro e he b
    have := h.side_lt e he b
    rw [size_addNode]
    omega
  · intro i hi e b
    rw [row_addNode, root_addNode]
    split_ifs with hn
    · subst hn
      refine ⟨fun hmem => absurd hmem (by cases b <;> simp [Row.side]), fun hmem => ?_⟩
      have hlt : t.root (e.side b) < t.forest.size := Forest.root_lt_size (h.side_lt e hmem.1 b)
      exact absurd hmem.2 (by omega)
    · exact h.mem_side i (((t.contains_addNode label).1 hi).resolve_left hn) e b
  · -- The number of the new node is larger than all numbers given before.
    rw [h.ids_addNode, List.pairwise_append]
    refine ⟨h.sorted_ids, List.pairwise_singleton _ _, fun i hi j hj => ?_⟩
    rw [List.mem_singleton.1 hj]
    exact h.lt_of_contains (contains_iff_mem_ids.2 hi)

theorem WellFormed.live_addNode {t : Table} (h : t.WellFormed) :
    (t.addNode label).live = t.live + 1 := by
  rw [← length_ids, ← length_ids, h.ids_addNode, List.length_append, List.length_singleton]

end addNode

section addEdge

variable {t : Table} {e : Edge ℕ}

theorem contains_addEdge (j : ℕ) : (t.addEdge e).contains j = t.contains j := by
  simp only [contains, addEdge, Register.contains_modify]

theorem ids_addEdge : (t.addEdge e).ids = t.ids := rfl

theorem live_addEdge : (t.addEdge e).live = t.live := by
  rw [← length_ids, ← length_ids, ids_addEdge]

theorem mem_edges_addEdge {e' : Edge ℕ} : e' ∈ (t.addEdge e).edges ↔ e' ∈ t.edges ∨ e' = e := by
  simp only [addEdge, Array.mem_push]

theorem row_addEdge (hs : t.contains e.source) (ht : t.contains e.target) (j : ℕ) :
    (t.addEdge e).row j =
      { t.row j with
        outgoing := (t.row j).outgoing ++ if e.source = j then [e] else []
        incoming := (t.row j).incoming ++ if e.target = j then [e] else [] } := by
  have ht' : (t.rows.modify e.source fun row =>
      { row with outgoing := row.outgoing ++ [e] }).contains e.target := by
    rwa [Register.contains_modify]
  simp only [row, addEdge]
  rw [Register.getD_modify ht', Register.getD_modify hs]
  by_cases h₁ : e.source = j <;> by_cases h₂ : e.target = j <;> simp [h₁, h₂]

theorem side_row_addEdge (hs : t.contains e.source) (ht : t.contains e.target) (j : ℕ) (b : Bool) :
    ((t.addEdge e).row j).side b = (t.row j).side b ++ if e.side b = j then [e] else [] := by
  rw [row_addEdge hs ht]
  cases b <;> rfl

theorem WellFormed.addEdge (h : t.WellFormed) (hs : t.contains e.source)
    (ht : t.contains e.target) : (t.addEdge e).WellFormed := by
  have hside : ∀ b, t.contains (e.side b) := by
    intro b
    cases b
    · exact hs
    · exact ht
  refine ⟨h.pos, h.descending, ?_, ?_, ?_, h.sorted_ids⟩
  · intro i
    rw [contains_addEdge]
    exact h.live_iff i
  · intro e' he' b
    rcases mem_edges_addEdge.1 he' with he' | rfl
    · exact h.side_lt e' he' b
    · exact h.lt_of_contains (hside b)
  · intro i hi e' b
    rw [contains_addEdge] at hi
    have hroot : t.root (e.side b) = e.side b := h.root_of_contains (hside b)
    rw [side_row_addEdge hs ht, mem_edges_addEdge, List.mem_append, h.mem_side i hi]
    show _ ↔ _ ∧ t.root (e'.side b) = i
    rw [or_and_right]
    apply or_congr_right
    split_ifs with hi'
    · rw [List.mem_singleton]
      exact ⟨fun he => ⟨he, he ▸ hroot.trans hi'⟩, fun he => he.1⟩
    · refine ⟨fun hno => absurd hno (by simp), ?_⟩
      rintro ⟨rfl, hr⟩
      exact absurd (hroot.symm.trans hr) hi'

end addEdge

/-! ### Attaching a node -/

section attach

variable {t : Table} {i : ℕ} {x : Letter}

theorem root_attach (j : ℕ) : (t.attach i x).root j = t.root j :=
  t.root_addNode ((t.row i).label ++ [x]) j

theorem size_attach : (t.attach i x).forest.size = t.forest.size + 1 :=
  t.size_addNode ((t.row i).label ++ [x])

theorem contains_attach {j : ℕ} :
    (t.attach i x).contains j ↔ j = t.forest.size ∨ t.contains j := by
  unfold attach
  rw [contains_addEdge, contains_addNode]

theorem mem_edges_attach {e : Edge ℕ} :
    e ∈ (t.attach i x).edges ↔ e ∈ t.edges ∨ e = .along i x t.forest.size := mem_edges_addEdge

theorem contains_side_along (hi : t.contains i) (label : Word) (b : Bool) :
    (t.addNode label).contains ((Edge.along i x t.forest.size).side b) := by
  refine (Edge.forall_side (q := fun k => (t.addNode label).contains k) x).2 ⟨?_, ?_⟩ b
  · rw [Edge.tail_along]
    exact (t.contains_addNode label).2 (.inr hi)
  · rw [Edge.head_along]
    exact (t.contains_addNode label).2 (.inl rfl)

theorem complete_attach (hi : t.contains i) (j : ℕ) :
    ((t.attach i x).row j).complete =
      if j = t.forest.size then false else (t.row j).complete := by
  rw [attach, row_addEdge (contains_side_along hi _ false) (contains_side_along hi _ true),
    row_addNode]
  split_ifs <;> rfl

theorem WellFormed.attach (h : t.WellFormed) (hi : t.contains i) : (t.attach i x).WellFormed :=
  (h.addNode _).addEdge (contains_side_along hi _ false) (contains_side_along hi _ true)

theorem WellFormed.live_attach (h : t.WellFormed) : (t.attach i x).live = t.live + 1 := by
  unfold Table.attach
  rw [live_addEdge, h.live_addNode]

theorem WellFormed.leads_attach (h : t.WellFormed) (hi : t.contains i) :
    (t.attach i x).Leads i x t.forest.size := by
  refine ⟨.along i x t.forest.size, mem_edges_attach.2 (.inr rfl), Edge.label_along _ _ _, ?_, ?_⟩
  · rw [Edge.tail_along, root_attach, h.root_of_contains hi]
  · rw [Edge.head_along, root_attach]
    exact Forest.root_of_size_le (Nat.le_refl _)

end attach

/-! ### Absorbing a node -/

section absorb

variable {t : Table} {a b : ℕ}

theorem WellFormed.root_absorb (h : t.WellFormed) (ha : t.contains a) (hb : t.contains b)
    (hab : a < b) (j : ℕ) : (t.absorb a b).root j = if t.root j = b then a else t.root j :=
  Forest.root_link (h.root_of_contains ha) (h.root_of_contains hb) hab (h.lt_of_contains hb) j

theorem size_absorb : (t.absorb a b).forest.size = t.forest.size := t.forest.size_link b a

theorem contains_absorb {j : ℕ} : (t.absorb a b).contains j ↔ j ≠ b ∧ t.contains j := by
  simp only [contains, absorb, Register.contains_modify, Register.contains_erase]

theorem ids_absorb : (t.absorb a b).ids = t.ids.erase b := rfl

theorem row_absorb (ha : t.contains a) (hab : a ≠ b) {j : ℕ} (hj : j ≠ b) :
    (t.absorb a b).row j = if a = j then (t.row a).absorb (t.row b) else t.row j := by
  have ha' : (t.rows.erase b).contains a := Register.contains_erase.2 ⟨hab, ha⟩
  simp only [row, absorb]
  rw [Register.getD_modify ha', Register.getD_erase _ hj.symm]
  split_ifs with haj
  · rw [haj]
  · rfl

theorem side_absorb (row dropped : Row) (s : Bool) :
    (row.absorb dropped).side s = row.side s ++ dropped.side s := by
  cases s <;> rfl

theorem complete_absorb (ha : t.contains a) (hab : a ≠ b) {j : ℕ} (hj : j ≠ b) :
    ((t.absorb a b).row j).complete = (t.row j).complete := by
  rw [row_absorb ha hab hj]
  split_ifs with haj
  · rw [← haj]
    rfl
  · rfl

theorem live_absorb (hb : t.contains b) : (t.absorb a b).live + 1 = t.live := by
  have hsize := Register.size_erase hb
  rwa [← Register.size_modify] at hsize

theorem WellFormed.absorb (h : t.WellFormed) (ha : t.contains a) (hb : t.contains b)
    (hab : a < b) : (t.absorb a b).WellFormed := by
  have hroot := h.root_absorb ha hb hab
  have hra := h.root_of_contains ha
  have hrb := h.root_of_contains hb
  refine ⟨?_, ?_, ?_, ?_, ?_, ?_⟩
  · rw [size_absorb]
    exact h.pos
  · exact h.descending.link (by omega)
  · intro i
    rw [contains_absorb, size_absorb, hroot, h.live_iff]
    constructor
    · rintro ⟨hib, hi, hr⟩
      exact ⟨hi, by rw [hr, if_neg hib]⟩
    · rintro ⟨hi, hr⟩
      split_ifs at hr with hib
      · subst hr
        omega
      · exact ⟨fun hno => hib (hr.trans hno), hi, hr⟩
  · intro e he s
    rw [size_absorb]
    exact h.side_lt e he s
  · intro i hi e s
    obtain ⟨hib, hi⟩ := contains_absorb.1 hi
    rw [row_absorb ha (by omega) hib, hroot]
    show _ ↔ e ∈ t.edges ∧ _
    split_ifs with hai hre hre
    · subst hai
      rw [side_absorb, List.mem_append, h.mem_side a ha, h.mem_side b hb, hre]
      tauto
    · subst hai
      rw [side_absorb, List.mem_append, h.mem_side a ha, h.mem_side b hb]
      tauto
    · rw [h.mem_side i hi, hre]
      constructor
      · rintro ⟨-, rfl⟩
        exact absurd rfl hib
      · rintro ⟨-, rfl⟩
        exact absurd rfl hai
    · exact h.mem_side i hi e s
  · rw [ids_absorb]
    exact h.sorted_ids.sublist List.erase_sublist

end absorb

/-! ### Marking a node as complete -/

section markComplete

variable {t : Table} {i : ℕ}

theorem contains_markComplete (j : ℕ) : (t.markComplete i).contains j = t.contains j :=
  Register.contains_modify

theorem live_markComplete : (t.markComplete i).live = t.live := Register.size_modify

theorem WellFormed.row_markComplete (h : t.WellFormed) (hi : i < t.forest.size) (j : ℕ) :
    (t.markComplete i).row j =
      if t.root i = j then { t.row j with complete := true } else t.row j :=
  Register.getD_modify (h.contains_root hi) _

theorem WellFormed.side_markComplete (h : t.WellFormed) (hi : i < t.forest.size) (j : ℕ) (b : Bool) :
    ((t.markComplete i).row j).side b = (t.row j).side b := by
  rw [h.row_markComplete hi]
  split_ifs <;> rfl

theorem WellFormed.markComplete (h : t.WellFormed) (hi : i < t.forest.size) :
    (t.markComplete i).WellFormed := by
  refine ⟨h.pos, h.descending, fun j => ?_, h.side_lt, fun j hj e b => ?_, h.sorted_ids⟩
  · rw [contains_markComplete]
    exact h.live_iff j
  · rw [contains_markComplete] at hj
    rw [h.side_markComplete hi]
    exact h.mem_side j hj e b

end markComplete

theorem WellFormed.of_eq {t t' : Table} (h : t.WellFormed) (hforest : t'.forest = t.forest)
    (hrows : t'.rows = t.rows) (hedges : t'.edges = t.edges) : t'.WellFormed := by
  obtain ⟨cap, forest, rows, edges, columns, closed, log⟩ := t
  obtain ⟨cap', forest', rows', edges', columns', closed', log'⟩ := t'
  obtain rfl : forest' = forest := hforest
  obtain rfl : rows' = rows := hrows
  obtain rfl : edges' = edges := hedges
  exact ⟨h.pos, h.descending, h.live_iff, h.side_lt, h.mem_side, h.sorted_ids⟩

/-! ### What all changes have in common -/

/-- No edge is lost, identified nodes stay identified, dropped nodes stay dropped, and the marks of
completeness stay. -/
structure Grows (t t' : Table) : Prop where
  size_le : t.forest.size ≤ t'.forest.size
  mem_edges : ∀ e ∈ t.edges, e ∈ t'.edges
  root_root : ∀ i, t'.root (t.root i) = t'.root i
  contains : ∀ i < t.forest.size, t'.contains i → t.contains i
  complete : ∀ i < t.forest.size, t'.contains i → (t.row i).complete → (t'.row i).complete

namespace Grows

theorem refl (t : Table) : Grows t t :=
  ⟨Nat.le_refl _, fun _ he => he, t.forest.root_root, fun _ _ hi => hi, fun _ _ _ hc => hc⟩

theorem lt_size {t t' : Table} (h : Grows t t') {i : ℕ} (hi : i < t.forest.size) :
    i < t'.forest.size := by
  have := h.size_le
  omega

theorem trans {t u v : Table} (h₁ : Grows t u) (h₂ : Grows u v) : Grows t v := by
  have hlt : ∀ i < t.forest.size, i < u.forest.size := fun _ => h₁.lt_size
  refine ⟨h₁.size_le.trans h₂.size_le, fun e he => h₂.mem_edges e (h₁.mem_edges e he), ?_, ?_, ?_⟩
  · intro i
    rw [← h₂.root_root, h₁.root_root, h₂.root_root]
  · intro i hi hc
    exact h₁.contains i hi (h₂.contains i (hlt i hi) hc)
  · intro i hi hc ht
    have hu := h₂.contains i (hlt i hi) hc
    exact h₂.complete i (hlt i hi) hc (h₁.complete i hi hu ht)

theorem leads {t t' : Table} (h : Grows t t') {i j : ℕ} {x : Letter} (hx : t.Leads i x j) :
    t'.Leads (t'.root i) x (t'.root j) := by
  obtain ⟨e, he, hl, rfl, rfl⟩ := hx
  exact ⟨e, h.mem_edges e he, hl, (h.root_root _).symm, (h.root_root _).symm⟩

theorem path {t t' : Table} (h : Grows t t') {i j : ℕ} {w : Word} (hw : Path t.Leads i w j) :
    Path t'.Leads (t'.root i) w (t'.root j) :=
  Path.map (f := t'.root) (fun _ _ _ => h.leads) hw

theorem leads_of_contains {t t' : Table} (h : Grows t t') (hwf : t'.WellFormed) {i j : ℕ} {x : Letter}
    (hi : t'.contains i) (hx : t.Leads i x j) : t'.Leads i x (t'.root j) := by
  have hlead := h.leads hx
  rwa [hwf.root_of_contains hi] at hlead

theorem path_of_contains {t t' : Table} (h : Grows t t') (hwf : t'.WellFormed) {i j : ℕ} {w : Word}
    (hi : t'.contains i) (hj : t'.contains j) (hw : Path t.Leads i w j) : Path t'.Leads i w j := by
  have hpath := h.path hw
  rwa [hwf.root_of_contains hi, hwf.root_of_contains hj] at hpath

theorem of_eq {t t' : Table} (hforest : t'.forest = t.forest) (hrows : t'.rows = t.rows)
    (hedges : t'.edges = t.edges) : Grows t t' := by
  obtain ⟨cap, forest, rows, edges, columns, closed, log⟩ := t
  obtain ⟨cap', forest', rows', edges', columns', closed', log'⟩ := t'
  obtain rfl : forest' = forest := hforest
  obtain rfl : rows' = rows := hrows
  obtain rfl : edges' = edges := hedges
  exact ⟨Nat.le_refl _, fun _ he => he, forest'.root_root, fun _ _ hi => hi, fun _ _ _ hc => hc⟩

theorem root_le {t t' : Table} (h : Grows t t') (i : ℕ) : t'.root i ≤ t.root i := by
  rw [← h.root_root]
  exact t'.forest.root_le _

end Grows

/-- A node that is dropped is absorbed by a smaller one, which was alive before. -/
theorem WellFormed.root_lt_of_not_contains {t t' : Table} (h : t.WellFormed) (h' : t'.WellFormed)
    (hg : Grows t t') {i : ℕ} (hi : t.contains i) (hi' : ¬ t'.contains i) :
    t'.root i < i ∧ t.contains (t'.root i) := by
  have hlt := h.lt_of_contains hi
  have hroot := h'.contains_root (hg.lt_size hlt)
  have hri : t'.root i < i := by
    have hne : t'.root i ≠ i := fun heq => hi' (heq ▸ hroot)
    have := t'.root_le i
    omega
  exact ⟨hri, hg.contains _ (hri.trans hlt) hroot⟩

theorem Reshaped.grows {t t' : Table} (h : Reshaped t t') : Grows t t' := by
  refine ⟨h.size_eq.ge, ?_, ?_, ?_, ?_⟩
  · intro e he
    rwa [h.edges_eq]
  · intro i
    rw [h.root_eq, h.root_eq]
    exact t.forest.root_root i
  · intro i _ hi
    rwa [h.contains_eq] at hi
  · intro i _ _ hc
    rwa [h.row_eq]

theorem grows_addNode (t : Table) (label : Word) : Grows t (t.addNode label) := by
  refine ⟨?_, fun _ he => he, fun j => ?_, fun j hj hc => ?_, fun j hj _ hc => ?_⟩
  · rw [size_addNode]
    omega
  · rw [root_addNode, root_addNode]
    exact t.forest.root_root j
  · exact ((t.contains_addNode label).1 hc).resolve_left (by omega)
  · rwa [row_addNode, if_neg (by omega)]

theorem WellFormed.grows_markComplete {t : Table} (h : t.WellFormed) {i : ℕ} (hi : i < t.forest.size) :
    Grows t (t.markComplete i) := by
  refine ⟨Nat.le_refl _, fun _ he => he, t.forest.root_root, fun j _ hj => ?_, fun j _ _ hc => ?_⟩
  · rwa [contains_markComplete] at hj
  · rw [h.row_markComplete hi]
    split_ifs
    · rfl
    · exact hc

theorem grows_attach {t : Table} {i : ℕ} (hi : t.contains i) (x : Letter) :
    Grows t (t.attach i x) := by
  refine ⟨?_, fun e he => mem_edges_attach.2 (.inl he), ?_, ?_, ?_⟩
  · rw [size_attach]
    omega
  · intro j
    rw [root_attach, root_attach]
    exact t.forest.root_root j
  · intro j hj hc
    exact (contains_attach.1 hc).resolve_left (by omega)
  · intro j hj _ hc
    rwa [complete_attach hi, if_neg (by omega)]

/-- Attaching a node lets the letter lead to it, and its inverse back, and no other letter. -/
theorem WellFormed.leads_attach_iff {t : Table} (h : t.WellFormed) {i : ℕ} (hi : t.contains i)
    {x y : Letter} {a b : ℕ} :
    (t.attach i x).Leads a y b ↔ t.Leads a y b ∨
      (a = i ∧ y = x ∧ b = t.forest.size) ∨ (a = t.forest.size ∧ y = x.inverse ∧ b = i) := by
  have hnew : (t.attach i x).Leads i x t.forest.size := h.leads_attach hi
  constructor
  · rintro ⟨e, he, hl, ha, hb⟩
    rw [root_attach] at ha hb
    rcases mem_edges_attach.1 he with he | rfl
    · exact .inl ⟨e, he, hl, ha, hb⟩
    · have hroot : t.root t.forest.size = t.forest.size := Forest.root_of_size_le (Nat.le_refl _)
      rw [Edge.label_along] at hl
      have hy : y = x ∨ y = x.inverse := by
        obtain ⟨g, c⟩ := x
        obtain ⟨g', c'⟩ := y
        obtain rfl : g = g' := hl
        cases c <;> cases c' <;> simp [Letter.inverse]
      rcases hy with rfl | rfl
      · rw [Edge.tail_along, h.root_of_contains hi] at ha
        rw [Edge.head_along, hroot] at hb
        exact .inr (.inl ⟨ha.symm, rfl, hb.symm⟩)
      · rw [Edge.tail_inverse, Edge.head_along, hroot] at ha
        rw [Edge.head_inverse, Edge.tail_along, h.root_of_contains hi] at hb
        exact .inr (.inr ⟨ha.symm, rfl, hb.symm⟩)
  · rintro (hold | ⟨rfl, rfl, rfl⟩ | ⟨rfl, rfl, rfl⟩)
    · have hlead := (grows_attach hi x).leads hold
      rw [root_attach, root_attach, h.root_of_contains (h.contains_of_leads hold).1,
        h.root_of_contains (h.contains_of_leads hold).2] at hlead
      exact hlead
    · exact hnew
    · exact hnew.inverse

theorem WellFormed.grows_absorb {t : Table} (h : t.WellFormed) {a b : ℕ} (ha : t.contains a)
    (hb : t.contains b) (hab : a < b) : Grows t (t.absorb a b) := by
  refine ⟨(size_absorb (t := t)).ge, fun e he => he, ?_, ?_, ?_⟩
  · intro j
    have hidem : t.root (t.root j) = t.root j := t.forest.root_root j
    rw [h.root_absorb ha hb hab, h.root_absorb ha hb hab, hidem]
  · intro j _ hc
    exact (contains_absorb.1 hc).2
  · intro j _ hj hc
    rwa [complete_absorb ha (by omega) (contains_absorb.1 hj).1]

end ToddCoxeter.Table
