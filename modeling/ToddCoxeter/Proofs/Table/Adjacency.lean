import ToddCoxeter.Proofs.Lists
import ToddCoxeter.Proofs.Table.Roots
import ToddCoxeter.Table.Coincidence
import ToddCoxeter.Table.Definition

/-! # Edges and paths of a table

What a table says about its nodes, with all ends of edges looked up in the forest:

* `Table.Leads t i x j`: the letter `x` leads from the node `i` to the node `j` along some edge;
* `Path R i w j`: the letters of the word `w` lead one after the other from `i` to `j`, where `R` tells
  where single letters lead;
* `Table.WellFormed t`: the three places where a table keeps its nodes and edges agree.  The rows are
  those of the roots of the forest, edges have ends that were made, and a row has exactly the edges at
  its node.

In a well-formed table the neighbours of a node are the nodes to which the letter leads
(`Table.WellFormed.mem_neighbours`). -/

namespace ToddCoxeter

namespace Edge

variable {ν : Type}

/-- The final or the initial end of the edge. -/
def side (e : Edge ν) (final : Bool) : ν := if final then e.target else e.source

/-- The end of the edge at which a step along the letter begins. -/
def tail (e : Edge ν) (x : Letter) : ν := e.side x.inverted

/-- The end of the edge to which a step along the letter leads. -/
def head (e : Edge ν) (x : Letter) : ν := e.side !x.inverted

/-- The edge along which the letter leads from `i` to `j`. -/
def along (i : ν) (x : Letter) (j : ν) : Edge ν :=
  if x.inverted then ⟨j, i, x.gen⟩ else ⟨i, j, x.gen⟩

@[simp] theorem tail_inverse (e : Edge ν) (x : Letter) : e.tail x.inverse = e.head x := rfl

@[simp] theorem head_inverse (e : Edge ν) (x : Letter) : e.head x.inverse = e.tail x := by
  simp [tail, head]

@[simp] theorem label_along (i j : ν) (x : Letter) : (along i x j).label = x.gen := by
  unfold along
  split <;> rfl

@[simp] theorem tail_along (i j : ν) (x : Letter) : (along i x j).tail x = i := by
  cases h : x.inverted <;> simp [along, tail, side, h]

@[simp] theorem head_along (i j : ν) (x : Letter) : (along i x j).head x = j := by
  cases h : x.inverted <;> simp [along, head, side, h]

theorem forall_side {e : Edge ν} {q : ν → Prop} (x : Letter) :
    (∀ b, q (e.side b)) ↔ q (e.tail x) ∧ q (e.head x) := by
  cases h : x.inverted <;> simp [tail, head, h, and_comm]

end Edge

/-- The edges that have their final or their initial end at the node of the row. -/
def Row.side (row : Row) (final : Bool) : List (Edge ℕ) :=
  if final then row.incoming else row.outgoing

/-- The letters of the word lead one after the other from `i` to `j`, where `R` tells where single
letters lead. -/
def Path (R : ℕ → Letter → ℕ → Prop) : ℕ → Word → ℕ → Prop
  | i, [], j => i = j
  | i, x :: w, j => ∃ k, R i x k ∧ Path R k w j

namespace Path

variable {R : ℕ → Letter → ℕ → Prop}

theorem append {u v : Word} {i j : ℕ} :
    Path R i (u ++ v) j ↔ ∃ k, Path R i u k ∧ Path R k v j := by
  induction u generalizing i with
  | nil => simp [Path]
  | cons x u ih =>
      simp only [List.cons_append, Path, ih]
      constructor
      · rintro ⟨m, hm, k, hk, hj⟩
        exact ⟨k, ⟨m, hm, hk⟩, hj⟩
      · rintro ⟨k, ⟨m, hm, hk⟩, hj⟩
        exact ⟨m, hm, k, hk, hj⟩

theorem singleton {x : Letter} {i j : ℕ} : Path R i [x] j ↔ R i x j := by simp [Path]

/-- A path does not leave a set that its letters do not lead out of. -/
theorem mem {S : Set ℕ} {w : Word} {i j : ℕ} (hS : ∀ i ∈ S, ∀ x ∈ w, ∀ j, R i x j → j ∈ S)
    (hi : i ∈ S) (hw : Path R i w j) : j ∈ S := by
  induction w generalizing i with
  | nil => exact hw ▸ hi
  | cons x w ih =>
      obtain ⟨k, hk, hj⟩ := hw
      exact ih (fun a ha y hy => hS a ha y (List.mem_cons_of_mem x hy))
        (hS i hi x List.mem_cons_self k hk) hj

theorem unique {gens : List String}
    (hR : ∀ i x, x.gen ∈ gens → ∀ j k, R i x j → R i x k → j = k) {w : Word} {i j k : ℕ}
    (hw : ∀ x ∈ w, x.gen ∈ gens) (hj : Path R i w j) (hk : Path R i w k) : j = k := by
  induction w generalizing i with
  | nil => exact hj.symm.trans hk
  | cons x w ih =>
      obtain ⟨a, ha, hj⟩ := hj
      obtain ⟨b, hb, hk⟩ := hk
      obtain rfl := hR i x (hw x List.mem_cons_self) a b ha hb
      exact ih (fun y hy => hw y (List.mem_cons_of_mem x hy)) hj hk

theorem map {R' : ℕ → Letter → ℕ → Prop} {f : ℕ → ℕ}
    (hR : ∀ i x j, R i x j → R' (f i) x (f j)) {w : Word} {i j : ℕ} (h : Path R i w j) :
    Path R' (f i) w (f j) := by
  induction w generalizing i with
  | nil => exact congrArg f h
  | cons x w ih =>
      obtain ⟨k, hk, hj⟩ := h
      exact ⟨f k, hR i x k hk, ih hj⟩

end Path

namespace Table

/-- The letter leads from the node `i` to the node `j` along an edge. -/
def Leads (t : Table) (i : ℕ) (x : Letter) (j : ℕ) : Prop :=
  ∃ e ∈ t.edges, e.label = x.gen ∧ t.root (e.tail x) = i ∧ t.root (e.head x) = j

theorem Leads.inverse {t : Table} {i j : ℕ} {x : Letter} (h : t.Leads i x j) :
    t.Leads j x.inverse i := by
  obtain ⟨e, he, hl, hi, hj⟩ := h
  exact ⟨e, he, hl, by rwa [Edge.tail_inverse], by rwa [Edge.head_inverse]⟩

theorem leads_inverse {t : Table} {i j : ℕ} {x : Letter} :
    t.Leads i x.inverse j ↔ t.Leads j x i :=
  ⟨fun h => by simpa using h.inverse, Leads.inverse⟩

theorem Reshaped.leads_iff {t t' : Table} (h : Reshaped t t') {i j : ℕ} {x : Letter} :
    t'.Leads i x j ↔ t.Leads i x j := by
  simp only [Leads, h.edges_eq, h.root_eq]

theorem Reshaped.leads_eq {t t' : Table} (h : Reshaped t t') : t'.Leads = t.Leads := by
  funext i x j
  exact propext h.leads_iff

/-- Rows, edges and forest agree with each other. -/
structure WellFormed (t : Table) : Prop where
  /-- There is a first node. -/
  pos : 0 < t.forest.size
  /-- No node points to a larger one. -/
  descending : t.forest.Descending
  /-- The live nodes are the roots. -/
  live_iff : ∀ i, t.contains i ↔ i < t.forest.size ∧ t.root i = i
  /-- Edges begin and end at nodes. -/
  side_lt : ∀ e ∈ t.edges, ∀ b, e.side b < t.forest.size
  /-- A row has exactly the edges at its node. -/
  mem_side : ∀ i, t.contains i → ∀ e b, e ∈ (t.row i).side b ↔ e ∈ t.edges ∧ t.root (e.side b) = i
  /-- Live nodes are listed in increasing order. -/
  sorted_ids : t.ids.Pairwise (· < ·)

theorem contains_iff_mem_ids {t : Table} {i : ℕ} : t.contains i ↔ i ∈ t.ids :=
  Register.contains_iff_mem_keys

theorem nodup_ids (t : Table) : t.ids.Nodup := t.rows.nodup_keys

theorem length_ids (t : Table) : t.ids.length = t.live := t.rows.length_keys

theorem live_pos {t : Table} {i : ℕ} (hi : t.contains i) : 0 < t.live := by
  rw [← length_ids]
  exact List.length_pos_of_mem (contains_iff_mem_ids.1 hi)

namespace WellFormed

variable {t : Table} (h : t.WellFormed)
include h

theorem lt_of_contains {i : ℕ} (hi : t.contains i) : i < t.forest.size := ((h.live_iff i).1 hi).1

theorem root_of_contains {i : ℕ} (hi : t.contains i) : t.root i = i := ((h.live_iff i).1 hi).2

theorem map_id_nodes : t.nodes.map Node.id = t.ids := by
  rw [nodes, List.map_map]
  refine (List.map_congr_left fun i hi => ?_).trans (List.map_id _)
  exact h.root_of_contains (contains_iff_mem_ids.2 hi)

theorem contains_root {i : ℕ} (hi : i < t.forest.size) : t.contains (t.root i) :=
  (h.live_iff _).2 ⟨Forest.root_lt_size hi, t.forest.root_root i⟩

theorem contains_zero : t.contains 0 :=
  (h.live_iff 0).2 ⟨h.pos, Nat.le_zero.1 (t.forest.root_le 0)⟩

theorem contains_of_leads {i j : ℕ} {x : Letter} (hx : t.Leads i x j) :
    t.contains i ∧ t.contains j := by
  obtain ⟨e, he, -, rfl, rfl⟩ := hx
  exact ⟨h.contains_root (h.side_lt e he _), h.contains_root (h.side_lt e he _)⟩

theorem contains_of_path {i j : ℕ} {w : Word} (hi : t.contains i) (hw : Path t.Leads i w j) :
    t.contains j :=
  hw.mem (S := {i | t.contains i}) (fun _ _ _ _ _ hx => (h.contains_of_leads hx).2) hi

/-- The far ends that a row stores for a letter are those of the edges along which it leads. -/
theorem mem_farEnds {i k : ℕ} (hi : t.contains i) (x : Letter) :
    k ∈ (t.row i).farEnds x ↔
      ∃ e ∈ t.edges, e.label = x.gen ∧ t.root (e.tail x) = i ∧ e.head x = k := by
  have hside : (t.row i).farEnds x =
      (((t.row i).side x.inverted).filter (·.label = x.gen)).map fun e => e.head x := by
    cases hx : x.inverted <;> simp [Row.farEnds, Row.side, Edge.head, Edge.side, hx]
  simp only [hside, List.mem_map, List.mem_filter, h.mem_side i hi, decide_eq_true_eq, and_assoc,
    Edge.tail, and_left_comm]

theorem mem_map_farEnds {i j : ℕ} (hi : t.contains i) (x : Letter) :
    j ∈ ((t.row i).farEnds x).map t.root ↔ t.Leads i x j := by
  simp only [List.mem_map, h.mem_farEnds hi, Leads]
  constructor
  · rintro ⟨k, ⟨e, he, hl, hr, rfl⟩, rfl⟩
    exact ⟨e, he, hl, hr, rfl⟩
  · rintro ⟨e, he, hl, hr, rfl⟩
    exact ⟨e.head x, ⟨e, he, hl, hr, rfl⟩, rfl⟩

/-- The neighbours of a node are the nodes to which the letter leads. -/
theorem mem_neighbours {i j : ℕ} (hi : i < t.forest.size) (x : Letter) :
    j ∈ (t.neighbours i x).1 ↔ t.Leads (t.root i) x j := by
  rw [fst_neighbours, List.mem_eraseDups, h.mem_map_farEnds (h.contains_root hi)]

theorem reshaped {t' : Table} (ht : Reshaped t t') : t'.WellFormed := by
  obtain ⟨f, hf, rfl⟩ := ht
  have hroot : ∀ i, f.root i = t.root i := hf.root_eq
  refine ⟨?_, hf.descending h.descending, ?_, ?_, ?_, h.sorted_ids⟩
  · exact hf.size_eq ▸ h.pos
  · intro i
    simp only [root, hroot, hf.size_eq]
    exact h.live_iff i
  · intro e he b
    rw [hf.size_eq]
    exact h.side_lt e he b
  · intro i hi e b
    simp only [root, hroot]
    exact h.mem_side i hi e b

end WellFormed

theorem nodup_neighbours (t : Table) (i : ℕ) (x : Letter) : (t.neighbours i x).1.Nodup := by
  rw [fst_neighbours]
  exact nodup_eraseDups _

/-! ### The table with the first node alone -/

theorem row_start (cap j : ℕ) : (start cap).row j = { label := [] } := by
  simp only [row, start, Register.getD_insert, Register.getD_empty, ite_self]

theorem contains_start (cap j : ℕ) : (start cap).contains j ↔ j = 0 := by
  simp only [contains, start, Register.contains_insert, Register.contains_empty, Bool.false_eq_true,
    or_false]

theorem ids_start (cap : ℕ) : (start cap).ids = [0] := Register.keys_insert Register.contains_empty

theorem wellFormed_start (cap : ℕ) : (start cap).WellFormed := by
  have hparent : ∀ i p : ℕ, (start cap).forest.parent[i]? = some p → i = p := by
    intro i p hp
    simp only [start, Forest.discrete, Array.getElem?_range] at hp
    split_ifs at hp
    exact Option.some.inj hp
  have hroot : ∀ i, (start cap).root i = i := Forest.root_discrete 1
  have hsize : (start cap).forest.size = 1 := Array.size_range
  refine ⟨hsize ▸ Nat.one_pos, fun i p hp => (hparent i p hp).ge, ?_, ?_, ?_, ?_⟩
  · intro i
    rw [contains_start, hroot, hsize]
    omega
  · intro e he
    exact absurd he (Array.not_mem_empty e)
  · intro i _ e b
    rw [row_start]
    refine ⟨fun he => absurd he (by cases b <;> simp [Row.side]), fun he => ?_⟩
    exact absurd he.1 (Array.not_mem_empty e)
  · rw [ids_start]
    exact List.pairwise_singleton _ 0

end Table

end ToddCoxeter
