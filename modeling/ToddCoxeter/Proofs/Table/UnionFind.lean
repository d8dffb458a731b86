import ToddCoxeter.Proofs.Table.Classes

/-! # Nodes under union and find

The nodes of a table are kept in a union–find structure.  Here its meaning is told for any history of
calls: two nodes are represented by the same node if and only if they are related by the equivalence
relation that is generated by all pairs identified so far (`Table.WellFormed.classes_history`), and each
node is represented by the smallest node related to it (`Table.Represents`).  The table lists its live
nodes in the order in which their rows were entered, and this is the increasing order of their numbers: a
new row comes last and has the largest number, merging erases a row, and no row is entered again.

To find a representative, one loop follows the parents up to the root (`Forest.climb`) and another lets the
nodes on the way point to the root (`Forest.shorten`).  Both end where no parent is larger than its child,
with what `Forest.find` gives (`Forest.Descending.exists_steps_climb`,
`Forest.Descending.exists_steps_shorten`). -/

namespace ToddCoxeter

namespace Forest

variable {f : Forest} {i r : ℕ}

/-- One step of the loop that looks for a root: it ends at a node that is its own parent, and fails at a
number that is no node. -/
def climb (f : Forest) (i : ℕ) : ℕ ⊕ Option ℕ :=
  match f.parent[i]? with
  | some p => if p = i then .inr (some i) else .inl p
  | none => .inr none

/-- One step of the loop that lets the nodes on the way point to the root: it ends at a node that does so,
and fails at a number that is no node. -/
def shorten (r : ℕ) (s : Forest × ℕ) : (Forest × ℕ) ⊕ Option Forest :=
  match s.1.parent[s.2]? with
  | some p => if p = r then .inr (some s.1) else .inl (s.1.link s.2 r, p)
  | none => .inr none

/-- The loop that follows the parents ends at the root. -/
theorem Descending.exists_steps_climb (hf : f.Descending) (hi : i < f.size) :
    ∃ n, Loop.steps f.climb n i = .inr (some (f.find i).1) := by
  rw [fst_find]
  induction i using Nat.strongRecOn with
  | ind i ih =>
      obtain ⟨p, hp⟩ : ∃ p, f.parent[i]? = some p := ⟨_, Array.getElem?_eq_getElem hi⟩
      have hle := hf i p hp
      rcases hle.eq_or_lt with rfl | hlt
      · refine ⟨1, ?_⟩
        have hroot : f.root p = p := root_of_forall_le fun q hq => (Option.some.inj (hp.symm.trans hq)).le
        simp only [Loop.steps, climb, hp, if_true, hroot]
      · obtain ⟨n, hn⟩ := ih p hlt (hlt.trans hi)
        refine ⟨n + 1, ?_⟩
        simp only [Loop.steps, climb, hp, if_neg hlt.ne, hn, root_of_lt hp hlt]

/-- The loop that shortens the way to the root ends, with the compressed forest. -/
theorem Descending.exists_steps_shorten (hf : f.Descending) (hi : i < f.size) :
    ∃ n, Loop.steps (shorten (f.root i)) n (f, i) = .inr (some (f.find i).2) := by
  show ∃ n, Loop.steps (shorten (f.root i)) n (f, i) = .inr (some (f.compress (f.root i) i))
  generalize hr : f.root i = r
  fun_induction Forest.compress f r i with
  | case1 f i p hp hlt ih =>
      have hroot : f.root p = f.root (f.root p) := (f.root_root p).symm
      have hrp : f.root p = r := by rw [← hr, root_of_lt hp hlt.1]
      have hri : r < i := by
        have := f.root_le p
        omega
      have hlink := root_link_of_root_eq hri (by rw [hr, ← hrp, root_root]) p
      obtain ⟨n, hn⟩ := ih (hf.link hri.le) (by rw [size_link]; omega) (hlink.trans hrp)
      refine ⟨n + 1, ?_⟩
      simp only [Loop.steps, shorten, hp, if_neg hlt.2, hn]
  | case2 f i p hp hno =>
      refine ⟨1, ?_⟩
      have hpr : p = r := by
        by_contra hne
        have hpi : ¬ p < i := fun hlt => hno ⟨hlt, hne⟩
        have := hf i p hp
        obtain rfl : p = i := by omega
        exact hne (hr ▸ (root_of_forall_le fun q hq => (Option.some.inj (hp.symm.trans hq)).le).symm)
      simp only [Loop.steps, shorten, hp, hpr, if_true]
  | case3 f i hp =>
      exact absurd (Array.getElem?_eq_none_iff.1 hp) (Nat.not_le.2 hi)

end Forest

namespace Table

variable {t t' : Table} {E : Setoid ℕ}

/-! ### What is identified -/

/-- The pairs of nodes that a call identifies: those that it names, or those that a pass records. -/
def pairs (t : Table) : Call → List (ℕ × ℕ)
  | .identify a b =>
    match t.locate a, t.locate b with
    | .ok a, .ok b => [(a, b)]
    | _, _ => []
  | .sweep gens => (t.sweep gens).2.identifiedSince t.log.size
  | _ => []

/-- All pairs of nodes that several calls identify. -/
def merged (t : Table) : List Call → List (ℕ × ℕ)
  | [] => []
  | c :: cs => t.pairs c ++ (t.perform c).merged cs

theorem WellFormed.classes_perform (h : t.WellFormed) {c : Call}
    (hopen : (t.perform c).closed = false) :
    (t.perform c).classes = t.classes ⊔ joined (t.pairs c) := by
  have hother : ¬ c.Identifies → (t.perform c).classes = t.classes ⊔ joined [] := by
    intro hc
    rw [joined_nil, sup_bot_eq]
    exact (h.changes_perform (fun hi => absurd hi hc) hopen).classes_eq
  cases c with
  | identify a b =>
      have hr := t.reshaped_find
      have hlocate : ∀ a, (t.find a).2.locate b = t.locate b := fun a => by
        rw [locate, locate, (hr a).size_eq]
      simp only [perform, pairs, onNode, hlocate]
      cases ha : t.locate a with
      | error fault => rw [joined_nil, sup_bot_eq]
      | ok a =>
          cases hb : t.locate b with
          | error fault =>
              rw [joined_nil, sup_bot_eq]
              exact classes_eq_of_root_eq (hr a).root_eq
          | ok b =>
              exact h.classes_identify (Position.lt_of_resolve? (Position.locate_eq_ok_iff.1 ha))
                (Position.lt_of_resolve? (Position.locate_eq_ok_iff.1 hb))
  | sweep gens => exact (h.classes_sweep gens).1
  | find | neighbours | step | trace | markComplete | close => exact hother id

/-- Several calls join the classes of all pairs that they identify. -/
theorem WellFormed.classes_history (h : t.WellFormed) {cs : List Call}
    (hcs : t.history cs = some t') : t'.classes = t.classes ⊔ joined (t.merged cs) := by
  induction cs generalizing t with
  | nil =>
      obtain rfl : t = t' := Option.some.inj hcs
      exact (sup_eq_left.2 (joined_nil.trans_le bot_le)).symm
  | cons c cs ih =>
      obtain ⟨hopen, hcs⟩ := history_cons_eq_some.1 hcs
      have hu := (h.grows_changes (h.changes_perform (J := fun _ _ _ => True)
        (fun _ _ _ _ => trivial) hopen)).1
      rw [ih hu hcs, h.classes_perform hopen, merged, joined_append, sup_assoc]

theorem classes_start (cap : ℕ) : (start cap).classes = ⊥ := by
  refine le_bot_iff.1 (classes_le_iff.2 fun i => ?_)
  exact (Forest.root_discrete 1 i).symm

/-! ### What the table keeps of it -/

/-- The nodes of the table are represented by the smallest nodes of the classes of `E`, which are the live
ones. -/
structure Represents (t : Table) (E : Setoid ℕ) : Prop where
  /-- Nodes have the same representative if and only if they are related. -/
  find_eq_iff : ∀ i < t.forest.size, ∀ j < t.forest.size, (t.find i).1 = (t.find j).1 ↔ E i j
  /-- The representative is the smallest node of the class. -/
  isLeast_find : ∀ i < t.forest.size, IsLeast {j | E i j} (t.find i).1
  /-- The live nodes are the smallest ones of their classes. -/
  contains_iff : ∀ i, t.contains i ↔ i < t.forest.size ∧ ∀ j, E i j → i ≤ j
  /-- The live nodes are listed in increasing order, each once. -/
  nodes_eq : t.nodes.map Node.id = (List.range t.forest.size).filter t.contains
  /-- The first node is alive. -/
  contains_zero : t.contains 0

theorem WellFormed.represents (h : t.WellFormed) : t.Represents t.classes := by
  refine ⟨fun i _ j _ => Iff.rfl, fun i _ => t.isLeast_root i, fun i => ?_, ?_, h.contains_zero⟩
  · rw [h.live_iff]
    refine and_congr_right fun _ => ⟨fun hi j hij => ?_, fun hle => ?_⟩
    · replace hij := classes_iff.1 hij
      rw [← hi, hij]
      exact t.root_le j
    · exact le_antisymm (t.root_le i) (hle _ (t.isLeast_root i).1)
  · rw [h.map_id_nodes, h.ids_eq]

/-- The loops that find a node end, also where neighbours are asked for or a letter is followed, and only
calls that identify nodes change what is found. -/
structure FindsSteadily (t : Table) : Prop where
  climb_ends : ∀ i < t.forest.size, ∃ n, Loop.steps t.forest.climb n i = .inr (some (t.find i).1)
  shorten_ends : ∀ i < t.forest.size, ∃ n,
    Loop.steps (Forest.shorten (t.find i).1) n (t.forest, i) = .inr (some (t.find i).2.forest)
  neighbours_ends : ∀ i < t.forest.size, ∀ x, t.neighbours? i x = some (t.neighbours i x)
  step_ends : ∀ i < t.forest.size, ∀ x, t.step? i x = some (t.step i x)
  find_perform : ∀ c : Call, ¬ c.Identifies → (t.perform c).closed = false →
    ∀ j, ((t.perform c).find j).1 = (t.find j).1

theorem WellFormed.findsSteadily (h : t.WellFormed) : t.FindsSteadily := by
  refine ⟨fun i hi => h.descending.exists_steps_climb hi, fun i hi => ?_,
    fun i hi x => h.neighbours?_eq hi, fun i hi x => h.step?_eq hi, fun c hc hopen j => ?_⟩
  · exact h.descending.exists_steps_shorten hi
  · have hclasses := (h.changes_perform (fun hi => absurd hi hc) hopen).classes_eq
    exact root_eq_of_classes_eq hclasses j

/-- Whatever calls are made on a new table, in whatever order and with whatever failures, its nodes are
represented by the smallest nodes of the classes of the identified pairs.  Finding them ends and changes
nothing of that.  A pass identifies as many pairs as it reports, no number of a node is used twice, and the
order in which pairs are identified is of no consequence. -/
theorem represents_history {cap : Int} {t₀ t : Table} {cs : List Call} (h₀ : withCap cap = .ok t₀)
    (hcs : t₀.history cs = some t) :
    t.Represents (joined (t₀.merged cs)) ∧ t.FindsSteadily ∧
      (∀ gens, (t.pairs (.sweep gens)).length = (t.sweep gens).1) ∧
      (∀ ds u, t.history ds = some u → t.forest.size ≤ u.forest.size ∧
        ∀ i < t.forest.size, u.contains i → t.contains i) ∧
      ∀ ds u, t₀.history ds = some u → u.forest.size = t.forest.size →
        (∀ p, p ∈ t₀.merged ds ↔ p ∈ t₀.merged cs) →
        u.nodes.map Node.id = t.nodes.map Node.id ∧ ∀ i, (u.find i).1 = (t.find i).1 := by
  obtain ⟨rfl, -⟩ := withCap_eq_ok h₀
  have hstart := wellFormed_start cap.toNat
  have hwf : ∀ {ds u}, (start cap.toNat).history ds = some u → u.WellFormed := fun hds =>
    (hstart.grows_changes (hstart.changes_history hds)).1
  have hclasses : ∀ {ds u}, (start cap.toNat).history ds = some u →
      u.classes = joined ((start cap.toNat).merged ds) := fun hds => by
    rw [hstart.classes_history hds, classes_start, bot_sup_eq]
  have h := hwf hcs
  refine ⟨hclasses hcs ▸ h.represents, h.findsSteadily, fun gens => (h.classes_sweep gens).2,
    fun ds u hds => ?_, fun ds u hds hsize hmem => ?_⟩
  · have hg := (h.grows_changes (h.changes_history hds)).2
    exact ⟨hg.size_le, hg.contains⟩
  · have hu := hwf hds
    have heq : u.classes = t.classes := by
      rw [hclasses hds, hclasses hcs, joined_eq_of_mem_iff hmem]
    rw [hu.map_id_nodes, h.map_id_nodes]
    exact ⟨h.ids_eq_of_classes_eq hu hsize heq, root_eq_of_classes_eq heq⟩

theorem represents_history_crowded :
    ∃ t, (start 4).history (crowded ++ [.sweep ["a"]]) = some t ∧ t.ids = [0, 1, 4] ∧
      t.Represents (joined [(2, 0), (1, 3)]) ∧ t.FindsSteadily := by
  have hids : ((start 4).history (crowded ++ [.sweep ["a"]])).map ids = some [0, 1, 4] := by cbv
  have hmerged : (start 4).merged (crowded ++ [.sweep ["a"]]) = [(2, 0), (1, 3)] := by cbv
  obtain ⟨t, ht, hids⟩ := Option.map_eq_some_iff.1 hids
  have h := represents_history (show withCap 4 = .ok (start 4) from rfl) ht
  rw [hmerged] at h
  exact ⟨t, ht, hids, h.1, h.2.1⟩

end Table

end ToddCoxeter
