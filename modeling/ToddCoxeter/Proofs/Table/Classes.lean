import Mathlib
import ToddCoxeter.Proofs.Table.Calls

/-! # Classes of nodes

The nodes of a table fall into classes, one for each live node: `Table.classes t` relates two numbers if the
same node of `t` stands for both.  Absorbing a node joins two classes and does no more
(`Table.WellFormed.classes_absorb`), and so does an identification (`Table.WellFormed.classes_identify`).  A
pass records what it identifies, and the classes after it are joined by the recorded pairs
(`Table.WellFormed.classes_sweep`).  Other calls leave the classes alone (`Table.Changes.classes_eq`).

The classes determine what stands for what (`Table.root_eq_of_classes_eq`) and, with the number of nodes
made, which nodes are alive (`Table.WellFormed.ids_eq_of_classes_eq`). -/

namespace ToddCoxeter

/-- The two nodes that were found to be the same, if the event says so. -/
def Event.pair? : Event → Option (ℕ × ℕ)
  | .identified kept dropped => some (kept, dropped)
  | _ => none

namespace Table

/-- Two numbers are related if the same node stands for both; a number that is no node is related to itself
alone. -/
def classes (t : Table) : Setoid ℕ := Setoid.ker t.root

/-- The least equivalence relation that relates the two nodes of each pair. -/
def joined (ps : List (ℕ × ℕ)) : Setoid ℕ := Relation.EqvGen.setoid fun a b => (a, b) ∈ ps

variable {L : Letter → Prop} {J : Table → ℕ → ℕ → Prop} {t t' : Table} {E : Setoid ℕ} {a b : ℕ}
  {ps qs : List (ℕ × ℕ)}

theorem classes_iff {i j : ℕ} : t.classes i j ↔ t.root i = t.root j := Iff.rfl

theorem classes_le_iff : t.classes ≤ E ↔ ∀ i, E i (t.root i) := by
  constructor
  · intro h i
    exact h (t.forest.root_root i).symm
  · intro h i j hij
    replace hij := classes_iff.1 hij
    exact E.trans (h i) (hij ▸ E.symm (h j))

theorem joined_le_iff : joined ps ≤ E ↔ ∀ p ∈ ps, E p.1 p.2 := by
  constructor
  · intro h p hp
    exact h (Relation.EqvGen.rel _ _ hp)
  · intro h
    exact Setoid.eqvGen_le fun a b hab => h (a, b) hab

theorem joined_nil : joined [] = ⊥ :=
  le_bot_iff.1 (joined_le_iff.2 fun p hp => absurd hp (by simp))

theorem joined_append : joined (ps ++ qs) = joined ps ⊔ joined qs := by
  refine eq_of_forall_ge_iff fun E => ?_
  simp only [sup_le_iff, joined_le_iff, List.forall_mem_append]

/-- Pairs may be joined in any order and any number of times. -/
theorem joined_eq_of_mem_iff (h : ∀ p, p ∈ ps ↔ p ∈ qs) : joined ps = joined qs := by
  refine eq_of_forall_ge_iff fun E => ?_
  simp only [joined_le_iff, h]

theorem classes_eq_of_root_eq (h : ∀ i, t'.root i = t.root i) : t'.classes = t.classes := by
  unfold classes
  rw [funext h]

/-! ### Joining classes -/

theorem WellFormed.classes_absorb (h : t.WellFormed) (ha : t.contains a) (hb : t.contains b)
    (hab : a < b) : (t.absorb a b).classes = t.classes ⊔ joined [(a, b)] := by
  refine eq_of_forall_ge_iff fun E => ?_
  have hroot := h.root_absorb ha hb hab
  simp only [sup_le_iff, joined_le_iff, classes_le_iff, hroot, List.forall_mem_singleton]
  constructor
  · intro hE
    have hba : E b a := by simpa [h.root_of_contains hb] using hE b
    refine ⟨fun i => ?_, E.symm hba⟩
    have hi := hE i
    split_ifs at hi with hib
    · rw [hib]
      exact E.trans hi (E.symm hba)
    · exact hi
  · rintro ⟨hE, hEab⟩ i
    split_ifs with hib
    · exact E.trans (hib ▸ hE i) (E.symm hEab)
    · exact hE i

theorem WellFormed.classes_identify (h : t.WellFormed) (ha : a < t.forest.size)
    (hb : b < t.forest.size) : (t.identify a b).2.classes = t.classes ⊔ joined [(a, b)] := by
  obtain ⟨u, hu, heq⟩ := t.identify_eq a b
  have hclasses := classes_eq_of_root_eq hu.root_eq
  rw [heq]
  split_ifs with hab
  · refine hclasses.trans (sup_eq_left.2 (joined_le_iff.2 fun p hp => ?_)).symm
    obtain rfl := List.mem_singleton.1 hp
    exact hab
  · have hca : u.contains (t.root a) := hu.contains_eq _ ▸ h.contains_root ha
    have hcb : u.contains (t.root b) := hu.contains_eq _ ▸ h.contains_root hb
    simp only
    rw [(h.reshaped hu).classes_absorb (contains_min hca hcb) (contains_max hca hcb) (by omega),
      hclasses]
    refine eq_of_forall_ge_iff fun E => ?_
    simp only [sup_le_iff, joined_le_iff, List.forall_mem_singleton]
    refine and_congr_right fun hE => ?_
    have hia := classes_le_iff.1 hE a
    have hib := classes_le_iff.1 hE b
    -- Related to `a` and `b` are the nodes that stand for them, of which either may be the smaller.
    have hroots : E (t.root a) (t.root b) ↔ E a b :=
      ⟨fun hr => E.trans hia (E.trans hr (E.symm hib)),
        fun hr => E.trans (E.symm hia) (E.trans hr hib)⟩
    rcases le_total (t.root a) (t.root b) with hle | hle
    · rw [min_eq_left hle, max_eq_right hle, hroots]
    · rw [min_eq_right hle, max_eq_left hle, ← hroots]
      exact ⟨E.symm, E.symm⟩

/-! ### What is recorded -/

/-- The pairs of nodes that were identified after the first `n` events. -/
def identifiedSince (t : Table) (n : ℕ) : List (ℕ × ℕ) := (t.log.toList.drop n).filterMap Event.pair?

/-- Moves that define nothing record each identification, drop a node with it, and join no other
classes. -/
theorem WellFormed.exists_identified (h : t.WellFormed) (hm : Moves (fun _ => False) J t t') :
    ∃ ps : List (ℕ × ℕ), t'.log.toList = t.log.toList ++ ps.map (fun p => .identified p.1 p.2) ∧
      ps.length + t'.live = t.live ∧ t'.classes = t.classes ⊔ joined ps := by
  induction hm with
  | refl => exact ⟨[], (List.append_nil _).symm, Nat.zero_add _, by rw [joined_nil, sup_bot_eq]⟩
  | @tail u v hu hm ih =>
      obtain ⟨ps, hlog, hlive, hclasses⟩ := ih
      have hwf := h.moves hu
      cases hm with
      | reshape hr =>
          have hroot := hr.root_eq
          obtain ⟨f, -, rfl⟩ := hr
          exact ⟨ps, hlog, hlive, (classes_eq_of_root_eq hroot).trans hclasses⟩
      | attach hx => exact hx.elim
      | @absorb a b ha hb hab _ =>
          refine ⟨ps ++ [(a, b)], ?_, ?_, ?_⟩
          · rw [List.map_append, ← List.append_assoc, ← hlog]
            exact Array.toList_push ..
          · have := live_absorb (a := a) hb
            simp only [List.length_append, List.length_singleton]
            omega
          · rw [hwf.classes_absorb ha hb hab, hclasses, joined_append, sup_assoc]

/-- A pass joins the classes of the pairs that it records, and reports their number. -/
theorem WellFormed.classes_sweep (h : t.WellFormed) (gens : List String) :
    (t.sweep gens).2.classes =
        t.classes ⊔ joined ((t.sweep gens).2.identifiedSince t.log.size) ∧
      ((t.sweep gens).2.identifiedSince t.log.size).length = (t.sweep gens).1 := by
  have hswept := h.sweep_swept gens
  obtain ⟨ps, hlog, hlive, hclasses⟩ := h.exists_identified hswept.moves
  have hps : (t.sweep gens).2.identifiedSince t.log.size = ps := by
    have hsize : t.log.size = t.log.toList.length := Array.length_toList.symm
    unfold identifiedSince
    rw [hlog, hsize, List.drop_left, List.filterMap_map]
    exact (List.filterMap_congr fun p _ => rfl).trans List.filterMap_some
  have hcount := hswept.count
  rw [hps]
  exact ⟨hclasses, by omega⟩

/-! ### Changes that identify nothing -/

theorem Changes.classes_eq (h : Changes (fun _ _ _ => False) t t') : t'.classes = t.classes := by
  induction h with
  | refl => rfl
  | tail _ hc ih =>
      refine Eq.trans ?_ ih
      cases hc with
      | move hm =>
          cases hm with
          | reshape hr => exact classes_eq_of_root_eq hr.root_eq
          | attach => exact classes_eq_of_root_eq fun i => root_attach i
          | absorb _ _ _ hj => exact hj.elim
      | spare label => exact classes_eq_of_root_eq fun i => root_addNode _ label i
      | mark | columns => rfl

/-! ### What the classes determine -/

/-- Live nodes are listed in the order in which they were made. -/
theorem WellFormed.ids_eq (h : t.WellFormed) :
    t.ids = (List.range t.forest.size).filter t.contains := by
  apply List.Perm.eq_of_pairwise' h.sorted_ids (List.pairwise_lt_range.filter _)
  refine (List.perm_ext_iff_of_nodup t.nodup_ids (List.nodup_range.filter _)).2 fun i => ?_
  rw [← contains_iff_mem_ids, List.mem_filter, List.mem_range]
  exact ⟨fun hi => ⟨h.lt_of_contains hi, hi⟩, fun hi => hi.2⟩

/-- A node is represented by the smallest node of its class. -/
theorem isLeast_root (t : Table) (i : ℕ) : IsLeast {j | t.classes i j} (t.root i) := by
  refine ⟨(t.forest.root_root i).symm, fun j hij => ?_⟩
  replace hij := classes_iff.1 hij
  rw [hij]
  exact t.root_le j

theorem root_eq_of_classes_eq (h : t'.classes = t.classes) (i : ℕ) : t'.root i = t.root i :=
  (t'.isLeast_root i).unique (h ▸ t.isLeast_root i)

/-- As many nodes in the same classes leave the same nodes alive. -/
theorem WellFormed.ids_eq_of_classes_eq (h : t.WellFormed) (h' : t'.WellFormed)
    (hsize : t'.forest.size = t.forest.size) (hclasses : t'.classes = t.classes) :
    t'.ids = t.ids := by
  have hcontains : t'.contains = t.contains := by
    funext i
    rw [Bool.eq_iff_iff, h'.live_iff, h.live_iff, root_eq_of_classes_eq hclasses, hsize]
  rw [h'.ids_eq, h.ids_eq, hsize, hcontains]

end Table

end ToddCoxeter
