import Mathlib.Logic.Relation
import ToddCoxeter.Proofs.Table.Changes

/-! # Moves of a table

`Table.Move L J t t'` says that `t'` comes from `t` by one change: the forest is reshaped, a node is
attached for a letter `x` with `L x` that led nowhere, or one of two live nodes `a` and `b` with
`J t a b` absorbs the other.  `Table.Moves L J` are sequences of moves.  The parameters tell what a
program may define and what it has to know before it identifies two nodes.

What all moves preserve is proved here once.  The operations that define nodes make moves of the first
two kinds, or fail if the cap is passed: `Table.WellFormed.step_yields`, `stepAll_yields` and
`trace_yields` also tell where the letters lead afterwards.  Where there are edges already, they define
nothing (`step_of_leads`, `trace_of_path`).  Identification is a move of the third kind
(`Table.WellFormed.identify_moves`). -/

namespace ToddCoxeter.Table

/-- One change of a table. -/
inductive Move (L : Letter → Prop) (J : Table → ℕ → ℕ → Prop) : Table → Table → Prop
  | reshape {t t' : Table} : Reshaped t t' → Move L J t t'
  | attach {t : Table} {i : ℕ} {x : Letter} :
      L x → t.contains i → (∀ j, ¬ t.Leads i x j) → t.live < t.cap → Move L J t (t.attach i x)
  | absorb {t : Table} {a b : ℕ} :
      t.contains a → t.contains b → a < b → J t a b → Move L J t (t.absorb a b)

/-- A sequence of changes of a table. -/
abbrev Moves (L : Letter → Prop) (J : Table → ℕ → ℕ → Prop) : Table → Table → Prop :=
  Relation.ReflTransGen (Move L J)

variable {L L' : Letter → Prop} {J J' : Table → ℕ → ℕ → Prop} {t t' : Table}

theorem Move.mono (hL : ∀ x, L x → L' x) (hJ : ∀ t a b, J t a b → J' t a b)
    (h : Move L J t t') : Move L' J' t t' := by
  cases h with
  | reshape h => exact .reshape h
  | attach hx hi hno hlt => exact .attach (hL _ hx) hi hno hlt
  | absorb ha hb hab hj => exact .absorb ha hb hab (hJ _ _ _ hj)

theorem Moves.mono (hL : ∀ x, L x → L' x) (hJ : ∀ t a b, J t a b → J' t a b)
    (h : Moves L J t t') : Moves L' J' t t' :=
  h.lift id fun _ _ => Move.mono hL hJ

theorem Reshaped.moves (h : Reshaped t t') : Moves L J t t' := .single (.reshape h)

/-! ### What moves preserve -/

theorem WellFormed.move (h : t.WellFormed) (hm : Move L J t t') : t'.WellFormed := by
  cases hm with
  | reshape hr => exact h.reshaped hr
  | attach _ hi => exact h.attach hi
  | absorb ha hb hab => exact h.absorb ha hb hab

theorem WellFormed.grows_move (h : t.WellFormed) (hm : Move L J t t') : Grows t t' := by
  cases hm with
  | reshape hr => exact hr.grows
  | attach _ hi => exact grows_attach hi _
  | absorb ha hb hab => exact h.grows_absorb ha hb hab

/-- What a single move preserves along with well-formedness, a sequence of moves preserves. -/
theorem Moves.invariant {q : Table → Prop} (hq : ∀ t t', t.WellFormed → Move L J t t' → q t → q t')
    (h : Moves L J t t') (ht : t.WellFormed) (hqt : q t) : t'.WellFormed ∧ q t' := by
  induction h with
  | refl => exact ⟨ht, hqt⟩
  | tail _ hm ih => exact ⟨ih.1.move hm, hq _ _ ih.1 hm ih.2⟩

theorem WellFormed.moves (h : t.WellFormed) (hm : Moves L J t t') : t'.WellFormed :=
  (hm.invariant (q := fun _ => True) (fun _ _ _ _ _ => trivial) h trivial).1

theorem WellFormed.grows_moves (h : t.WellFormed) (hm : Moves L J t t') : Grows t t' :=
  (hm.invariant (q := Grows t) (fun _ _ hu hm ht => ht.trans (hu.grows_move hm)) h (.refl t)).2

/-- The parts of a table that no move touches. -/
theorem Moves.frame (h : Moves L J t t') :
    t'.cap = t.cap ∧ t'.closed = t.closed ∧ t'.columns = t.columns := by
  induction h with
  | refl => exact ⟨rfl, rfl, rfl⟩
  | tail _ hm ih =>
      cases hm with
      | reshape hr =>
          obtain ⟨f, -, rfl⟩ := hr
          exact ih
      | attach => exact ih
      | absorb => exact ih

theorem Moves.cap_eq (h : Moves L J t t') : t'.cap = t.cap := h.frame.1

theorem Moves.size_and_edges_eq {J : Table → ℕ → ℕ → Prop} (h : Moves (fun _ => False) J t t') :
    t'.forest.size = t.forest.size ∧ t'.edges = t.edges := by
  induction h with
  | refl => exact ⟨rfl, rfl⟩
  | tail _ hm ih =>
      cases hm with
      | reshape hr => exact ⟨hr.size_eq.trans ih.1, hr.edges_eq.trans ih.2⟩
      | attach hx => exact hx.elim
      | absorb => exact ⟨size_absorb.trans ih.1, ih.2⟩

theorem Moves.contains_of_size_le (h : Moves L (fun _ _ _ => False) t t') {i : ℕ}
    (hi : t.forest.size ≤ i) (hlt : i < t'.forest.size) : t'.contains i := by
  induction h with
  | refl => exact absurd hlt (by omega)
  | tail _ hm ih =>
      cases hm with
      | reshape hr =>
          rw [hr.contains_eq]
          rw [hr.size_eq] at hlt
          exact ih hlt
      | attach =>
          rw [size_attach] at hlt
          rw [contains_attach]
          exact (Nat.lt_succ_iff_lt_or_eq.1 hlt).symm.imp_right ih
      | absorb _ _ _ hJ => exact hJ.elim

theorem WellFormed.complete_moves (h : t.WellFormed) (hm : Moves L J t t') {i : ℕ}
    (hi : t'.contains i) (hc : (t'.row i).complete) : t.contains i ∧ (t.row i).complete := by
  have hq : ∀ u u' : Table, u.WellFormed → Move L J u u' →
      (∀ i, u.contains i → (u.row i).complete → t.contains i ∧ (t.row i).complete) →
      ∀ i, u'.contains i → (u'.row i).complete → t.contains i ∧ (t.row i).complete := by
    intro u u' hu hm ih i hi hc
    cases hm with
    | reshape hr =>
        rw [hr.contains_eq] at hi
        rw [hr.row_eq] at hc
        exact ih i hi hc
    | attach _ hj =>
        rw [complete_attach hj] at hc
        split_ifs at hc with hn
        exact ih i ((contains_attach.1 hi).resolve_left hn) hc
    | absorb ha hb hab =>
        obtain ⟨hib, hi⟩ := contains_absorb.1 hi
        rw [complete_absorb ha (by omega) hib] at hc
        exact ih i hi hc
  exact (hm.invariant hq h fun i hi hc => ⟨hi, hc⟩).2 i hi hc

theorem WellFormed.live_le_cap (h : t.WellFormed) (hm : Moves L J t t') (hle : t.live ≤ t.cap) :
    t'.live ≤ t'.cap := by
  refine (hm.invariant (q := fun u => u.live ≤ u.cap) ?_ h hle).2
  intro u u' hu hm ih
  cases hm with
  | reshape hr => rwa [hr.live_eq, hr.cap_eq]
  | @attach i x _ _ _ hlt =>
      rw [hu.live_attach]
      show u.live + 1 ≤ u.cap
      omega
  | @absorb a b _ hb _ _ =>
      have := live_absorb (a := a) hb
      show (u.absorb a b).live ≤ u.cap
      omega

/-- Every node but the first has an edge to a smaller node. -/
def Rooted (t : Table) : Prop :=
  ∀ q, 0 < q → q < t.forest.size → ∃ e ∈ t.edges, ∃ b, e.side b = q ∧ e.side (!b) < q

theorem WellFormed.rooted_moves (h : t.WellFormed) (hm : Moves L J t t') (hr : t.Rooted) :
    t'.Rooted := by
  refine (hm.invariant (q := Rooted) ?_ h hr).2
  intro u u' hu hm ih q hq hlt
  cases hm with
  | reshape hr =>
      rw [hr.size_eq] at hlt
      rw [hr.edges_eq]
      exact ih q hq hlt
  | @attach i x _ hi _ _ =>
      rw [size_attach] at hlt
      by_cases hn : q = u.forest.size
      · refine ⟨.along i x u.forest.size, mem_edges_attach.2 (.inr rfl), !x.inverted, ?_, ?_⟩
        · exact (Edge.head_along i _ x).trans hn.symm
        · rw [Bool.not_not, hn]
          show (Edge.along i x u.forest.size).tail x < u.forest.size
          rw [Edge.tail_along]
          exact hu.lt_of_contains hi
      · obtain ⟨e, he, hb⟩ := ih q hq (by omega)
        exact ⟨e, mem_edges_attach.2 (.inl he), hb⟩
  | absorb =>
      rw [size_absorb] at hlt
      exact ih q hq hlt

theorem WellFormed.labels_moves (h : t.WellFormed) (hm : Moves L J t t') {gens : List String}
    (hL : ∀ x, L x → x.gen ∈ gens) (hg : ∀ e ∈ t.edges, e.label ∈ gens) :
    ∀ e ∈ t'.edges, e.label ∈ gens := by
  refine (hm.invariant (q := fun u => ∀ e ∈ u.edges, e.label ∈ gens) ?_ h hg).2
  intro u u' hu hm ih e he
  cases hm with
  | reshape hr =>
      rw [hr.edges_eq] at he
      exact ih e he
  | attach hx =>
      rcases mem_edges_attach.1 he with he | rfl
      · exact ih e he
      · rw [Edge.label_along]
        exact hL _ hx
  | absorb => exact ih e he

/-! ### Defining nodes -/

theorem define_eq (t : Table) (i : ℕ) (x : Letter) :
    t.define i x =
      if t.cap < (t.addNode ((t.row i).label ++ [x])).live then
        (.error ⟨t.cap⟩, t.addNode ((t.row i).label ++ [x]))
      else (.ok t.forest.size, t.attach i x) := rfl

theorem step_eq (t : Table) (i : ℕ) (x : Letter) :
    t.step i x =
      match ((t.find i).2.row (t.root i)).farEnds x with
      | [] => (t.find i).2.define (t.root i) x
      | j :: _ => (.ok ((t.find i).2.find j).1, ((t.find i).2.find j).2) := rfl

/-- What an attempt may come to: it makes moves from `t` to a table with the property `q` and up to
`n` nodes more, or it fails because so many nodes could pass the cap. -/
def Yields {α : Type} (L : Letter → Prop) (J : Table → ℕ → ℕ → Prop) (n : ℕ) (t : Table)
    (q : α → Table → Prop) : Attempt CapacityFault α → Prop
  | (.ok a, u) => Moves L J t u ∧ u.live ≤ t.live + n ∧ q a u
  | (.error fault, _) => fault = ⟨t.cap⟩ ∧ t.cap < t.live + n

section Yields

variable {α β : Type} {m n : ℕ} {u : Table} {p : α → Table → Prop} {q : β → Table → Prop}

theorem Yields.of_error {fault : CapacityFault} (h : Yields L J m t p (.error fault, u)) :
    Yields L J (m + n) t q (.error fault, u) :=
  ⟨h.1, by have := h.2; omega⟩

theorem Yields.andThen {a : α} {r : Attempt CapacityFault β} (h : Yields L J m t p (.ok a, u))
    (hr : Yields L J n u q r) : Yields L J (m + n) t q r := by
  obtain ⟨hm, hle, -⟩ := h
  rcases r with ⟨fault | b, v⟩
  · obtain ⟨rfl, hlt⟩ := hr
    rw [hm.cap_eq] at hlt
    exact ⟨by rw [hm.cap_eq], by omega⟩
  · obtain ⟨hm', hle', hb⟩ := hr
    exact ⟨hm.trans hm', by omega, hb⟩

/-- Moves that leave no more nodes alive may come first. -/
theorem Yields.after {r : Attempt CapacityFault β} (hm : Moves L J t u) (hle : u.live ≤ t.live)
    (h : Yields L J n u q r) : Yields L J n t q r := by
  have hfirst : Yields L J 0 t (fun _ _ => True) (.ok (), u) := ⟨hm, hle, trivial⟩
  exact Nat.zero_add n ▸ hfirst.andThen h

theorem Yields.weaken {q' : β → Table → Prop} {r : Attempt CapacityFault β}
    (h : Yields L J n t q r) (hq : ∀ b v, Moves L J t v → q b v → q' b v) :
    Yields L J n t q' r := by
  rcases r with ⟨fault | b, v⟩
  · exact h
  · exact ⟨h.1, h.2.1, hq b v h.1 h.2.2⟩

end Yields

/-- A step follows an edge, or defines a node where there is none.  Before that only the shape of the
forest changes. -/
theorem WellFormed.step_cases (h : t.WellFormed) {i : ℕ} (hi : i < t.forest.size) (x : Letter) :
    (∃ j u, t.step i x = (.ok j, u) ∧ Reshaped t u ∧ t.Leads (t.root i) x j) ∨
      (∀ j, ¬ t.Leads (t.root i) x j) ∧ ∃ u, Reshaped t u ∧ t.step i x = u.define (t.root i) x := by
  have hr := t.reshaped_find i
  have hmem : ∀ j, j ∈ (((t.find i).2.row (t.root i)).farEnds x).map t.root ↔
      t.Leads (t.root i) x j := by
    intro j
    rw [hr.row_eq]
    exact h.mem_map_farEnds (h.contains_root hi) x
  rw [step_eq]
  cases hends : ((t.find i).2.row (t.root i)).farEnds x with
  | nil =>
      refine .inr ⟨fun j hj => ?_, _, hr, rfl⟩
      rw [← hmem, hends] at hj
      exact absurd hj (by simp)
  | cons j js =>
      refine .inl ⟨_, _, rfl, hr.trans ((t.find i).2.reshaped_find j), ?_⟩
      rw [fst_find, hr.root_eq, ← hmem, hends, List.map_cons]
      exact List.mem_cons_self

theorem WellFormed.step_yields (h : t.WellFormed) {i : ℕ} (hi : i < t.forest.size) {x : Letter}
    (hx : L x) : Yields L J 1 t (fun j u => u.Leads (u.root i) x j) (t.step i x) := by
  rcases h.step_cases hi x with ⟨j, u, heq, hr, hj⟩ | ⟨hno, u, hr, heq⟩
  · rw [heq]
    refine ⟨hr.moves, hr.live_eq ▸ Nat.le_succ _, ?_⟩
    show u.Leads (u.root i) x j
    rwa [hr.root_eq, hr.leads_iff]
  · have hu := h.reshaped hr
    have hlive : u.contains (t.root i) := by
      rw [hr.contains_eq]
      exact h.contains_root hi
    rw [heq, define_eq, hu.live_addNode]
    split_ifs with hcap
    · rw [hr.cap_eq, hr.live_eq] at hcap
      exact ⟨by rw [hr.cap_eq], hcap⟩
    · rw [← hr.leads_eq] at hno
      have hlt : u.live < u.cap := by omega
      refine ⟨hr.moves.tail (.attach hx hlive hno hlt), ?_, ?_⟩
      · rw [hu.live_attach, hr.live_eq]
      · show Leads _ (root _ i) x _
        rw [root_attach, hr.root_eq]
        exact hu.leads_attach hlive

theorem WellFormed.stepAll_yields (h : t.WellFormed) {i : ℕ} (hi : i < t.forest.size)
    {xs : List Letter} (hx : ∀ x ∈ xs, L x) :
    Yields L J xs.length t (fun _ u => ∀ x ∈ xs, ∃ j, u.Leads (u.root i) x j)
      (t.stepAll i xs) := by
  induction xs generalizing t with
  | nil => exact ⟨.refl, Nat.le_refl _, fun x hx => absurd hx (by simp)⟩
  | cons x xs ih =>
      have hstep := h.step_yields (L := L) (J := J) hi (hx x List.mem_cons_self)
      unfold stepAll
      rw [List.length_cons, Nat.add_comm]
      rcases hstep' : t.step i x with ⟨fault | j, u⟩ <;> rw [hstep'] at hstep
      · exact hstep.of_error
      · have hu := h.moves hstep.1
        have hiu := (h.grows_moves hstep.1).lt_size hi
        refine hstep.andThen ((ih hu hiu fun y hy => hx y (List.mem_cons_of_mem x hy)).weaken ?_)
        intro _ v hv hall y hy
        rcases List.mem_cons.1 hy with rfl | hy
        · have hlead := (hu.grows_moves hv).leads hstep.2.2
          rw [(hu.grows_moves hv).root_root] at hlead
          exact ⟨_, hlead⟩
        · exact hall y hy

theorem WellFormed.trace_yields (h : t.WellFormed) {i : ℕ} (hi : i < t.forest.size) {w : Word}
    (hw : ∀ x ∈ w, L x) :
    Yields L J w.length t (fun j u => Path u.Leads (u.root i) w j) (t.trace i w) := by
  induction w generalizing t i with
  | nil =>
      have hr := t.reshaped_find i
      exact ⟨hr.moves, hr.live_eq.le, hr.root_eq i⟩
  | cons x w ih =>
      have hstep := h.step_yields (L := L) (J := J) hi (hw x List.mem_cons_self)
      unfold trace
      rw [List.length_cons, Nat.add_comm]
      rcases hstep' : t.step i x with ⟨fault | j, u⟩ <;> rw [hstep'] at hstep
      · exact hstep.of_error
      · have hu := h.moves hstep.1
        have hj := hu.lt_of_contains (hu.contains_of_leads hstep.2.2).2
        refine hstep.andThen ((ih hu hj fun y hy => hw y (List.mem_cons_of_mem x hy)).weaken ?_)
        intro k v hv hpath
        have hlead := (hu.grows_moves hv).leads hstep.2.2
        rw [(hu.grows_moves hv).root_root] at hlead
        exact ⟨_, hlead, hpath⟩

/-! ### Following edges that are there -/

section follow

variable {i j : ℕ}

/-- A step along an existing edge defines nothing. -/
theorem WellFormed.step_of_leads (h : t.WellFormed) (hi : t.contains i) {x : Letter}
    (hx : t.Leads i x j) (huniq : ∀ k, t.Leads i x k → k = j) :
    ∃ u, t.step i x = (.ok j, u) ∧ Reshaped t u := by
  have hroot := h.root_of_contains hi
  rcases h.step_cases (h.lt_of_contains hi) x with ⟨k, u, heq, hr, hk⟩ | ⟨hno, -⟩
  · rw [hroot] at hk
    obtain rfl := huniq k hk
    exact ⟨u, heq, hr⟩
  · rw [hroot] at hno
    exact absurd hx (hno j)

/-- Tracing a word along existing edges defines nothing. -/
theorem WellFormed.trace_of_path (h : t.WellFormed) (hi : t.contains i) {w : Word}
    (huniq : ∀ x ∈ w, ∀ i j k, t.Leads i x j → t.Leads i x k → j = k) (hpath : Path t.Leads i w j) :
    ∃ u, t.trace i w = (.ok j, u) ∧ Reshaped t u := by
  induction w generalizing t i with
  | nil =>
      refine ⟨(t.find i).2, ?_, t.reshaped_find i⟩
      obtain rfl : i = j := hpath
      show (Except.ok (t.root i), (t.find i).2) = _
      rw [h.root_of_contains hi]
  | cons x w ih =>
      obtain ⟨k, hk, hrest⟩ := hpath
      obtain ⟨u, heq, hr⟩ := h.step_of_leads hi hk fun m hm =>
        huniq x List.mem_cons_self i m k hm hk
      have hck : u.contains k := hr.contains_eq k ▸ (h.contains_of_leads hk).2
      obtain ⟨v, heq', hr'⟩ := ih (h.reshaped hr) hck
        (hr.leads_eq ▸ fun y hy => huniq y (List.mem_cons_of_mem x hy)) (hr.leads_eq ▸ hrest)
      refine ⟨v, ?_, hr.trans hr'⟩
      unfold trace
      rw [heq]
      exact heq'

theorem WellFormed.leads_iff_of_neighbours_eq (h : t.WellFormed) (hi : t.contains i) {x : Letter}
    (hx : (t.neighbours i x).1 = [j]) {k : ℕ} : t.Leads i x k ↔ k = j := by
  rw [← List.mem_singleton, ← hx, h.mem_neighbours (h.lt_of_contains hi), h.root_of_contains hi]

theorem WellFormed.neighbours_eq_of_leads (h : t.WellFormed) (hi : t.contains i) {x : Letter}
    (hx : t.Leads i x j) (huniq : ∀ k, t.Leads i x k → k = j) : (t.neighbours i x).1 = [j] := by
  have hmem : ∀ k, k ∈ (t.neighbours i x).1 ↔ t.Leads i x k := by
    intro k
    rw [h.mem_neighbours (h.lt_of_contains hi), h.root_of_contains hi]
  refine List.perm_singleton.1 ((List.perm_ext_iff_of_nodup (t.nodup_neighbours i x)
    (List.nodup_singleton j)).2 fun k => ?_)
  rw [hmem, List.mem_singleton]
  exact ⟨huniq k, fun hk => hk ▸ hx⟩

end follow

/-! ### Identifying nodes -/

theorem contains_min {a b : ℕ} (ha : t.contains a) (hb : t.contains b) : t.contains (min a b) := by
  rcases min_choice a b with h | h <;> rw [h] <;> assumption

theorem contains_max {a b : ℕ} (ha : t.contains a) (hb : t.contains b) : t.contains (max a b) := by
  rcases max_choice a b with h | h <;> rw [h] <;> assumption

/-- Identifying nodes that stand for the same node changes nothing but the shape of the forest, and
otherwise the smaller of the two nodes that stand for them absorbs the larger. -/
theorem identify_eq (t : Table) (a b : ℕ) : ∃ u, Reshaped t u ∧ t.identify a b =
    if t.root a = t.root b then (t.root a, u)
    else (min (t.root a) (t.root b),
      u.absorb (min (t.root a) (t.root b)) (max (t.root a) (t.root b))) := by
  have ha := t.reshaped_find a
  have hb := (t.find a).2.reshaped_find b
  have hroot : (t.find a).2.root b = t.root b := ha.root_eq b
  refine ⟨((t.find a).2.find b).2, ha.trans hb, ?_⟩
  rw [← hroot]
  rfl

/-- Identification is a move, if what has to be known of the two nodes is known.  It leaves no more
nodes alive and makes the two one. -/
theorem WellFormed.identify_moves (h : t.WellFormed) {a b : ℕ} (ha : a < t.forest.size)
    (hb : b < t.forest.size) (hJ : ∀ u, Reshaped t u →
      J u (min (t.root a) (t.root b)) (max (t.root a) (t.root b))) :
    Moves L J t (t.identify a b).2 ∧ (t.identify a b).2.live ≤ t.live ∧
      (t.identify a b).2.root a = (t.identify a b).2.root b := by
  obtain ⟨u, hu, heq⟩ := t.identify_eq a b
  rw [heq]
  split_ifs with hab
  · refine ⟨hu.moves, hu.live_eq.le, ?_⟩
    rw [hu.root_eq, hu.root_eq, hab]
  · have hwf := h.reshaped hu
    have hca : u.contains (t.root a) := hu.contains_eq _ ▸ h.contains_root ha
    have hcb : u.contains (t.root b) := hu.contains_eq _ ▸ h.contains_root hb
    have hlt : min (t.root a) (t.root b) < max (t.root a) (t.root b) := by omega
    have hmin := contains_min hca hcb
    have hmax := contains_max hca hcb
    refine ⟨hu.moves.tail (.absorb hmin hmax hlt (hJ u hu)), ?_, ?_⟩
    · have hlive := live_absorb (a := min (t.root a) (t.root b)) hmax
      rw [hu.live_eq] at hlive
      simp only
      omega
    · simp only [hwf.root_absorb hmin hmax hlt, hu.root_eq]
      split_ifs <;> omega

end ToddCoxeter.Table
