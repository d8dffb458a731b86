import ToddCoxeter.Proofs.Checked.Closing

/-! # Calls on an open table

A `Table.Call` is a call of one of the operations that a table offers, and `Table.perform` gives the table
that the call leaves behind, be it done or failed.  A definition that passes the cap leaves a node without
an edge, a table that cannot be closed keeps the columns that were found, and a call that names no node
changes nothing.

What a call does to a table that stays open is a sequence of a few kinds of change (`Table.Change`,
`Table.WellFormed.changes_perform`), and what these preserve is proved here once.  `Table.history` performs
one call after the other, and the open tables that it reaches from a new table are those with
`Table.Reachable`. -/

namespace ToddCoxeter.Table

/-- A call of an operation.  A node is named by an integer, counted from the end if that is negative. -/
inductive Call where
  | find (i : Int)
  | neighbours (i : Int) (x : Letter)
  | step (i : Int) (x : Letter)
  | trace (i : Int) (w : Word)
  | identify (a b : Int)
  | sweep (gens : List String)
  | markComplete (i : Int)
  | close (gens : List String)
deriving DecidableEq, Repr

/-- The calls that may identify nodes. -/
def Call.Identifies : Call → Prop
  | .identify _ _ | .sweep _ => True
  | _ => False

/-- The table that `f` makes of the node with the given name, or the table itself if there is none. -/
def onNode (t : Table) (i : Int) (f : ℕ → Table) : Table :=
  match t.locate i with
  | .ok i => f i
  | .error _ => t

/-- The table that a call leaves behind, be it done or failed. -/
def perform (t : Table) : Call → Table
  | .find i => t.onNode i fun i => (t.find i).2
  | .neighbours i x => t.onNode i fun i => (t.neighbours i x).2
  | .step i x => t.onNode i fun i => (t.step i x).2
  | .trace i w => t.onNode i fun i => (t.trace i w).2
  | .identify a b => t.onNode a fun a => (t.find a).2.onNode b fun b => (t.identify a b).2
  | .sweep gens => (t.sweep gens).2
  | .markComplete i => t.onNode i t.markComplete
  | .close gens => (t.close gens).2

/-- The table after several calls; none if one of them closes the table. -/
def history (t : Table) : List Call → Option Table
  | [] => some t
  | c :: cs => (Option.guard (fun u => !u.closed) (t.perform c)).bind fun u => u.history cs

/-- Some calls on a new table lead to this one, and it is still open. -/
def Reachable (t : Table) : Prop := ∃ cap t₀ cs, withCap cap = .ok t₀ ∧ t₀.history cs = some t

/-! ### Kinds of change -/

/-- What a call may do to a table: a move, a node without edges, a mark of completeness, columns.  Two
nodes `a` and `b` are only identified in a table `t` with `J t a b`. -/
inductive Change (J : Table → ℕ → ℕ → Prop) : Table → Table → Prop
  | move {t t' : Table} : Move (fun _ => True) J t t' → Change J t t'
  | spare (t : Table) (label : Word) : Change J t (t.addNode label)
  | mark {t : Table} {i : ℕ} : i < t.forest.size → Change J t (t.markComplete i)
  | columns (t : Table) (columns : List (String × Array ℕ)) : Change J t { t with columns }

/-- A sequence of changes. -/
abbrev Changes (J : Table → ℕ → ℕ → Prop) : Table → Table → Prop := Relation.ReflTransGen (Change J)

variable {L : Letter → Prop} {J J' : Table → ℕ → ℕ → Prop} {t t' : Table} {i : ℕ}

theorem Changes.mono (hJ : ∀ t a b, J t a b → J' t a b) (h : Changes J t t') : Changes J' t t' := by
  refine h.lift id fun u v hc => ?_
  cases hc with
  | move hm => exact .move (hm.mono (fun _ hx => hx) hJ)
  | spare label => exact .spare u label
  | mark hi => exact .mark hi
  | columns cols => exact .columns u cols

theorem Moves.changes (h : Moves L J t t') : Changes J t t' :=
  h.lift id fun _ _ hm => .move (hm.mono (fun _ _ => trivial) fun _ _ _ hj => hj)

theorem Reshaped.changes (h : Reshaped t t') : Changes J t t' :=
  Moves.changes (L := fun _ => True) h.moves

/-! ### What changes preserve -/

theorem WellFormed.change (h : t.WellFormed) (hc : Change J t t') : t'.WellFormed := by
  cases hc with
  | move hm => exact h.move hm
  | spare label => exact h.addNode label
  | mark hi => exact h.markComplete hi
  | columns cols => exact h.of_eq rfl rfl rfl

theorem WellFormed.grows_change (h : t.WellFormed) (hc : Change J t t') : Grows t t' := by
  cases hc with
  | move hm => exact h.grows_move hm
  | spare label => exact t.grows_addNode label
  | mark hi => exact h.grows_markComplete hi
  | columns cols => exact .of_eq rfl rfl rfl

/-- What a single change preserves along with well-formedness, a sequence of changes preserves. -/
theorem Changes.invariant {q : Table → Prop}
    (hq : ∀ t t', t.WellFormed → Change J t t' → q t → q t') (h : Changes J t t') (ht : t.WellFormed)
    (hqt : q t) : t'.WellFormed ∧ q t' := by
  induction h with
  | refl => exact ⟨ht, hqt⟩
  | tail _ hc ih => exact ⟨ih.1.change hc, hq _ _ ih.1 hc ih.2⟩

theorem WellFormed.grows_changes (h : t.WellFormed) (hc : Changes J t t') :
    t'.WellFormed ∧ Grows t t' :=
  hc.invariant (q := Grows t) (fun _ _ hu hc ht => ht.trans (hu.grows_change hc)) h (.refl t)

theorem Changes.edges_isPrefix (h : Changes J t t') : t.edges.toList <+: t'.edges.toList := by
  induction h with
  | refl => exact List.prefix_refl _
  | @tail u v _ hc ih =>
      refine ih.trans ?_
      cases hc with
      | move hm =>
          cases hm with
          | reshape hr => rw [hr.edges_eq]
          | attach => exact ⟨[_], (Array.toList_push ..).symm⟩
          | absorb => exact List.prefix_refl _
      | spare | mark | columns => exact List.prefix_refl _

/-! ### Calls make changes -/

theorem WellFormed.changes_step (h : t.WellFormed) (hi : i < t.forest.size) (x : Letter) :
    Changes J t (t.step i x).2 := by
  rcases h.step_cases hi x with ⟨j, u, heq, hr, -⟩ | ⟨hno, u, hr, heq⟩
  · rw [heq]
    exact hr.changes
  · have hu := h.reshaped hr
    rw [heq, define_eq, hu.live_addNode]
    split_ifs with hcap
    · exact hr.changes.tail (.spare u _)
    · rw [← hr.leads_eq] at hno
      have hlive : u.contains (t.root i) := by
        rw [hr.contains_eq]
        exact h.contains_root hi
      exact hr.changes.tail (.move (.attach trivial hlive hno (by omega)))

theorem WellFormed.changes_trace (h : t.WellFormed) (hi : i < t.forest.size) (w : Word) :
    Changes J t (t.trace i w).2 := by
  induction w generalizing t i with
  | nil => exact (t.reshaped_find i).changes
  | cons x w ih =>
      have hfirst := h.changes_step (J := J) hi x
      have hstep := h.step_yields (L := fun _ => True) (J := fun _ _ _ => False) hi (x := x) trivial
      unfold trace
      rcases hstep' : t.step i x with ⟨fault | j, u⟩ <;> rw [hstep'] at hfirst hstep
      · exact hfirst
      · have hu := h.moves hstep.1
        exact hfirst.trans (ih hu (hu.lt_of_contains (hu.contains_of_leads hstep.2.2).2))

theorem exists_recordColumns_eq (t : Table) (gens : List String) : ∃ f columns,
    f.SameRoots t.forest ∧ (t.recordColumns gens).2 = { t with forest := f, columns } := by
  induction gens generalizing t with
  | nil => exact ⟨t.forest, t.columns, .refl _, rfl⟩
  | cons g gens ih =>
      obtain ⟨f, hf, heq⟩ := t.reshaped_column t.ids ⟨g, false⟩ t.ids
      unfold recordColumns
      rcases hcol : t.column t.ids ⟨g, false⟩ t.ids with ⟨fault | places, u⟩ <;> rw [hcol] at heq
      · exact ⟨f, t.columns, hf, heq⟩
      · obtain rfl : u = { t with forest := f } := heq
        obtain ⟨f', columns, hf', heq'⟩ :=
          ih { t with forest := f, columns := setEntry g places.toArray t.columns }
        exact ⟨f', columns, hf'.trans hf, heq'⟩

/-- A table that stays open although it is to be closed gets columns at most. -/
theorem exists_close_eq {gens : List String} (hopen : (t.close gens).2.closed = false) :
    ∃ f columns, f.SameRoots t.forest ∧ (t.close gens).2 = { t with forest := f, columns } := by
  unfold close at hopen ⊢
  by_cases hclosed : t.closed = true
  · simp [hclosed] at hopen
  · obtain ⟨f, columns, hf, heq⟩ := t.exists_recordColumns_eq gens
    rw [if_neg hclosed] at hopen ⊢
    rcases hrec : t.recordColumns gens with ⟨fault | _, u⟩ <;> rw [hrec] at heq hopen
    · exact ⟨f, columns, hf, heq⟩
    · simp [renumber] at hopen

theorem changes_close {gens : List String} (hopen : (t.close gens).2.closed = false) :
    Changes J t (t.close gens).2 := by
  obtain ⟨f, columns, hf, heq⟩ := exists_close_eq hopen
  rw [heq]
  have hreshaped : Reshaped t { t with forest := f } := ⟨f, hf, rfl⟩
  exact hreshaped.changes.tail (.columns _ columns)

/-- What holds of the table and of all that the operation makes of its nodes holds after the call. -/
theorem onNode_induction {q : Table → Prop} {i : Int} {f : ℕ → Table} (ht : q t)
    (h : ∀ k, t.locate i = .ok k → k < t.forest.size → q (f k)) : q (t.onNode i f) := by
  unfold onNode
  cases hi : t.locate i with
  | error fault => exact ht
  | ok k => exact h k hi (Position.lt_of_resolve? (Position.locate_eq_ok_iff.1 hi))

theorem changes_onNode {i : Int} {f : ℕ → Table}
    (h : ∀ k, t.locate i = .ok k → k < t.forest.size → Changes J t (f k)) :
    Changes J t (t.onNode i f) := onNode_induction .refl h

/-- A call that leaves the table open makes changes, and identifies nodes only if it is made for that. -/
theorem WellFormed.changes_perform (h : t.WellFormed) {c : Call}
    (hJ : c.Identifies → ∀ t a b, J t a b) (hopen : (t.perform c).closed = false) :
    Changes J t (t.perform c) := by
  cases c with
  | find i => exact changes_onNode fun k _ _ => (t.reshaped_find k).changes
  | neighbours i x => exact changes_onNode fun k _ _ => (t.reshaped_neighbours k x).changes
  | step i x => exact changes_onNode fun k _ hk => h.changes_step hk x
  | trace i w => exact changes_onNode fun k _ hk => h.changes_trace hk w
  | identify a b =>
      refine changes_onNode fun a _ ha => ?_
      have hr := t.reshaped_find a
      refine onNode_induction hr.changes fun b _ hb => ?_
      rw [hr.size_eq] at hb
      exact (h.identify_moves (L := fun _ => True) ha hb fun _ _ => hJ trivial ..).1.changes
  | sweep gens => exact (h.sweep_swept gens).moves.changes.mono fun t a b _ => hJ trivial t a b
  | markComplete i => exact changes_onNode fun k _ hk => .single (.mark hk)
  | close gens => exact changes_close hopen

/-! ### Histories -/

theorem history_cons_eq_some {c : Call} {cs : List Call} :
    t.history (c :: cs) = some t' ↔
      (t.perform c).closed = false ∧ (t.perform c).history cs = some t' := by
  rw [history]
  cases hopen : (t.perform c).closed <;> simp [Option.guard, hopen]

theorem WellFormed.changes_history (h : t.WellFormed) {cs : List Call}
    (hcs : t.history cs = some t') : Changes (fun _ _ _ => True) t t' := by
  induction cs generalizing t with
  | nil =>
      obtain rfl : t = t' := Option.some.inj hcs
      exact .refl
  | cons c cs ih =>
      obtain ⟨hopen, hcs⟩ := history_cons_eq_some.1 hcs
      have hc := h.changes_perform (J := fun _ _ _ => True) (fun _ _ _ _ => trivial) hopen
      exact hc.trans (ih (h.grows_changes hc).1 hcs)

theorem withCap_eq_ok {cap : Int} (h : withCap cap = .ok t) : t = start cap.toNat ∧ 0 < cap.toNat := by
  unfold withCap at h
  split_ifs at h with hcap
  obtain rfl := Except.ok.inj h
  exact ⟨rfl, by omega⟩

theorem Reachable.wellFormed (h : t.Reachable) : t.WellFormed := by
  obtain ⟨cap, t₀, cs, h₀, hcs⟩ := h
  obtain ⟨rfl, -⟩ := withCap_eq_ok h₀
  have hstart := wellFormed_start cap.toNat
  exact (hstart.grows_changes (hstart.changes_history hcs)).1

/-- Calls that define three nodes, fail to define one more under a cap of four, and identify two nodes, from
which the letter `a` leads to different nodes. -/
def crowded : List Call :=
  [.step 0 ⟨"a", false⟩, .step 0 ⟨"b", false⟩, .step 2 ⟨"a", false⟩, .step 3 ⟨"b", true⟩,
    .identify 2 0]

end ToddCoxeter.Table
