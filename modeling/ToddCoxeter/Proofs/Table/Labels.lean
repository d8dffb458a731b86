import Mathlib.Data.List.Chain
import ToddCoxeter.Proofs.Table.Calls

/-! # The labels of nodes

A node is defined for a letter that leads nowhere from some node, and its label is the label of that node with
the letter at its end.  Labels never change, while the nodes around are merged.  Still the label of a live node
spells a path to it from the first node, all labels are reduced, and no two nodes have the same one.  The
reason is that a letter that led somewhere once does so ever after, so that no definition is made twice; and
back along the edge for which a node was defined there is a way from it.

`Table.Labelled made t` is the invariant that carries this.  It speaks of the labels `made` of all nodes ever
made, and is kept by moves (`Table.Labelled.moves`), hence by calls in which the cap is not passed
(`Table.WellFormed.labelled_perform`) and by sequences of them (`Table.WellFormed.labelled_history`). -/

namespace ToddCoxeter

/-- No letter of the word stands next to its inverse. -/
def Word.Reduced (w : Word) : Prop := w.IsChain fun x y => y ≠ x.inverse

theorem Word.reduced_concat {w : Word} {x : Letter} :
    Reduced (w ++ [x]) ↔ w.Reduced ∧ ∀ y ∈ w.getLast?, x ≠ y.inverse := by
  simp [Reduced, List.isChain_append]

namespace Table

variable {L : Letter → Prop} {J : Table → ℕ → ℕ → Prop} {t t' u : Table} {made : List Word} {i : ℕ}
  {x : Letter}

/-! ### The labels of rows -/

theorem label_attach (hi : t.contains i) (j : ℕ) : ((t.attach i x).row j).label =
    if j = t.forest.size then (t.row i).label ++ [x] else (t.row j).label := by
  rw [attach, row_addEdge (contains_side_along hi _ false) (contains_side_along hi _ true), row_addNode]
  split_ifs <;> rfl

theorem label_absorb {a b j : ℕ} (ha : t.contains a) (hab : a ≠ b) (hj : j ≠ b) :
    ((t.absorb a b).row j).label = (t.row j).label := by
  rw [row_absorb ha hab hj]
  split_ifs with haj
  · rw [← haj]
    rfl
  · rfl

/-- No node is made, and live nodes keep their labels. -/
structure KeepsLabels (t t' : Table) : Prop where
  grows : Grows t t'
  size_eq : t'.forest.size = t.forest.size
  label_eq : ∀ i, t'.contains i → (t'.row i).label = (t.row i).label

/-! ### The invariant -/

/-- `made` are the labels of all nodes ever made, in the order of their numbers. -/
structure Labelled (made : List Word) (t : Table) : Prop where
  length_eq : made.length = t.forest.size
  nodup : made.Nodup
  label_eq : ∀ i, t.contains i → made[i]? = some (t.row i).label
  /-- The label of a live node spells a path to it. -/
  path : ∀ i, t.contains i → Path t.Leads 0 (t.row i).label i
  reduced : ∀ w ∈ made, w.Reduced
  /-- The letter for which a node was defined leads somewhere. -/
  leads : ∀ i x, t.contains i → (t.row i).label ++ [x] ∈ made → ∃ j, t.Leads i x j
  /-- A node was defined from the node whose label is its own without the last letter. -/
  mem_of_concat : ∀ w x, w ++ [x] ∈ made → w ∈ made

theorem labelled_start (cap : ℕ) : Labelled [[]] (start cap) := by
  have hrow := row_start cap
  refine ⟨rfl, List.nodup_singleton _, fun i hi => ?_, fun i hi => ?_, fun w hw => ?_, fun i x _ hw => ?_,
    fun w x hw => ?_⟩
  · rw [hrow, (contains_start cap i).1 hi]
    rfl
  · rw [hrow, (contains_start cap i).1 hi]
    rfl
  · rw [List.mem_singleton.1 hw]
    exact List.IsChain.nil
  · exact absurd (List.mem_singleton.1 hw) (by simp)
  · exact absurd (List.mem_singleton.1 hw) (by simp)

namespace Labelled

theorem keepsLabels (hl : Labelled made t) (h : t'.WellFormed) (hk : KeepsLabels t t') :
    Labelled made t' := by
  obtain ⟨hg, hsize, hlabel⟩ := hk
  have hlive : ∀ i, t'.contains i → t.contains i := fun i hi =>
    hg.contains i (hsize ▸ h.lt_of_contains hi) hi
  refine ⟨hl.length_eq.trans hsize.symm, hl.nodup, fun i hi => ?_, fun i hi => ?_, hl.reduced,
    fun i x hi hx => ?_, hl.mem_of_concat⟩
  · rw [hlabel i hi]
    exact hl.label_eq i (hlive i hi)
  · rw [hlabel i hi]
    exact hg.path_of_contains h h.contains_zero hi (hl.path i (hlive i hi))
  · rw [hlabel i hi] at hx
    obtain ⟨j, hj⟩ := hl.leads i x (hlive i hi) hx
    exact ⟨_, hg.leads_of_contains h hi hj⟩

/-- The label of a node that is defined is reduced: the inverse of the last letter of a label leads back from
its node. -/
theorem reduced_concat (hl : Labelled made t) (hi : t.contains i) (hno : ∀ j, ¬ t.Leads i x j) :
    Word.Reduced ((t.row i).label ++ [x]) := by
  have hmem := List.mem_of_getElem? (hl.label_eq i hi)
  apply Word.reduced_concat.2 ⟨hl.reduced _ hmem, _⟩
  rintro y hy rfl
  obtain ⟨w, hw⟩ := List.getLast?_eq_some_iff.1 (Option.mem_def.1 hy)
  have hpath := hl.path i hi
  rw [hw, Path.append] at hpath
  obtain ⟨k, -, hk⟩ := hpath
  exact hno k (Path.singleton.1 hk).inverse

/-- The label of a node that is defined is new: letters for which nodes were defined lead somewhere. -/
theorem concat_notMem (hl : Labelled made t) (hi : t.contains i) (hno : ∀ j, ¬ t.Leads i x j) :
    (t.row i).label ++ [x] ∉ made := fun hmem => by
  obtain ⟨j, hj⟩ := hl.leads i x hi hmem
  exact hno j hj

theorem eq_of_label_eq (hl : Labelled made t) {i j : ℕ} (hi : t.contains i) (hj : t.contains j)
    (heq : (t.row i).label = (t.row j).label) : i = j := by
  have hi := hl.label_eq i hi
  rw [heq, ← hl.label_eq j hj] at hi
  have hlt := (List.getElem?_eq_some_iff.1 (hl.label_eq j hj)).1
  exact ((List.getElem?_inj hlt hl.nodup).1 hi.symm).symm

theorem attach (hl : Labelled made t) (h : t.WellFormed) (hi : t.contains i)
    (hno : ∀ j, ¬ t.Leads i x j) : Labelled (made ++ [(t.row i).label ++ [x]]) (t.attach i x) := by
  have hwf := h.attach (x := x) hi
  have hg := grows_attach hi x
  have hnew := hl.concat_notMem hi hno
  have hlead := h.leads_attach (x := x) hi
  have hlabel := label_attach (x := x) hi
  have hi' : (t.attach i x).contains i := contains_attach.2 (.inr hi)
  have hne : ∀ j, t.contains j → j ≠ t.forest.size := fun j hj => (h.lt_of_contains hj).ne
  refine ⟨?_, ?_, fun j hj => ?_, fun j hj => ?_, fun w hw => ?_, fun j y hj hy => ?_, fun w y hw => ?_⟩
  · rw [size_attach, List.length_append, hl.length_eq]
    rfl
  · rw [← List.concat_eq_append]
    exact (List.nodup_concat ..).2 ⟨hnew, hl.nodup⟩
  · rw [hlabel]
    rcases contains_attach.1 hj with rfl | hj
    · simp [← hl.length_eq]
    · rw [if_neg (hne j hj), List.getElem?_append_left (hl.length_eq ▸ h.lt_of_contains hj)]
      exact hl.label_eq j hj
  · rw [hlabel]
    rcases contains_attach.1 hj with rfl | hj'
    · rw [if_pos rfl]
      exact Path.append.2 ⟨i, hg.path_of_contains hwf hwf.contains_zero hi' (hl.path i hi),
        Path.singleton.2 hlead⟩
    · rw [if_neg (hne j hj')]
      exact hg.path_of_contains hwf hwf.contains_zero hj (hl.path j hj')
  · rcases List.mem_append.1 hw with hw | hw
    · exact hl.reduced w hw
    · exact List.mem_singleton.1 hw ▸ hl.reduced_concat hi hno
  · rw [hlabel] at hy
    rcases contains_attach.1 hj with rfl | hj'
    · -- Nothing was defined from the new node yet.
      rw [if_pos rfl] at hy
      rcases List.mem_append.1 hy with hy | hy
      · exact absurd (hl.mem_of_concat _ _ hy) hnew
      · simp at hy
    · rw [if_neg (hne j hj')] at hy
      rcases List.mem_append.1 hy with hy | hy
      · obtain ⟨k, hk⟩ := hl.leads j y hj' hy
        exact ⟨_, hg.leads_of_contains hwf hj hk⟩
      · obtain ⟨hji, rfl⟩ := by simpa using hy
        rw [hl.eq_of_label_eq hj' hi hji]
        exact ⟨_, hlead⟩
  · rcases List.mem_append.1 hw with hw | hw
    · exact List.mem_append_left _ (hl.mem_of_concat w y hw)
    · obtain ⟨rfl, -⟩ := by simpa using hw
      exact List.mem_append_left _ (List.mem_of_getElem? (hl.label_eq i hi))

/-- Moves keep the invariant and add the labels of the nodes that they make. -/
theorem moves (hl : Labelled made t) (h : t.WellFormed) (hm : Moves L J t t') :
    ∃ made', made <+: made' ∧ Labelled made' t' := by
  refine (hm.invariant (q := fun u => ∃ made', made <+: made' ∧ Labelled made' u) ?_ h
    ⟨made, List.prefix_refl _, hl⟩).2
  rintro u u' hu hm ⟨made', hprefix, hl⟩
  have hu' := hu.move hm
  have hg := hu.grows_move hm
  cases hm with
  | reshape hr => exact ⟨made', hprefix, hl.keepsLabels hu' ⟨hg, hr.size_eq, fun i _ => by rw [hr.row_eq]⟩⟩
  | attach _ hi hno => exact ⟨_, hprefix.trans (List.prefix_append _ _), hl.attach hu hi hno⟩
  | absorb ha _ hab =>
      refine ⟨made', hprefix, hl.keepsLabels hu' ⟨hg, size_absorb, fun i hi => ?_⟩⟩
      exact label_absorb ha hab.ne (contains_absorb.1 hi).1

end Labelled

/-! ### Calls -/

/-- Does the call fail because it would keep more nodes alive than the cap allows? -/
def overflows (t : Table) : Call → Bool
  | .step i x =>
    match t.locate i with
    | .ok i => !(t.step i x).1.isOk
    | .error _ => false
  | .trace i w =>
    match t.locate i with
    | .ok i => !(t.trace i w).1.isOk
    | .error _ => false
  | _ => false

/-- Do none of the calls fail for the cap when they are made one after the other? -/
def withinCap (t : Table) : List Call → Bool
  | [] => true
  | c :: cs => !t.overflows c && (t.perform c).withinCap cs

theorem KeepsLabels.refl (t : Table) : KeepsLabels t t := ⟨.refl t, rfl, fun _ _ => rfl⟩

theorem keepsLabels_of_columns {f : Forest} (hf : f.SameRoots t.forest)
    (columns : List (String × Array ℕ)) : KeepsLabels t { t with forest := f, columns } := by
  have hr : Reshaped t { t with forest := f } := ⟨f, hf, rfl⟩
  exact ⟨hr.grows.trans (.of_eq rfl rfl rfl), hf.size_eq, fun _ _ => rfl⟩

/-- `t'` comes from `t` by definitions, or by identifications if the call is made for them, and otherwise has
the same nodes with the same labels. -/
def Call.Leaves (c : Call) (t t' : Table) : Prop :=
  ∃ u, Moves (fun _ => ¬ c.Identifies) (fun _ _ _ => c.Identifies) t u ∧ KeepsLabels u t' ∧
    ∀ i, u.contains i → t'.contains i

theorem Call.leaves_of_moves {c : Call}
    (h : Moves (fun _ => ¬ c.Identifies) (fun _ _ _ => c.Identifies) t t') : c.Leaves t t' :=
  ⟨t', h, .refl t', fun _ => id⟩

/-- A call that is within the cap and leaves the table open defines nodes or identifies nodes, but not
both. -/
theorem WellFormed.leaves_perform (h : t.WellFormed) {c : Call} (hcap : t.overflows c = false)
    (hopen : (t.perform c).closed = false) : c.Leaves t (t.perform c) := by
  cases c with
  | find i =>
      exact onNode_induction (Call.leaves_of_moves .refl) fun k _ _ =>
        Call.leaves_of_moves (t.reshaped_find k).moves
  | neighbours i x =>
      exact onNode_induction (Call.leaves_of_moves .refl) fun k _ _ =>
        Call.leaves_of_moves (t.reshaped_neighbours k x).moves
  | step i x =>
      refine onNode_induction (Call.leaves_of_moves .refl) fun k hi hk => Call.leaves_of_moves ?_
      have hstep := h.step_yields (L := fun _ => ¬ False) (J := fun _ _ _ => False) hk (x := x) not_false
      rcases hu : t.step k x with ⟨fault | j, u⟩ <;> rw [hu] at hstep
      · simp [overflows, hi, hu, Except.isOk, Except.toBool] at hcap
      · exact hstep.1
  | trace i w =>
      refine onNode_induction (Call.leaves_of_moves .refl) fun k hi hk => Call.leaves_of_moves ?_
      have htrace := h.trace_yields (L := fun _ => ¬ False) (J := fun _ _ _ => False) hk (w := w)
        fun _ _ => not_false
      rcases hu : t.trace k w with ⟨fault | j, u⟩ <;> rw [hu] at htrace
      · simp [overflows, hi, hu, Except.isOk, Except.toBool] at hcap
      · exact htrace.1
  | identify a b =>
      refine onNode_induction (Call.leaves_of_moves .refl) fun a _ ha => ?_
      have hr := t.reshaped_find a
      refine onNode_induction (Call.leaves_of_moves hr.moves) fun b _ hb => Call.leaves_of_moves ?_
      rw [hr.size_eq] at hb
      exact (h.identify_moves ha hb fun _ _ => trivial).1
  | sweep gens =>
      exact Call.leaves_of_moves
        ((h.sweep_swept gens).moves.mono (fun _ hx => hx.elim) fun _ _ _ _ => trivial)
  | markComplete i =>
      refine onNode_induction (Call.leaves_of_moves .refl) fun k _ hk =>
        ⟨t, .refl, ⟨h.grows_markComplete hk, rfl, fun j _ => ?_⟩, fun j => (contains_markComplete j).symm ▸ id⟩
      rw [h.row_markComplete hk]
      split_ifs <;> rfl
  | close gens =>
      obtain ⟨f, columns, hf, heq⟩ := exists_close_eq hopen
      rw [perform, heq]
      exact ⟨t, .refl, keepsLabels_of_columns hf columns, fun _ => id⟩

/-- A call within the cap adds the labels of the nodes that it makes, and these are alive after it. -/
theorem WellFormed.labelled_perform (h : t.WellFormed) (hl : Labelled made t) {c : Call}
    (hcap : t.overflows c = false) (hopen : (t.perform c).closed = false) :
    ∃ made', made <+: made' ∧ Labelled made' (t.perform c) ∧
      ∀ i, made.length ≤ i → i < made'.length → (t.perform c).contains i := by
  obtain ⟨u, hm, hk, hlive⟩ := h.leaves_perform hcap hopen
  have hwf := (h.grows_changes (h.changes_perform (J := fun _ _ _ => True) (fun _ _ _ _ => trivial) hopen)).1
  obtain ⟨made', hprefix, hl'⟩ := hl.moves h hm
  have hl'' := hl'.keepsLabels hwf hk
  refine ⟨made', hprefix, hl'', fun i hi hlt => ?_⟩
  rw [hl.length_eq] at hi
  rw [hl'.length_eq] at hlt
  by_cases hc : c.Identifies
  · have hsize := (Moves.size_and_edges_eq (hm.mono (fun _ hx => hx hc) fun _ _ _ hJ => hJ)).1
    omega
  · exact hlive i ((hm.mono (fun _ hx => hx) fun _ _ _ hJ => hc hJ).contains_of_size_le hi hlt)

/-! ### Histories -/

/-- In the course of the calls the node is once alive and has the label `w`. -/
def Bears (t : Table) (cs : List Call) (i : ℕ) (w : Word) : Prop :=
  ∃ ds u, ds <+: cs ∧ t.history ds = some u ∧ u.contains i ∧ (u.row i).label = w

theorem bears_nil {w : Word} : t.Bears [] i w ↔ t.contains i ∧ (t.row i).label = w := by
  constructor
  · rintro ⟨ds, u, hds, hu, hi⟩
    obtain rfl := List.prefix_nil.1 hds
    obtain rfl : t = u := Option.some.inj hu
    exact hi
  · exact fun hi => ⟨[], t, List.prefix_refl _, rfl, hi⟩

theorem bears_cons {c : Call} {cs : List Call} {w : Word} (hopen : (t.perform c).closed = false) :
    t.Bears (c :: cs) i w ↔ t.contains i ∧ (t.row i).label = w ∨ (t.perform c).Bears cs i w := by
  constructor
  · rintro ⟨ds, u, hds, hu, hi⟩
    cases ds with
    | nil =>
        obtain rfl : t = u := Option.some.inj hu
        exact .inl hi
    | cons d ds =>
        obtain ⟨rfl, hprefix⟩ := List.cons_prefix_cons.1 hds
        exact .inr ⟨ds, u, hprefix, (history_cons_eq_some.1 hu).2, hi⟩
  · rintro (hi | ⟨ds, u, hds, hu, hi⟩)
    · exact ⟨[], t, List.nil_prefix, rfl, hi⟩
    · exact ⟨c :: ds, u, List.cons_prefix_cons.2 ⟨rfl, hds⟩, history_cons_eq_some.2 ⟨hopen, hu⟩, hi⟩

/-- After calls within the cap, the labels made are those that were made before and those that nodes have had
in the course of the calls. -/
theorem WellFormed.labelled_history (h : t.WellFormed) (hl : Labelled made t) {cs : List Call}
    (hcs : t.history cs = some t') (hcap : t.withinCap cs) :
    ∃ made', Labelled made' t' ∧
      ∀ i w, made'[i]? = some w ↔ made[i]? = some w ∨ t.Bears cs i w := by
  induction cs generalizing t made with
  | nil =>
      obtain rfl : t = t' := Option.some.inj hcs
      refine ⟨made, hl, fun i w => ⟨.inl, ?_⟩⟩
      rw [bears_nil]
      rintro (hw | ⟨hi, rfl⟩)
      · exact hw
      · exact hl.label_eq i hi
  | cons c cs ih =>
      obtain ⟨hopen, hcs⟩ := history_cons_eq_some.1 hcs
      obtain ⟨hc, hcap⟩ := Bool.and_eq_true_iff.1 hcap
      obtain ⟨made₁, ⟨new, rfl⟩, hl₁, hlive⟩ := h.labelled_perform hl (Bool.not_eq_true' _ ▸ hc) hopen
      have hwf := (h.grows_changes
        (h.changes_perform (J := fun _ _ _ => True) (fun _ _ _ _ => trivial) hopen)).1
      obtain ⟨made', hl', hiff⟩ := ih hwf hl₁ hcs hcap
      refine ⟨made', hl', fun i w => ?_⟩
      rw [hiff, bears_cons hopen]
      constructor
      · rintro (hw | hw)
        · by_cases hi : i < made.length
          · rw [List.getElem?_append_left hi] at hw
            exact .inl hw
          · have hi' := hlive i (by omega) (List.getElem?_eq_some_iff.1 hw).1
            have hlabel := hl₁.label_eq i hi'
            rw [hw, Option.some.injEq] at hlabel
            exact .inr (.inr ⟨[], _, List.nil_prefix, rfl, hi', hlabel.symm⟩)
        · exact .inr (.inr hw)
      · have hkeep : made[i]? = some w → (made ++ new)[i]? = some w := fun hw => by
          rwa [List.getElem?_append_left (List.getElem?_eq_some_iff.1 hw).1]
        rintro (hw | ⟨hi, rfl⟩ | hw)
        · exact .inl (hkeep hw)
        · exact .inl (hkeep (hl.label_eq i hi))
        · exact .inr hw

/-- Labels in the course of calls on the table `t₀` that lead to the table `t`. -/
structure TellsNodes (t₀ : Table) (cs : List Call) (t : Table) : Prop where
  /-- The label of a live node spells a path to it from the first node. -/
  path : ∀ i, t.contains i → Path t.Leads 0 (t.row i).label i
  /-- No label has a letter next to its inverse. -/
  reduced : ∀ i w, t₀.Bears cs i w → w.Reduced
  /-- A node has the same label as long as it lives. -/
  exists_unique : ∀ i < t.forest.size, ∃! w, t₀.Bears cs i w
  /-- No two nodes ever made have the same label. -/
  eq_of_bears : ∀ i j w, t₀.Bears cs i w → t₀.Bears cs j w → i = j

theorem tellsNodes_of_withCap {cap : Int} {t₀ : Table} {cs : List Call} (h₀ : withCap cap = .ok t₀)
    (hcs : t₀.history cs = some t) (hcap : t₀.withinCap cs) : TellsNodes t₀ cs t := by
  obtain ⟨rfl, -⟩ := withCap_eq_ok h₀
  obtain ⟨made, hl, hiff⟩ := (wellFormed_start cap.toNat).labelled_history (labelled_start _) hcs hcap
  have hbears : ∀ i w, (start cap.toNat).Bears cs i w ↔ made[i]? = some w := by
    intro i w
    rw [hiff]
    refine ⟨.inr, fun h => h.elim (fun hw => ?_) id⟩
    -- The first node is alive from the beginning.
    obtain ⟨hi, rfl⟩ := List.getElem?_eq_some_iff.1 hw
    obtain rfl : i = 0 := Nat.lt_one_iff.1 hi
    exact ⟨[], _, List.nil_prefix, rfl, (contains_start _ _).2 rfl, congrArg Row.label (row_start _ _)⟩
  refine ⟨hl.path, fun i w hw => ?_, fun i hi => ?_, fun i j w hi hj => ?_⟩
  · exact hl.reduced w (List.mem_of_getElem? ((hbears i w).1 hw))
  · have hlt : i < made.length := hl.length_eq.symm ▸ hi
    refine ⟨made[i], (hbears i _).2 (List.getElem?_eq_getElem hlt), fun w hw => ?_⟩
    exact (List.getElem?_eq_some_iff.1 ((hbears i w).1 hw)).2.symm
  · rw [hbears] at hi hj
    have hlt := (List.getElem?_eq_some_iff.1 hi).1
    exact (List.getElem?_inj hlt hl.nodup).1 (hi.trans hj.symm)

end Table

end ToddCoxeter
