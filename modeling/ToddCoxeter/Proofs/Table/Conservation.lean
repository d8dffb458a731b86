import ToddCoxeter.Proofs.Table.Classes
import ToddCoxeter.Proofs.Table.Labels

/-! # Nodes, edges and events add up

Every node but the first is made together with an edge, unless the cap is passed, and every node is alive or
was dropped by an identification, which is recorded.  So nodes, edges, failures and identifications are in a
fixed relation (`Table.Accounted`), which moves keep (`Table.Accounted.move`) and which a failure changes by one
(`Table.Breaks`, `Table.Accounted.breaks`).  Calls therefore keep the account if their failures are counted
(`Table.Accounted.perform`, `Table.WellFormed.accounted_history`), and they record as many identifications as
they make (`Table.WellFormed.length_drops_perform`).

What this means for a log alone is `Event.Coherent`. -/

namespace ToddCoxeter

namespace Event

/-! ### Coherent logs -/

/-- The node that was completed, if the event says so. -/
def completion? : Event → Option ℕ
  | .completed id .. => some id
  | _ => none

/-- The nodes that were dropped, in their order. -/
def drops (log : List Event) : List ℕ := (log.filterMap pair?).map Prod.snd

/-- The nodes that were completed, in their order. -/
def completions (log : List Event) : List ℕ := log.filterMap completion?

theorem drops_append (log log' : List Event) : drops (log ++ log') = drops log ++ drops log' := by
  simp [drops]

theorem completions_append (log log' : List Event) :
    completions (log ++ log') = completions log ++ completions log' := List.filterMap_append

/-- The events of the log do not contradict each other. -/
structure Coherent (log : List Event) : Prop where
  /-- When a node is completed, the live nodes and those dropped so far are one more than the edges. -/
  balance : ∀ as id label nodes edges bs, log = as ++ .completed id label nodes edges :: bs →
    nodes + (drops as).length = edges + 1
  /-- Of two nodes the smaller one is kept. -/
  lt : ∀ kept dropped, .identified kept dropped ∈ log → kept < dropped
  /-- No node is dropped twice. -/
  nodup_drops : (drops log).Nodup
  /-- Nodes are completed in increasing order. -/
  sorted_completions : (completions log).Pairwise (· < ·)

/-- A log may go on with the event: a node is dropped for the first time, or the numbers are right and all nodes
completed before are smaller. -/
def Follows (log : List Event) : Event → Prop
  | .identified kept dropped => kept < dropped ∧ dropped ∉ drops log
  | .completed id _ nodes edges => nodes + (drops log).length = edges + 1 ∧ ∀ j ∈ completions log, j < id
  | .enumerated .. => True

namespace Coherent

variable {log : List Event} {event : Event}

theorem nil : Coherent [] :=
  ⟨fun _ _ _ _ _ _ h => by simp at h, fun _ _ h => absurd h (by simp), List.nodup_nil, List.Pairwise.nil⟩

theorem concat (h : Coherent log) (he : Follows log event) : Coherent (log ++ [event]) := by
  refine ⟨fun as id label nodes edges bs heq => ?_, fun kept dropped hmem => ?_, ?_, ?_⟩
  · have hlast := (exists_concat_eq_append_cons (P := fun as' _ => as' = as)).1 ⟨as, bs, heq, rfl⟩
    rcases hlast with ⟨rfl, rfl⟩ | ⟨as', bs', hlog, rfl⟩
    · exact he.1
    · exact h.balance as' id label nodes edges bs' hlog
  · rcases List.mem_append.1 hmem with hmem | hmem
    · exact h.lt kept dropped hmem
    · obtain rfl := List.mem_singleton.1 hmem
      exact he.1
  · rw [drops_append]
    cases event with
    | identified kept dropped =>
        exact h.nodup_drops.append (List.nodup_singleton dropped) (List.disjoint_singleton.2 he.2)
    | completed | enumerated => exact (List.append_nil (drops log)).symm ▸ h.nodup_drops
  · rw [completions_append]
    cases event with
    | completed id label nodes edges =>
        exact List.pairwise_append.2 ⟨h.sorted_completions, List.pairwise_singleton _ _,
          fun j hj k hk => List.mem_singleton.1 hk ▸ he.2 j hj⟩
    | identified | enumerated => exact (List.append_nil (completions log)).symm ▸ h.sorted_completions

end Coherent

end Event

namespace Table

open Event (drops completions Coherent)

variable {L : Letter → Prop} {J : Table → ℕ → ℕ → Prop} {t t' u : Table} {n i : ℕ} {x : Letter}

/-! ### The account of a table -/

/-- Apart from the first node and `n` others, nodes were made together with edges, and the nodes that are not
alive were dropped. -/
structure Accounted (n : ℕ) (t : Table) : Prop where
  edges_eq : t.edges.size + 1 + n = t.forest.size
  live_eq : t.live + (drops t.log.toList).length = t.forest.size
  dropped : ∀ b ∈ drops t.log.toList, b < t.forest.size ∧ ¬ t.contains b
  coherent : Coherent t.log.toList

theorem accounted_start (cap : ℕ) : Accounted 0 (start cap) := by
  have hsize : (start cap).forest.size = 1 := Array.size_range
  have hlive : (start cap).live = 1 := by
    rw [← length_ids]
    rfl
  exact ⟨hsize.symm, hlive.trans hsize.symm, fun b hb => absurd hb List.not_mem_nil, .nil⟩

namespace Accounted

theorem congr (ha : Accounted n t) (hsize : t'.forest.size = t.forest.size) (hlive : t'.live = t.live)
    (hcontains : ∀ i, t'.contains i = t.contains i) (hedges : t'.edges = t.edges) (hlog : t'.log = t.log) :
    Accounted n t' := by
  refine ⟨?_, ?_, ?_, ?_⟩
  · rw [hedges, hsize]
    exact ha.edges_eq
  · rw [hlog, hlive, hsize]
    exact ha.live_eq
  · rw [hlog, hsize]
    exact fun b hb => hcontains b ▸ ha.dropped b hb
  · rw [hlog]
    exact ha.coherent

theorem reshaped (ha : Accounted n t) (hr : Reshaped t t') : Accounted n t' := by
  have hsize := hr.size_eq
  obtain ⟨f, -, rfl⟩ := hr
  exact ha.congr hsize rfl (fun _ => rfl) rfl rfl

theorem attach (ha : Accounted n t) (h : t.WellFormed) : Accounted n (t.attach i x) := by
  have hedges : (t.attach i x).edges.size = t.edges.size + 1 := Array.size_push ..
  have hlog : (t.attach i x).log = t.log := rfl
  refine ⟨?_, ?_, ?_, ?_⟩
  · have := ha.edges_eq
    rw [hedges, size_attach]
    omega
  · have := ha.live_eq
    rw [hlog, h.live_attach, size_attach]
    omega
  · rw [hlog]
    intro b hb
    obtain ⟨hlt, hno⟩ := ha.dropped b hb
    rw [size_attach, contains_attach]
    exact ⟨by omega, fun hc => hc.elim (by omega) hno⟩
  · rw [hlog]
    exact ha.coherent

theorem absorb {a b : ℕ} (ha : Accounted n t) (h : t.WellFormed) (hb : t.contains b) (hab : a < b) :
    Accounted n (t.absorb a b) := by
  have hlog : (t.absorb a b).log.toList = t.log.toList ++ [.identified a b] := Array.toList_push ..
  have hdrops : drops (t.absorb a b).log.toList = drops t.log.toList ++ [b] := by
    rw [hlog, Event.drops_append]
    rfl
  refine ⟨?_, ?_, ?_, ?_⟩
  · rw [size_absorb]
    exact ha.edges_eq
  · have := ha.live_eq
    have := live_absorb (a := a) hb
    rw [hdrops, size_absorb, List.length_append, List.length_singleton]
    omega
  · rw [hdrops, size_absorb]
    intro c hc
    rw [contains_absorb]
    rcases List.mem_append.1 hc with hc | hc
    · exact ⟨(ha.dropped c hc).1, fun hno => (ha.dropped c hc).2 hno.2⟩
    · obtain rfl := List.mem_singleton.1 hc
      exact ⟨h.lt_of_contains hb, fun hno => hno.1 rfl⟩
  · rw [hlog]
    exact ha.coherent.concat ⟨hab, fun hmem => (ha.dropped b hmem).2 hb⟩

theorem move (ha : Accounted n t) (h : t.WellFormed) (hm : Move L J t t') : Accounted n t' := by
  cases hm with
  | reshape hr => exact ha.reshaped hr
  | attach => exact ha.attach h
  | absorb _ hb hab => exact ha.absorb h hb hab

theorem moves (ha : Accounted n t) (h : t.WellFormed) (hm : Moves L J t t') : Accounted n t' :=
  (hm.invariant (q := Accounted n) (fun _ _ hu hm ha => ha.move hu hm) h ha).2

theorem addNode (ha : Accounted n t) (h : t.WellFormed) (label : Word) :
    Accounted (n + 1) (t.addNode label) := by
  have hlog : (t.addNode label).log = t.log := rfl
  refine ⟨?_, ?_, ?_, ?_⟩
  · have := ha.edges_eq
    rw [size_addNode]
    show t.edges.size + 1 + (n + 1) = _
    omega
  · have := ha.live_eq
    rw [hlog, h.live_addNode, size_addNode]
    omega
  · rw [hlog]
    intro b hb
    obtain ⟨hlt, hno⟩ := ha.dropped b hb
    rw [size_addNode, contains_addNode]
    exact ⟨by omega, fun hc => hc.elim (by omega) hno⟩
  · rw [hlog]
    exact ha.coherent

theorem markComplete (ha : Accounted n t) : Accounted n (t.markComplete i) :=
  ha.congr rfl live_markComplete contains_markComplete rfl rfl

end Accounted

/-! ### Failures -/

/-- `t'` comes from `t` by moves and one more node, which has no edge.  This is how an attempt ends that passes
the cap. -/
def Breaks (t t' : Table) : Prop :=
  ∃ u label, Moves (fun _ => True) (fun _ _ _ => True) t u ∧ t' = u.addNode label

theorem Accounted.breaks (ha : Accounted n t) (h : t.WellFormed) (hb : Breaks t t') :
    Accounted (n + 1) t' := by
  obtain ⟨u, label, hm, rfl⟩ := hb
  exact (ha.moves h hm).addNode (h.moves hm) label

theorem Moves.breaks (hm : Moves L J t u) (hb : Breaks u t') : Breaks t t' := by
  obtain ⟨v, label, hv, rfl⟩ := hb
  exact ⟨v, label, (hm.mono (fun _ _ => trivial) fun _ _ _ _ => trivial).trans hv, rfl⟩

section breaks

variable {fault : CapacityFault}

theorem WellFormed.breaks_step (h : t.WellFormed) (hi : i < t.forest.size)
    (hstep : t.step i x = (.error fault, t')) : Breaks t t' := by
  rcases h.step_cases hi x with ⟨j, u, heq, -⟩ | ⟨-, u, hr, heq⟩
  · exact absurd (hstep.symm.trans heq) (by simp)
  · rw [heq, define_eq] at hstep
    split_ifs at hstep with hcap
    · exact ⟨u, _, hr.moves, (congrArg Prod.snd hstep).symm⟩
    · simp at hstep

theorem WellFormed.breaks_stepAll (h : t.WellFormed) (hi : i < t.forest.size) {xs : List Letter}
    (hall : t.stepAll i xs = (.error fault, t')) : Breaks t t' := by
  induction xs generalizing t with
  | nil => simp [stepAll] at hall
  | cons x xs ih =>
      have hyields := h.step_yields (L := fun _ => True) (J := fun _ _ _ => True) hi (x := x) trivial
      unfold stepAll at hall
      rcases hstep : t.step i x with ⟨fault' | j, u⟩ <;> rw [hstep] at hall hyields
      · obtain rfl := congrArg Prod.snd hall
        exact h.breaks_step hi hstep
      · obtain ⟨hm, -⟩ := hyields
        exact hm.breaks (ih (h.moves hm) ((h.grows_moves hm).lt_size hi) hall)

theorem WellFormed.breaks_trace (h : t.WellFormed) (hi : i < t.forest.size) {w : Word}
    (htrace : t.trace i w = (.error fault, t')) : Breaks t t' := by
  induction w generalizing t i with
  | nil => simp [trace] at htrace
  | cons x w ih =>
      have hyields := h.step_yields (L := fun _ => True) (J := fun _ _ _ => True) hi (x := x) trivial
      unfold trace at htrace
      rcases hstep : t.step i x with ⟨fault' | j, u⟩ <;> rw [hstep] at htrace hyields
      · obtain rfl := congrArg Prod.snd htrace
        exact h.breaks_step hi hstep
      · obtain ⟨hm, -, hj⟩ := hyields
        have hu := h.moves hm
        exact hm.breaks (ih hu (hu.lt_of_contains (hu.contains_of_leads hj).2) htrace)

end breaks

/-! ### Calls -/

/-- The number of identifications of different nodes that a call makes. -/
def joins (t : Table) : Call → ℕ
  | .identify a b =>
    match t.locate a, t.locate b with
    | .ok a, .ok b => if t.root a = t.root b then 0 else 1
    | _, _ => 0
  | .sweep gens => (t.sweep gens).1
  | _ => 0

/-- The number of calls that fail for the cap when they are made one after the other. -/
def overflowCount (t : Table) : List Call → ℕ
  | [] => 0
  | c :: cs => (t.overflows c).toNat + (t.perform c).overflowCount cs

/-- The number of identifications of different nodes that several calls make. -/
def joinCount (t : Table) : List Call → ℕ
  | [] => 0
  | c :: cs => t.joins c + (t.perform c).joinCount cs

/-- What a call does to a table: it fails for the cap, or it makes moves, marks a node or is to close the table. -/
theorem WellFormed.perform_cases (h : t.WellFormed) (c : Call) :
    (t.overflows c = true ∧ Breaks t (t.perform c)) ∨ (t.overflows c = false ∧
      (Moves (fun _ => True) (fun _ _ _ => True) t (t.perform c) ∨
        (∃ k, t.perform c = t.markComplete k) ∨ ∃ gens, c = .close gens)) := by
  cases c with
  | find i => exact .inr ⟨rfl, .inl (onNode_induction .refl fun k _ _ => (t.reshaped_find k).moves)⟩
  | neighbours i x =>
      exact .inr ⟨rfl, .inl (onNode_induction .refl fun k _ _ => (t.reshaped_neighbours k x).moves)⟩
  | step i x =>
      simp only [overflows, perform, onNode]
      cases hi : t.locate i with
      | error fault => exact .inr ⟨rfl, .inl .refl⟩
      | ok k =>
          have hk : k < t.forest.size := Position.lt_of_resolve? (Position.locate_eq_ok_iff.1 hi)
          have hyields := h.step_yields (L := fun _ => True) (J := fun _ _ _ => True) hk (x := x) trivial
          dsimp only
          rcases hstep : t.step k x with ⟨fault | j, u⟩ <;> rw [hstep] at hyields
          · exact .inl ⟨rfl, h.breaks_step hk hstep⟩
          · exact .inr ⟨rfl, .inl hyields.1⟩
  | trace i w =>
      simp only [overflows, perform, onNode]
      cases hi : t.locate i with
      | error fault => exact .inr ⟨rfl, .inl .refl⟩
      | ok k =>
          have hk : k < t.forest.size := Position.lt_of_resolve? (Position.locate_eq_ok_iff.1 hi)
          have hyields := h.trace_yields (L := fun _ => True) (J := fun _ _ _ => True) hk (w := w)
            fun _ _ => trivial
          dsimp only
          rcases htrace : t.trace k w with ⟨fault | j, u⟩ <;> rw [htrace] at hyields
          · exact .inl ⟨rfl, h.breaks_trace hk htrace⟩
          · exact .inr ⟨rfl, .inl hyields.1⟩
  | identify a b =>
      refine .inr ⟨rfl, .inl (onNode_induction .refl fun a _ ha => ?_)⟩
      have hr := t.reshaped_find a
      refine onNode_induction hr.moves fun b _ hb => ?_
      rw [hr.size_eq] at hb
      exact (h.identify_moves ha hb fun _ _ => trivial).1
  | sweep gens =>
      exact .inr ⟨rfl, .inl ((h.sweep_swept gens).moves.mono (fun _ hx => hx.elim) fun _ _ _ _ => trivial)⟩
  | markComplete i =>
      refine .inr ⟨rfl, ?_⟩
      simp only [perform, onNode]
      cases t.locate i with
      | error fault => exact .inl .refl
      | ok k => exact .inr (.inl ⟨k, rfl⟩)
  | close gens => exact .inr ⟨rfl, .inr (.inr ⟨gens, rfl⟩)⟩

/-- A call that leaves the table open keeps the account if its failure is counted. -/
theorem Accounted.perform (ha : Accounted n t) (h : t.WellFormed) {c : Call}
    (hopen : (t.perform c).closed = false) : Accounted (n + (t.overflows c).toNat) (t.perform c) := by
  rcases h.perform_cases c with ⟨hover, hbreaks⟩ | ⟨hover, hm | ⟨k, hmark⟩ | ⟨gens, rfl⟩⟩ <;> rw [hover]
  · exact ha.breaks h hbreaks
  · exact ha.moves h hm
  · rw [hmark]
    exact ha.markComplete
  · obtain ⟨f, columns, hf, heq⟩ := exists_close_eq hopen
    rw [Table.perform, heq]
    exact ha.congr hf.size_eq rfl (fun _ => rfl) rfl rfl

theorem Changes.log_eq (h : Changes (fun _ _ _ => False) t t') : t'.log = t.log := by
  induction h with
  | refl => rfl
  | tail _ hc ih =>
      refine Eq.trans ?_ ih
      cases hc with
      | move hm =>
          cases hm with
          | reshape hr =>
              obtain ⟨f, -, rfl⟩ := hr
              rfl
          | attach => rfl
          | absorb _ _ _ hj => exact hj.elim
      | spare | mark | columns => rfl

theorem drops_identify (t : Table) (a b : ℕ) : (drops (t.identify a b).2.log.toList).length =
    (drops t.log.toList).length + if t.root a = t.root b then 0 else 1 := by
  obtain ⟨u, hu, heq⟩ := t.identify_eq a b
  have hlog : u.log = t.log := by
    obtain ⟨f, -, rfl⟩ := hu
    rfl
  rw [heq]
  split_ifs with hab
  · rw [hlog, Nat.add_zero]
  · have hpush : (u.absorb (min (t.root a) (t.root b)) (max (t.root a) (t.root b))).log.toList =
        u.log.toList ++ [.identified (min (t.root a) (t.root b)) (max (t.root a) (t.root b))] :=
      Array.toList_push ..
    rw [hpush, Event.drops_append, hlog, List.length_append]
    rfl

/-- A call records as many identifications as it makes. -/
theorem WellFormed.length_drops_perform (h : t.WellFormed) {c : Call}
    (hopen : (t.perform c).closed = false) :
    (drops (t.perform c).log.toList).length = (drops t.log.toList).length + t.joins c := by
  have hother : ¬ c.Identifies → t.joins c = 0 →
      (drops (t.perform c).log.toList).length = (drops t.log.toList).length + t.joins c := by
    intro hc h0
    rw [h0, (h.changes_perform (fun hi => absurd hi hc) hopen).log_eq, Nat.add_zero]
  cases c with
  | identify a b =>
      cases ha : t.locate a with
      | error fault => simp [perform, onNode, joins, ha]
      | ok k =>
          have hlocate : (t.find k).2.locate b = t.locate b := by
            unfold locate
            rw [(t.reshaped_find k).size_eq]
          cases hb : t.locate b with
          | error fault =>
              have hlog : (t.find k).2.log = t.log := rfl
              simp [perform, onNode, joins, ha, hlocate, hb, hlog]
          | ok l =>
              simp only [perform, onNode, joins, ha, hlocate, hb]
              exact t.drops_identify k l
  | sweep gens =>
      have hswept := h.sweep_swept gens
      obtain ⟨ps, hlog, hlive, -⟩ := h.exists_identified hswept.moves
      have hps : (drops (ps.map fun p => .identified p.1 p.2)).length = ps.length := by
        have hpair : ∀ p ∈ ps, (Event.pair? ∘ fun p : ℕ × ℕ => .identified p.1 p.2) p = some p :=
          fun p _ => rfl
        rw [drops, List.length_map, List.filterMap_map, List.filterMap_congr hpair, List.filterMap_some]
      have hcount := hswept.count
      show (drops (t.sweep gens).2.log.toList).length = _ + (t.sweep gens).1
      rw [hlog, Event.drops_append, List.length_append, hps]
      omega
  | find | neighbours | step | trace | markComplete | close => exact hother id rfl

/-- Calls keep the account if their failures are counted, and record as many identifications as they make. -/
theorem WellFormed.accounted_history (h : t.WellFormed) (ha : Accounted n t) {cs : List Call}
    (hcs : t.history cs = some t') : Accounted (n + t.overflowCount cs) t' ∧
      (drops t'.log.toList).length = (drops t.log.toList).length + t.joinCount cs := by
  induction cs generalizing t n with
  | nil =>
      obtain rfl : t = t' := Option.some.inj hcs
      exact ⟨ha, rfl⟩
  | cons c cs ih =>
      obtain ⟨hopen, hcs⟩ := history_cons_eq_some.1 hcs
      have hu := (h.grows_changes (h.changes_perform (J := fun _ _ _ => True)
        (fun _ _ _ _ => trivial) hopen)).1
      obtain ⟨hrest, hdrops⟩ := ih hu (ha.perform h hopen) hcs
      rw [h.length_drops_perform hopen] at hdrops
      rw [overflowCount, joinCount, ← Nat.add_assoc, ← Nat.add_assoc]
      exact ⟨hrest, hdrops⟩

end Table

end ToddCoxeter
