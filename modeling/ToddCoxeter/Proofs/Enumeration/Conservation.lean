import ToddCoxeter.Proofs.Enumeration.LifeCycle
import ToddCoxeter.Proofs.Table.Conservation

/-! # The log of a run adds up

A run defines nodes, identifies nodes and completes nodes, and its log tells of the last two.  Whenever the
loop's condition is evaluated, the table is accounted for without nodes that lack an edge, and the nodes
completed so far are smaller than the one to be completed next (`Table.Booked`, `Table.Booked.round`).  A round
in which the cap is passed breaks off with moves and one more node (`Table.WellFormed.breaks_completeNode`), so
that its events are right as well.  Hence the log of every run is coherent, whatever was requested before
(`Enumeration.conserved`). -/

namespace ToddCoxeter

namespace Table

open Event (drops completions Coherent Follows)

variable {L : Letter → Prop} {J : Table → ℕ → ℕ → Prop} {p : Presentation} {t t' : Table} {n i : ℕ}
  {fault : CapacityFault}

/-! ### Rounds that break off -/

theorem WellFormed.breaks_closeRelators (h : t.WellFormed) (hi : i < t.forest.size) {ws : List Word}
    (hclose : t.closeRelators i ws = (.error fault, t')) : Breaks t t' := by
  induction ws generalizing t with
  | nil => simp [closeRelators] at hclose
  | cons w ws ih =>
      have hr := t.reshaped_find i
      have hu := h.reshaped hr
      have hroot : t.root i < (t.find i).2.forest.size := hr.size_eq ▸ Forest.root_lt_size hi
      have hyields := hu.trace_yields (L := fun _ => True) (J := fun _ _ _ => True) hroot (w := w)
        fun _ _ => trivial
      have hfirst : Moves (fun _ => True) (fun _ _ _ => True) t (t.find i).2 := hr.moves
      rw [closeRelators_cons] at hclose
      rcases htrace : (t.find i).2.trace (t.root i) w with ⟨fault' | stop, v⟩ <;>
        rw [htrace] at hclose hyields
      · obtain rfl := congrArg Prod.snd hclose
        exact hfirst.breaks (hu.breaks_trace hroot htrace)
      · obtain ⟨hm, -, hpath⟩ := hyields
        have hv := hu.moves hm
        have hstart : t.root i < v.forest.size := (hu.grows_moves hm).lt_size hroot
        have hstop := hv.lt_of_contains (hv.contains_of_path (hv.contains_root hstart) hpath)
        have hm' := (hv.identify_moves (L := fun _ => True) (J := fun _ _ _ => True) hstart hstop
          fun _ _ => trivial).1
        have hall := (hfirst.trans hm).trans hm'
        exact Moves.breaks hall (ih (h.moves hall) ((h.grows_moves hall).lt_size hi) hclose)

theorem WellFormed.breaks_completeNode (h : t.WellFormed) (hi : t.contains i)
    (hnode : t.completeNode p i = (.error fault, t')) : Breaks t t' := by
  have hlt := h.lt_of_contains hi
  have htrivial : ∀ x ∈ p.letters, (fun _ => True) x := fun _ _ => trivial
  have hyields := h.stepAll_yields (J := fun _ _ _ => True) hlt htrivial
  unfold completeNode at hnode
  rcases hall : t.stepAll i p.letters with ⟨fault' | _, u⟩ <;> rw [hall] at hnode hyields
  · obtain rfl := congrArg Prod.snd hnode
    exact h.breaks_stepAll hlt hall
  · obtain ⟨hm, -⟩ := hyields
    rcases hclose : u.closeRelators i p.relators with ⟨fault' | _, v⟩ <;> simp only [hclose] at hnode
    · obtain rfl := congrArg Prod.snd hnode
      exact hm.breaks ((h.moves hm).breaks_closeRelators ((h.grows_moves hm).lt_size hlt) hclose)
    · exact absurd (congrArg Prod.fst hnode) (by simp)

/-! ### From round to round -/

theorem Moves.completions_eq (hm : Moves L J t t') :
    completions t'.log.toList = completions t.log.toList := by
  induction hm with
  | refl => rfl
  | @tail u v _ hm ih =>
      refine Eq.trans ?_ ih
      cases hm with
      | reshape hr =>
          obtain ⟨f, -, rfl⟩ := hr
          rfl
      | attach => rfl
      | @absorb a b =>
          have hlog : (u.absorb a b).log.toList = u.log.toList ++ [.identified a b] :=
            Array.toList_push ..
          rw [hlog, Event.completions_append]
          exact List.append_nil _

theorem Accounted.markCompleteIfLive (ha : Accounted n t) : Accounted n (t.markCompleteIfLive i) := by
  unfold Table.markCompleteIfLive
  split_ifs
  · exact ha.markComplete
  · exact ha

/-- Events that drop no node leave the account as it is. -/
theorem Accounted.record (ha : Accounted n t) {event : Event} (he : Follows t.log.toList event)
    (hpair : event.pair? = none) : Accounted n (t.record event) := by
  have hlog : (t.record event).log.toList = t.log.toList ++ [event] := Array.toList_push ..
  have hdrops : drops (t.record event).log.toList = drops t.log.toList := by
    rw [hlog, Event.drops_append]
    simp [drops, hpair]
  refine ⟨ha.edges_eq, ?_, ?_, ?_⟩
  · rw [hdrops]
    exact ha.live_eq
  · rw [hdrops]
    exact ha.dropped
  · rw [hlog]
    exact ha.coherent.concat he

/-- What holds of table and log whenever the loop's condition is evaluated. -/
structure Booked (p : Presentation) (t : Table) : Prop where
  settled : Settled p t
  accounted : Accounted 0 t
  /-- The nodes up to one that was completed are complete, if they are still alive. -/
  complete : ∀ i ∈ completions t.log.toList, ∀ j ≤ i, t.contains j → (t.row j).complete

theorem booked_start {cap : ℕ} (hcap : 0 < cap) : Booked p (start cap) :=
  ⟨settled_start hcap, accounted_start cap, fun _ hi => absurd hi List.not_mem_nil⟩

/-- The node that is completed next is larger than all that were completed. -/
theorem Booked.lt_of_pending? (h : Booked p t) (hi : t.pending? = some i) :
    ∀ j ∈ completions t.log.toList, j < i := by
  obtain ⟨hci, hinc⟩ := pending?_eq_some hi
  intro j hj
  by_contra hle
  exact hinc (h.complete j hj i (by omega) hci)

theorem Booked.finishRound (h : Booked p t) (hi : t.pending? = some i) {u : Table}
    (hu : Completes p i t u) (label : Word) : Booked p (u.finishRound i label) := by
  have hrounds := h.settled.finishRound hi hu label
  have hlog : (u.markCompleteIfLive i).log = u.log := by
    unfold Table.markCompleteIfLive
    split_ifs <;> rfl
  have hcompletions : completions u.log.toList = completions t.log.toList := hu.steps.completions_eq
  have hbefore := h.lt_of_pending? hi
  have ha := (h.accounted.moves h.settled.wellFormed hu.steps).markCompleteIfLive (i := i)
  refine ⟨hrounds.settled, ha.record ⟨?_, ?_⟩ rfl, ?_⟩
  · have hlive := ha.live_eq
    have hedges := ha.edges_eq
    omega
  · rw [hlog, hcompletions]
    exact hbefore
  · have hpush : (u.finishRound i label).log.toList = (u.markCompleteIfLive i).log.toList ++
        [.completed i label (u.markCompleteIfLive i).live (u.markCompleteIfLive i).edges.size] :=
      Array.toList_push ..
    obtain ⟨i', hi', hcomplete⟩ := hrounds.pending
    obtain rfl : i = i' := Option.some.inj (hi.symm.trans hi')
    intro j hj k hk hlive
    rw [hpush, Event.completions_append, hlog, hcompletions] at hj
    rcases List.mem_append.1 hj with hj | hj
    · exact hcomplete k (hk.trans (hbefore j hj).le) hlive
    · obtain rfl : j = i := List.mem_singleton.1 hj
      exact hcomplete k hk hlive

theorem Booked.round (h : Booked p t) (hp : p.Valid) (hround : t.round p = .inl t') : Booked p t' := by
  unfold Table.round at hround
  cases hi : t.pending? with
  | none => rw [hi] at hround; exact absurd hround (by simp)
  | some i =>
      have hyields := h.settled.wellFormed.completeNode_yields hp (pending?_eq_some hi).1
      simp only [hi] at hround
      rcases hnode : t.completeNode p i with ⟨fault | _, v⟩ <;> rw [hnode] at hround hyields
      · exact absurd hround (by simp)
      · obtain rfl : v = t' := Sum.inl.inj hround
        obtain ⟨u, hu, rfl⟩ := hyields
        exact h.finishRound hi hu _

/-- A round that ends the loop leaves a coherent log, also if it breaks off. -/
theorem Booked.coherent_of_round (h : Booked p t) {r : Attempt CapacityFault Unit}
    (hround : t.round p = .inr r) : Coherent r.2.log.toList := by
  unfold Table.round at hround
  cases hi : t.pending? with
  | none =>
      rw [hi] at hround
      obtain rfl : _ = r := Sum.inr.inj hround
      exact h.accounted.coherent
  | some i =>
      simp only [hi] at hround
      rcases hnode : t.completeNode p i with ⟨fault | _, v⟩ <;> rw [hnode] at hround
      · obtain rfl : _ = r := Sum.inr.inj hround
        have hbreaks := h.settled.wellFormed.breaks_completeNode (pending?_eq_some hi).1 hnode
        exact (h.accounted.breaks h.settled.wellFormed hbreaks).coherent
      · exact absurd hround (by simp)

theorem Booked.coherent_enumerate (h : Booked p t) (hp : p.Valid) :
    Coherent (t.enumerate p).2.log.toList := by
  obtain ⟨r, hr⟩ := h.settled.exists_steps_eq hp
  have hcases := Loop.steps_cases (q := fun _ u => Booked p u) (fun _ _ _ hu hround => hu.round hp hround)
    (k := 0) h (2 ^ roundBits p t.cap - 1)
  unfold enumerate
  rw [Loop.run_eq_steps, Nat.one_shiftLeft, hr]
  rcases hcases with ⟨u, hu, -⟩ | ⟨m, u, r', hr', hbooked, hround⟩
  · exact absurd (hr.symm.trans hu) (by simp)
  · obtain rfl : r = r' := Sum.inr.inj (hr.symm.trans hr')
    have hcoherent := hbooked.coherent_of_round hround
    rcases r with ⟨fault | _, v⟩ <;> exact hcoherent

theorem log_close (t : Table) (gens : List String) : (t.close gens).2.log = t.log := by
  obtain ⟨f, columns, -, heq⟩ := t.exists_recordColumns_eq gens
  unfold close
  split_ifs
  · rfl
  · rcases hrec : t.recordColumns gens with ⟨fault | _, u⟩ <;> rw [hrec] at heq <;>
      obtain rfl : u = _ := heq <;> rfl

end Table

namespace Enumeration

open Event (drops Coherent)

variable {p : Presentation} {cap : ℕ} {e : Enumeration}

theorem coherent_compute (hp : p.Valid) (hcap : 0 < cap) : Coherent (fresh p cap).compute.1.log := by
  have hbooked : (Table.start cap).Booked p := Table.booked_start hcap
  have hcoherent := hbooked.coherent_enumerate hp
  have hcompute := compute.eq_1 (fresh p cap)
  simp only [fresh] at hcompute ⊢
  rw [hcompute]
  rcases henum : (Table.start cap).enumerate p with ⟨fault | _, t⟩ <;> rw [henum] at hcoherent
  · exact hcoherent
  · have hlog := t.log_close p.generators
    rcases hclose : t.close p.generators with ⟨fault | g, c⟩ <;> rw [hclose] at hlog <;>
      simp only [hclose]
    · rw [show c.log = t.log from hlog]
      exact hcoherent
    · have hpush : ∀ event, (c.record event).log.toList = t.log.toList ++ [event] := fun event => by
        rw [← show c.log = t.log from hlog]
        exact Array.toList_push ..
      rw [hpush]
      exact hcoherent.concat trivial

theorem Stage.coherent_run (hp : p.Valid) (hcap : 0 < cap) (h : Stage (fresh p cap) e) :
    Coherent e.run.1.log := by
  cases h with
  | initial =>
      have hcoherent := coherent_compute hp hcap
      rcases hcompute : (fresh p cap).compute with ⟨⟨log, fault | g⟩, e'⟩ <;> rw [hcompute] at hcoherent
      · rw [run_of_compute_error rfl hcompute]
        exact hcoherent
      · rw [run_of_compute_ok rfl hcompute]
        exact hcoherent
  | finished g hg =>
      rw [run_run hg]
      exact .nil
  | spent g hg =>
      rw [(spent_of_outcome_eq_ok hp hcap hg).2.run_eq]
      exact .nil

/-- Whatever calls are made on a new table, the edges, one and the failures for the cap are together as many as
the nodes ever made, and so are the live nodes and the identifications of different nodes.  The log of every run
of an accepted enumeration is coherent, whatever was requested before: it never contradicts these numbers, drops
no node twice and completes nodes in increasing order. -/
theorem conserved :
    (∀ {cap : Int} {t₀ t : Table} {cs : List Table.Call}, Table.withCap cap = .ok t₀ →
      t₀.history cs = some t →
      t.edges.size + 1 + t₀.overflowCount cs = t.forest.size ∧
        t.live + t₀.joinCount cs = t.forest.size ∧
        (drops t.log.toList).length = t₀.joinCount cs ∧ Coherent t.log.toList) ∧
      ∀ {limit : DigitLimit} {generators : List Datum} {relations : List String} {cap : Int}
        {e : Enumeration}, ofRelations limit generators relations cap = .ok e →
        ∀ rs, Coherent (e.afterAll rs).run.1.log := by
  refine ⟨fun {cap t₀ t cs} h₀ hcs => ?_, fun {limit generators relations cap e} h rs => ?_⟩
  · obtain ⟨rfl, -⟩ := Table.withCap_eq_ok h₀
    obtain ⟨ha, hdrops⟩ :=
      (Table.wellFormed_start cap.toNat).accounted_history (Table.accounted_start cap.toNat) hcs
    rw [show drops (Table.start cap.toNat).log.toList = [] from rfl, List.length_nil, Nat.zero_add]
      at hdrops
    have hedges := ha.edges_eq
    have hlive := ha.live_eq
    rw [Nat.zero_add] at hedges
    rw [hdrops] at hlive
    exact ⟨hedges, hlive, hdrops, ha.coherent⟩
  · obtain ⟨p, hp, hcap, rfl⟩ := exists_fresh_of_ofRelations h
    exact (stage_afterAll hp hcap rs).coherent_run hp hcap

/-- Calls with a failure and two identifications, of which a pass makes one, and a run that identifies two
nodes. -/
theorem conserved_crowded :
    (∃ t : Table, (Table.start 4).history (Table.crowded ++ [.sweep ["a"]]) = some t ∧
      (Table.start 4).overflowCount (Table.crowded ++ [.sweep ["a"]]) = 1 ∧
      (Table.start 4).joinCount (Table.crowded ++ [.sweep ["a"]]) = 2 ∧
      t.edges.size + 1 + 1 = t.forest.size ∧ t.live + 2 = t.forest.size) ∧
      (fresh square 4).run.1.log = [.identified 0 3, .identified 1 2, .completed 0 [] 2 3,
        .completed 1 [⟨"a", false⟩] 2 3, .enumerated square 2 2] ∧
      Coherent (fresh square 4).run.1.log := by
  have hreached : ((Table.start 4).history (Table.crowded ++ [.sweep ["a"]])).isSome = true := by cbv
  have hfailures : (Table.start 4).overflowCount (Table.crowded ++ [.sweep ["a"]]) = 1 := by cbv
  have hjoins : (Table.start 4).joinCount (Table.crowded ++ [.sweep ["a"]]) = 2 := by cbv
  obtain ⟨t, ht⟩ := Option.isSome_iff_exists.1 hreached
  obtain ⟨hedges, hlive, -⟩ := conserved.1 (show Table.withCap 4 = .ok (.start 4) from rfl) ht
  rw [hfailures] at hedges
  rw [hjoins] at hlive
  have hlog : (fresh square 4).run.1.log = [.identified 0 3, .identified 1 2, .completed 0 [] 2 3,
    .completed 1 [⟨"a", false⟩] 2 3, .enumerated square 2 2] := by cbv
  exact ⟨⟨t, ht, hfailures, hjoins, hedges, hlive⟩, hlog,
    conserved.2 (ofRelations_square (by decide : (1 : Int) ≤ 4)) []⟩

end Enumeration

end ToddCoxeter
