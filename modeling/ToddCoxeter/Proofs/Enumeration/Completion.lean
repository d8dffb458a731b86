import ToddCoxeter.Enumeration.Run
import ToddCoxeter.Proofs.Group.Denotation

/-! # Completing a node

`Table.WellFormed.completeNode_yields` tells what it means to complete a node: up to marking the node, the
enumeration makes moves that define nodes for letters of the presentation and identify nodes that have to
be the same.  In the end every letter leads from the node that stands for the completed one, every relator
leads back to it, and all letters are single-valued (`Table.Completes`).  The mark itself changes no more
than one row (`Table.finishRound`). -/

namespace ToddCoxeter

namespace Presentation

/-- The number of definitions that a round can need. -/
def roundLength (p : Presentation) : ℕ := p.letters.length + (p.relators.map List.length).sum

end Presentation

namespace Table

section round

variable {p : Presentation} {t : Table} {i : ℕ}

theorem closeRelators_cons (w : Word) (ws : List Word) :
    t.closeRelators i (w :: ws) =
      match (t.find i).2.trace (t.root i) w with
      | (.error fault, u) => (.error fault, u)
      | (.ok stop, u) => (u.identify (t.root i) stop).2.closeRelators i ws := rfl

theorem WellFormed.closeRelators_yields (h : t.WellFormed) (hp : p.Valid)
    (hi : i < t.forest.size) {ws : List Word} (hws : ∀ w ∈ ws, w ∈ p.relators) :
    Yields (·.gen ∈ p.generators) (Forced p) (ws.map List.length).sum t
      (fun _ u => ∀ w ∈ ws, Path u.Leads (u.root i) w (u.root i)) (t.closeRelators i ws) := by
  induction ws generalizing t with
  | nil => exact ⟨.refl, Nat.le_refl _, fun w hw => absurd hw (by simp)⟩
  | cons w ws ih =>
      have hw := hws w List.mem_cons_self
      have hr := t.reshaped_find i
      have hu := h.reshaped hr
      have hroot : t.root i < (t.find i).2.forest.size := by
        rw [hr.size_eq]
        exact Forest.root_lt_size hi
      have htrace := (hu.trace_yields (L := (·.gen ∈ p.generators)) (J := Forced p) hroot
        (hp.allows_relators w hw)).after hr.moves hr.live_eq.le
      rw [closeRelators_cons, List.map_cons, List.sum_cons]
      rcases htrace' : (t.find i).2.trace (t.root i) w with ⟨fault | stop, v⟩ <;>
        rw [htrace'] at htrace
      · exact htrace.of_error
      · obtain ⟨hm, hle, hpath⟩ := htrace
        have hv := h.moves hm
        have hgv := h.grows_moves hm
        have hstart : t.root i < v.forest.size := hgv.lt_size (Forest.root_lt_size hi)
        have hstop := hv.contains_of_path (hv.contains_root hstart) hpath
        have hJ : Forced p v (t.root i) stop := by
          refine .inr ⟨w, hw, .inl ?_⟩
          rwa [hv.root_of_contains hstop]
        obtain ⟨hm', hle', heq⟩ := hv.identify_moves (L := (·.gen ∈ p.generators)) hstart
          (hv.lt_of_contains hstop) fun u hu => (stable_forced p).minMax hJ hu
        have hx := hv.moves hm'
        have hgx := hgv.trans (hv.grows_moves hm')
        have hfirst : Yields (·.gen ∈ p.generators) (Forced p) w.length t (fun _ _ => True)
            (.ok (), (v.identify (t.root i) stop).2) := ⟨hm.trans hm', hle'.trans hle, trivial⟩
        refine hfirst.andThen ((ih hx (hgx.lt_size hi) fun y hy =>
          hws y (List.mem_cons_of_mem _ hy)).weaken ?_)
        intro _ z hz hall y hy
        rcases List.mem_cons.1 hy with rfl | hy
        · have hgz := hx.grows_moves hz
          have hi' : z.root (t.root i) = z.root i := (hgx.trans hgz).root_root i
          have hstop' : z.root stop = z.root i := by
            rw [← hgz.root_root, ← heq, hgz.root_root, hi']
          have hpath' := ((hv.grows_moves hm').trans hgz).path hpath
          rwa [((hv.grows_moves hm').trans hgz).root_root, hi', hstop'] at hpath'
        · exact hall y hy

/-! ### Marking a node as complete -/

/-- The table after a round that completed `i` in `t`, recorded under the given word. -/
def finishRound (t : Table) (i : ℕ) (label : Word) : Table :=
  (t.markCompleteIfLive i).record
    (.completed i label (t.markCompleteIfLive i).live (t.markCompleteIfLive i).edges.size)

section finishRound

variable {label : Word}

theorem exists_finishRound_eq (t : Table) (i : ℕ) (label : Word) :
    ∃ rows log, t.finishRound i label = { t with rows, log } := by
  unfold finishRound markCompleteIfLive
  split_ifs <;> exact ⟨_, _, rfl⟩

theorem forest_finishRound : (t.finishRound i label).forest = t.forest := by
  obtain ⟨rows, log, heq⟩ := t.exists_finishRound_eq i label
  rw [heq]

theorem edges_finishRound : (t.finishRound i label).edges = t.edges := by
  obtain ⟨rows, log, heq⟩ := t.exists_finishRound_eq i label
  rw [heq]

theorem frame_finishRound : (t.finishRound i label).cap = t.cap ∧
    (t.finishRound i label).closed = t.closed ∧ (t.finishRound i label).columns = t.columns := by
  obtain ⟨rows, log, heq⟩ := t.exists_finishRound_eq i label
  rw [heq]
  exact ⟨rfl, rfl, rfl⟩

theorem root_finishRound (j : ℕ) : (t.finishRound i label).root j = t.root j := by
  simp only [root, forest_finishRound]

theorem leads_finishRound : (t.finishRound i label).Leads = t.Leads := by
  funext j x k
  simp only [Leads, edges_finishRound, root_finishRound]

theorem contains_finishRound (j : ℕ) : (t.finishRound i label).contains j = t.contains j := by
  unfold finishRound markCompleteIfLive
  split_ifs
  · exact contains_markComplete j
  · rfl

theorem live_finishRound : (t.finishRound i label).live = t.live := by
  unfold finishRound markCompleteIfLive
  split_ifs
  · exact live_markComplete
  · rfl

/-- The mark is set on the node, if it is live, and no other row changes. -/
theorem WellFormed.row_finishRound (h : t.WellFormed) (j : ℕ) :
    (t.finishRound i label).row j =
      if t.contains i ∧ i = j then { t.row j with complete := true } else t.row j := by
  unfold finishRound markCompleteIfLive
  by_cases hi : t.contains i
  · simp only [hi, true_and, if_true]
    have hrow := h.row_markComplete (h.lt_of_contains hi) j
    rwa [h.root_of_contains hi] at hrow
  · simp [hi, row, record]

theorem WellFormed.complete_finishRound (h : t.WellFormed) (j : ℕ) :
    ((t.finishRound i label).row j).complete ↔ (t.row j).complete ∨ t.contains i ∧ i = j := by
  rw [h.row_finishRound]
  split_ifs with hij
  · exact iff_of_true rfl (.inr hij)
  · simp only [hij, or_false]

theorem WellFormed.finishRound (h : t.WellFormed) : (t.finishRound i label).WellFormed := by
  unfold Table.finishRound markCompleteIfLive
  split_ifs with hi
  · exact (h.markComplete (h.lt_of_contains hi)).of_eq rfl rfl rfl
  · exact h.of_eq rfl rfl rfl

theorem WellFormed.grows_finishRound (h : t.WellFormed) : Grows t (t.finishRound i label) := by
  unfold Table.finishRound markCompleteIfLive
  split_ifs with hi
  · exact (h.grows_markComplete (h.lt_of_contains hi)).trans (.of_eq rfl rfl rfl)
  · exact .of_eq rfl rfl rfl

end finishRound

/-! ### Completing a node -/

theorem Moves.steps_of_coincident {u : Table}
    (hm : Moves (fun _ => False) (Coincident p.generators) t u) : Steps p t u :=
  hm.mono (fun _ hx => hx.elim) fun _ _ _ hc => .inl hc

/-- `u` comes from `t` by completing the node `i`, but for the mark. -/
structure Completes (p : Presentation) (i : ℕ) (t u : Table) : Prop where
  steps : Steps p t u
  singleValued : SingleValued p.generators u
  leads : ∀ x : Letter, x.gen ∈ p.generators → ∃ j, u.Leads (u.root i) x j
  closes : ∀ r ∈ p.relators, Path u.Leads (u.root i) r (u.root i)

/-- A round completes its node, or fails because more nodes may be needed than the cap allows. -/
theorem WellFormed.completeNode_yields (h : t.WellFormed) (hp : p.Valid) (hi : t.contains i) :
    match t.completeNode p i with
    | (.ok _, t') => ∃ u, Completes p i t u ∧ t' = u.finishRound i (t.row i).label
    | (.error fault, _) => fault = ⟨t.cap⟩ ∧ t.cap < t.live + p.roundLength := by
  have hlt := h.lt_of_contains hi
  have hletters : ∀ x ∈ p.letters, x.gen ∈ p.generators := fun x => Letter.mem_signed.1
  have hall := h.stepAll_yields (L := (·.gen ∈ p.generators)) (J := Forced p) hlt hletters
  unfold completeNode
  rcases hall' : t.stepAll i p.letters with ⟨fault | _, u⟩ <;> rw [hall'] at hall
  · exact hall.of_error (q := fun (_ : Unit) _ => True)
  · have hu := h.moves hall.1
    have hlt' := (h.grows_moves hall.1).lt_size hlt
    have hclose := hu.closeRelators_yields hp hlt' fun w (hw : w ∈ p.relators) => hw
    have hboth := hall.andThen hclose
    rcases hclose' : u.closeRelators i p.relators with ⟨fault | _, v⟩ <;>
      rw [hclose'] at hclose hboth <;> simp only [hclose']
    · exact hboth
    · have hv := hu.moves hclose.1
      obtain ⟨hm, hs⟩ := hv.collapse_spec p.generators
      have hm' : Steps p v (v.collapse p.generators) := hm.steps_of_coincident
      have hg := hv.grows_moves hm'
      refine ⟨v.collapse p.generators, ⟨hboth.1.trans hm', hs, fun x hx => ?_, fun r hr => ?_⟩, rfl⟩
      · obtain ⟨j, hj⟩ := hall.2.2 x (Letter.mem_signed.2 hx)
        have hg' := (hu.grows_moves hclose.1).trans hg
        have hlead := hg'.leads hj
        rw [hg'.root_root] at hlead
        exact ⟨_, hlead⟩
      · have hpath := hg.path (hclose.2.2 r hr)
        rwa [hg.root_root] at hpath

end round

end Table

end ToddCoxeter
