import ToddCoxeter.Proofs.Enumeration.Round
import ToddCoxeter.Table.Closing

/-! # Larger caps

`Table.recap m t` is the table with another cap.  The cap is read only where a node is defined, so an
operation that succeeds does the same with every larger cap, and so do rounds and loops
(`Table.round_recap`, `Table.Settled.steps_recap`).  A table is closed in the same way with every cap
(`Table.close_recap`). -/

namespace ToddCoxeter.Table

/-- The table with the cap replaced. -/
def recap (m : ℕ) (t : Table) : Table := { t with cap := m }

variable {p : Presentation} {t u : Table} {m i j : ℕ} {x : Letter}

/-! ### Operations that do not read the cap -/

theorem identify_recap (a b : ℕ) :
    (t.recap m).identify a b = ((t.identify a b).1, (t.identify a b).2.recap m) := by
  have hfind : ∀ (v : Table) (c : ℕ), (v.recap m).find c = ((v.find c).1, (v.find c).2.recap m) :=
    fun _ _ => rfl
  unfold identify
  rw [hfind]
  rcases t.find a with ⟨ra, v⟩
  simp only [hfind]
  rcases v.find b with ⟨rb, v'⟩
  simp only
  split_ifs <;> rfl

theorem identifyAll_recap (kept : ℕ) (js : List ℕ) :
    (t.recap m).identifyAll kept js =
      ((t.identifyAll kept js).1, (t.identifyAll kept js).2.recap m) := by
  induction js generalizing t with
  | nil => rfl
  | cons j js ih =>
      by_cases hj : j = kept
      · subst hj
        rw [identifyAll_cons_self, identifyAll_cons_self, ih]
      · rw [identifyAll_cons_of_ne hj, identifyAll_cons_of_ne hj, identify_recap, ih]

theorem neighbours_recap (i : ℕ) (x : Letter) :
    (t.recap m).neighbours i x = ((t.neighbours i x).1, (t.neighbours i x).2.recap m) := rfl

theorem sweepLetter_recap (i : ℕ) (x : Letter) :
    (t.recap m).sweepLetter i x = ((t.sweepLetter i x).1, (t.sweepLetter i x).2.recap m) := by
  have hcontains : (t.recap m).contains i = t.contains i := rfl
  unfold sweepLetter
  rw [hcontains, neighbours_recap]
  split_ifs
  · rcases t.neighbours i x with ⟨_ | ⟨j, js⟩, v⟩
    · rfl
    · exact identifyAll_recap _ _
  · rfl

theorem sweepNode_recap (i : ℕ) (xs : List Letter) :
    (t.recap m).sweepNode i xs = ((t.sweepNode i xs).1, (t.sweepNode i xs).2.recap m) := by
  induction xs generalizing t with
  | nil => rfl
  | cons x xs ih =>
      unfold sweepNode
      rw [sweepLetter_recap]
      simp only [ih]

theorem sweepNodes_recap (xs : List Letter) (is : List ℕ) :
    (t.recap m).sweepNodes xs is = ((t.sweepNodes xs is).1, (t.sweepNodes xs is).2.recap m) := by
  induction is generalizing t with
  | nil => rfl
  | cons i is ih =>
      unfold sweepNodes
      rw [sweepNode_recap]
      simp only [ih]

theorem collapse_recap (t : Table) (m : ℕ) (gens : List String) :
    (t.recap m).collapse gens = (t.collapse gens).recap m := by
  induction hlive : t.live using Nat.strongRecOn generalizing t with
  | ind l ih =>
      have hsweep : ((t.recap m).sweep gens).2 = (t.sweep gens).2.recap m :=
        congrArg Prod.snd (sweepNodes_recap (Letter.signed gens) t.ids)
      rw [collapse.eq_1 (t.recap m), collapse.eq_1 t]
      simp only [hsweep, show ∀ v : Table, (v.recap m).live = v.live from fun _ => rfl]
      split_ifs with hlt
      · exact ih _ (hlive ▸ hlt) _ rfl
      · rfl

theorem column_recap (order : List ℕ) (x : Letter) (is : List ℕ) :
    (t.recap m).column order x is =
      ((t.column order x is).1, (t.column order x is).2.recap m) := by
  induction is generalizing t with
  | nil => rfl
  | cons i is ih =>
      unfold column
      rw [neighbours_recap]
      rcases t.neighbours i x with ⟨targets, u⟩
      cases hj : onlyValue targets with
      | error fault => simp only [hj]
      | ok j =>
          simp only [hj, ih]
          rcases u.column order x is with ⟨fault | places, v⟩ <;> rfl

theorem recordColumns_recap (gens : List String) :
    (t.recap m).recordColumns gens =
      ((t.recordColumns gens).1, (t.recordColumns gens).2.recap m) := by
  induction gens generalizing t with
  | nil => rfl
  | cons g gens ih =>
      have hids : (t.recap m).ids = t.ids := rfl
      unfold recordColumns
      rw [hids, column_recap]
      rcases t.column t.ids ⟨g, false⟩ t.ids with ⟨fault | places, u⟩
      · rfl
      · exact ih (t := { u with columns := setEntry g places.toArray u.columns })

theorem close_recap (gens : List String) :
    (t.recap m).close gens = ((t.close gens).1, (t.close gens).2.recap m) := by
  have hclosed : (t.recap m).closed = t.closed := rfl
  unfold close
  rw [hclosed, recordColumns_recap]
  split_ifs
  · rfl
  · rcases t.recordColumns gens with ⟨fault | _, u⟩ <;> rfl

/-! ### Operations that define nodes -/

/-- Goes on with `next`, unless the attempt has failed. -/
def thenDo {α β : Type} (r : Attempt CapacityFault α)
    (next : α → Table → Attempt CapacityFault β) : Attempt CapacityFault β :=
  match r with
  | (.error fault, t) => (.error fault, t)
  | (.ok a, t) => next a t

theorem stepAll_cons (xs : List Letter) :
    t.stepAll i (x :: xs) = thenDo (t.step i x) fun _ u => u.stepAll i xs := by
  rw [stepAll]
  rcases t.step i x with ⟨fault | j, u⟩ <;> rfl

theorem trace_cons (w : Word) :
    t.trace i (x :: w) = thenDo (t.step i x) fun j u => u.trace j w := by
  rw [trace]
  rcases t.step i x with ⟨fault | j, u⟩ <;> rfl

theorem closeRelators_cons_eq_thenDo (w : Word) (ws : List Word) :
    t.closeRelators i (w :: ws) = thenDo ((t.find i).2.trace (t.root i) w) fun stop u =>
      (u.identify (t.root i) stop).2.closeRelators i ws := by
  rw [closeRelators_cons]
  rcases (t.find i).2.trace (t.root i) w with ⟨fault | stop, u⟩ <;> rfl

/-- The operation gives the same with the cap `m`, if it succeeds, and keeps the cap. -/
def Lifts {α : Type} (m : ℕ) (t : Table) (op : Table → Attempt CapacityFault α) : Prop :=
  ∀ a u, op t = (.ok a, u) → op (t.recap m) = (.ok a, u.recap m) ∧ u.cap = t.cap

theorem lifts_ok {α : Type} (a : α) : Lifts m t fun v => (.ok a, v) := by
  intro b u h
  obtain ⟨rfl, rfl⟩ := (Prod.mk.inj h).imp_left Except.ok.inj
  exact ⟨rfl, rfl⟩

theorem Lifts.andThen {α β : Type} {op : Table → Attempt CapacityFault α}
    {next : α → Table → Attempt CapacityFault β} (h : Lifts m t op)
    (hnext : ∀ a v, v.cap = t.cap → Lifts m v (next a)) :
    Lifts m t fun v => thenDo (op v) next := by
  intro b u hu
  rcases hop : op t with ⟨fault | a, v⟩ <;> simp only [hop, thenDo] at hu
  · exact absurd (congrArg Prod.fst hu) (by simp)
  · obtain ⟨hlift, hcap⟩ := h a v hop
    obtain ⟨hrest, hcap'⟩ := hnext a v hcap b u hu
    simp only [hlift, thenDo]
    exact ⟨hrest, hcap'.trans hcap⟩

section Lifts

variable (hm : t.cap ≤ m)
include hm

theorem lifts_define (i : ℕ) (x : Letter) : Lifts m t (·.define i x) := by
  intro j u h
  have hlive : ((t.recap m).addNode (((t.recap m).row i).label ++ [x])).live =
      (t.addNode ((t.row i).label ++ [x])).live := rfl
  simp only [define_eq, hlive] at h ⊢
  split_ifs at h with hcap
  · exact absurd (congrArg Prod.fst h) (by simp)
  · obtain ⟨rfl, rfl⟩ := (Prod.mk.inj h).imp_left Except.ok.inj
    have hcap' : ¬ (t.recap m).cap < (t.addNode ((t.row i).label ++ [x])).live := by
      show ¬ m < _
      omega
    rw [if_neg hcap']
    exact ⟨rfl, rfl⟩

theorem lifts_step (i : ℕ) (x : Letter) : Lifts m t (·.step i x) := by
  intro j u h
  have hrow : ((t.recap m).find i).2.row ((t.recap m).root i) = (t.find i).2.row (t.root i) := rfl
  simp only [step_eq, hrow] at h ⊢
  split at h
  · exact lifts_define (t := (t.find i).2) hm (t.root i) x j u h
  · obtain ⟨rfl, rfl⟩ := (Prod.mk.inj h).imp_left Except.ok.inj
    exact ⟨rfl, rfl⟩

theorem lifts_stepAll (i : ℕ) (xs : List Letter) : Lifts m t (·.stepAll i xs) := by
  induction xs generalizing t with
  | nil => exact lifts_ok ()
  | cons x xs ih =>
      simp only [stepAll_cons]
      exact (lifts_step hm i x).andThen fun _ _ hcap => ih (hcap.trans_le hm)

theorem lifts_trace (i : ℕ) (w : Word) : Lifts m t (·.trace i w) := by
  induction w generalizing t i with
  | nil =>
      intro j u h
      obtain ⟨rfl, rfl⟩ := (Prod.mk.inj h).imp_left Except.ok.inj
      exact ⟨rfl, rfl⟩
  | cons x w ih =>
      simp only [trace_cons]
      exact (lifts_step hm i x).andThen fun j _ hcap => ih (hcap.trans_le hm) j

theorem lifts_closeRelators (i : ℕ) (ws : List Word) : Lifts m t (·.closeRelators i ws) := by
  induction ws generalizing t with
  | nil => exact lifts_ok ()
  | cons w ws ih =>
      have htrace : Lifts m t fun v => (v.find i).2.trace (t.root i) w :=
        fun j u h => lifts_trace (t := (t.find i).2) hm (t.root i) w j u h
      have hrest : ∀ (stop : ℕ) (v : Table), v.cap = t.cap →
          Lifts m v fun v => (v.identify (t.root i) stop).2.closeRelators i ws := by
        intro stop v hcap a u h
        obtain ⟨v', hv', hidentify⟩ := v.identify_eq (t.root i) stop
        -- The rest is lifted from the table that the identification leaves, which has the same cap.
        have hidcap : (v.identify (t.root i) stop).2.cap = v.cap := by
          rw [hidentify, ← hv'.cap_eq]
          split_ifs <;> rfl
        simp only [identify_recap]
        obtain ⟨hlift, hcap'⟩ := ih ((hidcap.trans hcap).trans_le hm) a u h
        exact ⟨hlift, hcap'.trans hidcap⟩
      intro a u h
      simp only [closeRelators_cons_eq_thenDo] at h ⊢
      exact htrace.andThen hrest a u h

theorem completeNode_recap (h : t.completeNode p i = (.ok (), u)) :
    (t.recap m).completeNode p i = (.ok (), u.recap m) := by
  have hlabel : ((t.recap m).row i).label = (t.row i).label := rfl
  unfold completeNode at h ⊢
  simp only [hlabel] at h ⊢
  rcases hall : t.stepAll i p.letters with ⟨fault | _, v⟩ <;> rw [hall] at h
  · exact absurd (congrArg Prod.fst h) (by simp)
  · obtain ⟨hlift, hcap⟩ := lifts_stepAll hm i p.letters () v hall
    simp only [hlift] at h ⊢
    rcases hclose : v.closeRelators i p.relators with ⟨fault | _, w⟩ <;> rw [hclose] at h
    · exact absurd (congrArg Prod.fst h) (by simp)
    · obtain ⟨hlift', -⟩ := lifts_closeRelators (t := v) (hcap ▸ hm) i p.relators () w hclose
      simp only [Prod.mk.injEq, true_and] at h
      subst h
      simp only [hlift', collapse_recap]
      have hfinish : ∀ (w : Table) (label : Word),
          (w.recap m).finishRound i label = (w.finishRound i label).recap m := by
        intro w label
        have hcontains : (w.recap m).contains i = w.contains i := rfl
        unfold finishRound markCompleteIfLive
        rw [hcontains]
        split_ifs <;> rfl
      exact congrArg (Prod.mk _) (hfinish _ _)

theorem round_recap (h : t.round p = .inl u) : (t.recap m).round p = .inl (u.recap m) := by
  have hpending : (t.recap m).pending? = t.pending? := rfl
  unfold Table.round at h ⊢
  rw [hpending]
  cases hi : t.pending? with
  | none => rw [hi] at h; exact absurd h (by simp)
  | some i =>
      rw [hi] at h
      simp only at h ⊢
      rcases hnode : t.completeNode p i with ⟨fault | _, v⟩ <;> rw [hnode] at h
      · exact absurd h (by simp)
      · obtain rfl : v = u := Sum.inl.inj h
        rw [completeNode_recap hm hnode]

end Lifts

/-- Rounds that are gone through with some cap are gone through in the same way with every larger one. -/
theorem Settled.steps_recap (h : Settled p t) (hp : p.Valid) (hm : t.cap ≤ m) {n : ℕ} :
    (∀ t', Loop.steps (Table.round p) n t = .inl t' →
        Loop.steps (Table.round p) n (t.recap m) = .inl (t'.recap m)) ∧
      ∀ t', Loop.steps (Table.round p) n t = .inr (.ok (), t') →
        Loop.steps (Table.round p) n (t.recap m) = .inr (.ok (), t'.recap m) := by
  induction n generalizing t with
  | zero =>
      refine ⟨fun t' ht' => ?_, fun t' ht' => absurd ht' (by simp [Loop.steps])⟩
      obtain rfl : t = t' := Sum.inl.inj ht'
      rfl
  | succ n ih =>
      have hround := h.round hp
      simp only [Loop.steps]
      rcases hu : t.round p with u | ⟨fault | _, u⟩ <;> rw [hu] at hround
      · rw [round_recap hm hu]
        exact ih hround.settled (hround.cap_eq.trans_le hm)
      · exact ⟨fun t' ht' => absurd ht' (by simp), fun t' ht' => absurd ht' (by simp)⟩
      · obtain ⟨rfl, hnone⟩ := hround
        have hrecap : (u.recap m).round p = .inr (.ok (), u.recap m) := by
          have hpending : (u.recap m).pending? = none := hnone
          unfold Table.round
          rw [hpending]
        rw [hrecap]
        refine ⟨fun t' ht' => absurd ht' (by simp), fun t' ht' => ?_⟩
        obtain rfl : u = t' := congrArg Prod.snd (Sum.inr.inj ht')
        rfl

end ToddCoxeter.Table
