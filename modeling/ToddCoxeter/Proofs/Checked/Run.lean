import ToddCoxeter.Proofs.Checked.Closing
import ToddCoxeter.Proofs.Enumeration.Outcome

/-! # Runs that check every access

The second version of a run, `Enumeration.run?`, is made of the operations that check every access, and
gives nothing as soon as one of them does.  On a valid presentation it agrees with the run itself
(`Enumeration.run?_fresh_eq`). -/

namespace ToddCoxeter

namespace Table

variable {p : Presentation} {t : Table} {i : ℕ}

/-- Traces the relators from the node, and identifies it with the node to which each of them leads. -/
def closeRelators? (t : Table) (i : ℕ) : List Word → Option (Attempt CapacityFault Unit)
  | [] => some (.ok (), t)
  | w :: ws => do
    let (start, t) ← t.find? i
    match ← t.trace? start w with
    | (.error fault, t) => return (.error fault, t)
    | (.ok stop, t) =>
      let (_, t) ← t.identify? start stop
      t.closeRelators? i ws

/-- Completes the live node `i`, unless it turns out to be a smaller node. -/
def completeNode? (t : Table) (p : Presentation) (i : ℕ) : Option (Attempt CapacityFault Unit) := do
  let row ← t.row? i
  match ← t.stepAll? i p.letters with
  | (.error fault, t) => return (.error fault, t)
  | (.ok _, t) =>
    match ← t.closeRelators? i p.relators with
    | (.error fault, t) => return (.error fault, t)
    | (.ok _, t) =>
      let t ← t.collapse? p.generators
      return (.ok (), t.finishRound i row.label)

/-- One round; the result of the loop is absent if an access fails. -/
def round? (p : Presentation) (t : Table) : Table ⊕ Option (Attempt CapacityFault Unit) :=
  match t.pending? with
  | none => .inr (some (.ok (), t))
  | some i =>
    match t.completeNode? p i with
    | none => .inr none
    | some (.error fault, t) => .inr (some (.error fault, t))
    | some (.ok _, t) => .inl t

/-- Completes one node after the other. -/
def enumerate? (t : Table) (p : Presentation) : Option (Attempt Fault Unit) :=
  match Loop.run (round? p) (roundBits p t.cap) t with
  | .inl t => some (.error .unfinished, t)
  | .inr none => none
  | .inr (some (.error fault, t)) => some (.error (.overflow fault), t)
  | .inr (some (.ok _, t)) => some (.ok (), t)

theorem WellFormed.closeRelators?_eq (h : t.WellFormed) (hi : i < t.forest.size) {ws : List Word} :
    t.closeRelators? i ws = some (t.closeRelators i ws) := by
  induction ws generalizing t with
  | nil => rfl
  | cons w ws ih =>
      have hr := t.reshaped_find i
      have hu := h.reshaped hr
      have hroot : t.root i < (t.find i).2.forest.size := by
        rw [hr.size_eq]
        exact Forest.root_lt_size hi
      have htrace := hu.trace_yields (L := fun _ => True) (J := fun _ _ _ => True) hroot
        (w := w) fun _ _ => trivial
      unfold closeRelators?
      rw [closeRelators_cons, h.find?_eq hi]
      simp only [Option.bind_eq_bind, Option.bind_some, fst_find, hu.trace?_eq hroot]
      rcases htrace' : (t.find i).2.trace (t.root i) w with ⟨fault | stop, v⟩ <;>
        rw [htrace'] at htrace
      · rfl
      · obtain ⟨hm, -, hpath⟩ := htrace
        have hv := hu.moves hm
        have hstart := (hu.grows_moves hm).lt_size hroot
        have hstop := hv.lt_of_contains (hv.contains_of_path (hv.contains_root hstart) hpath)
        have hm' := (hv.identify_moves (L := fun _ => True) (J := fun _ _ _ => True) hstart hstop
          fun _ _ => trivial).1
        have hlt : i < (v.identify (t.root i) stop).2.forest.size :=
          (hu.grows_moves (hm.trans hm')).lt_size (hr.size_eq ▸ hi)
        simp only [hv.identify?_eq hstart hstop, Option.bind_some]
        exact ih (hv.moves hm') hlt

theorem WellFormed.completeNode?_eq (h : t.WellFormed) (hp : p.Valid) (hi : t.contains i) :
    t.completeNode? p i = some (t.completeNode p i) := by
  have hlt := h.lt_of_contains hi
  have hletters : ∀ x ∈ p.letters, x.gen ∈ p.generators := fun x => Letter.mem_signed.1
  have hall := h.stepAll_yields (L := (·.gen ∈ p.generators)) (J := Forced p) hlt hletters
  unfold completeNode? completeNode
  rw [row?_eq hi, h.stepAll?_eq hlt]
  simp only [Option.bind_eq_bind, Option.bind_some]
  rcases hall' : t.stepAll i p.letters with ⟨fault | _, u⟩ <;> rw [hall'] at hall
  · rfl
  · have hu := h.moves hall.1
    have hlt' := (h.grows_moves hall.1).lt_size hlt
    have hclose := hu.closeRelators_yields hp hlt' fun w (hw : w ∈ p.relators) => hw
    simp only [hu.closeRelators?_eq hlt', Option.bind_some]
    rcases hclose' : u.closeRelators i p.relators with ⟨fault | _, v⟩ <;> rw [hclose'] at hclose
    · rfl
    · simp only [(hu.moves hclose.1).collapse?_eq p.generators, Option.bind_some]
      rfl

theorem Settled.round?_eq (h : Settled p t) (hp : p.Valid) :
    t.round? p = (t.round p).map id some := by
  unfold round? Table.round
  cases hi : t.pending? with
  | none => rfl
  | some i =>
      simp only [h.wellFormed.completeNode?_eq hp (pending?_eq_some hi).1]
      rcases t.completeNode p i with ⟨fault | _, u⟩ <;> rfl

theorem Settled.steps_round?_eq (h : Settled p t) (hp : p.Valid) (n : ℕ) :
    Loop.steps (round? p) n t = (Loop.steps (Table.round p) n t).map id some := by
  induction n generalizing t with
  | zero => rfl
  | succ n ih =>
      have hround := h.round hp
      unfold Loop.steps
      rw [h.round?_eq hp]
      cases hu : t.round p with
      | inl u =>
          rw [hu] at hround
          exact ih hround.settled
      | inr r => rfl

theorem Settled.enumerate?_eq (h : Settled p t) (hp : p.Valid) :
    t.enumerate? p = some (t.enumerate p) := by
  unfold enumerate? enumerate
  rw [Loop.run_eq_steps, Loop.run_eq_steps, Nat.one_shiftLeft, h.steps_round?_eq hp]
  rcases Loop.steps (Table.round p) (2 ^ roundBits p t.cap - 1) t with u | ⟨fault | _, u⟩ <;> rfl

end Table

namespace Enumeration

/-- Enumerates the group and closes the table. -/
def compute? (e : Enumeration) : Option (Report × Enumeration) := do
  match ← e.table.enumerate? e.presentation with
  | (.error fault, t) => return (⟨t.log.toList, .error fault⟩, { e with table := .start e.cap })
  | (.ok _, t) =>
    match ← t.close? e.presentation.generators with
    | (.error fault, t) =>
      return (⟨t.log.toList, .error fault⟩, { e with table := { t with log := #[] } })
    | (.ok graph, t) =>
      let t := t.record (.enumerated e.presentation graph.nodes.length graph.edges.length)
      return (⟨t.log.toList, .ok graph⟩, { e with table := { t with log := #[] }, graph })

/-- The remembered graph, or else the outcome of computing it. -/
def run? (e : Enumeration) : Option (Report × Enumeration) :=
  match e.memo.get? runKey with
  | some graph => some (⟨[], .ok graph⟩, e)
  | none => do
    let (report, e) ← e.compute?
    match report.outcome with
    | .ok graph => return (report, { e with memo := e.memo.insert runKey (some graph) })
    | .error _ => return (report, e)

theorem run?_fresh_eq {p : Presentation} {cap : ℕ} (hp : p.Valid) (hcap : 0 < cap) :
    (fresh p cap).run? = some (fresh p cap).run := by
  have hsettled : (Table.start cap).Settled p := Table.settled_start hcap
  have hcompute : (fresh p cap).compute? = some (fresh p cap).compute := by
    unfold compute? compute
    simp only [fresh, hsettled.enumerate?_eq hp, Option.bind_eq_bind, Option.bind_some]
    rcases hsettled.enumerate_cases hp with ⟨t, henum, ht, -⟩ | ⟨t, henum⟩
    · simp only [henum, ht.wellFormed.close?_eq, Option.bind_some]
      rcases t.close p.generators with ⟨fault | g, u⟩ <;> rfl
    · simp only [henum]
      rfl
  have hmemo : (fresh p cap).memo.get? runKey = none := rfl
  unfold run? run
  rw [hmemo]
  simp only [hcompute, Option.bind_eq_bind, Option.bind_some]
  rcases (fresh p cap).compute with ⟨⟨log, fault | g⟩, e⟩ <;> rfl

end Enumeration

end ToddCoxeter
