import ToddCoxeter.Proofs.Enumeration.Outcome
import ToddCoxeter.Proofs.Relator.Grammar
import ToddCoxeter.Proofs.Table.Renumbering

/-! # The life cycle of an enumeration

An `Enumeration.Request` is a run, an order to forget the graph, or one of the questions that can be asked of a
finished enumeration (`Enumeration.Access`).  Whatever is requested of an enumeration, it is as it was made,
finished, or finished with the graph forgotten (`Enumeration.Stage`).  A run that passes the cap leaves it as it
was made; one that gives a graph finishes it; and nothing leads back from a table that is closed, so that every
run fails once the graph is forgotten (`Enumeration.life_cycle`). -/

namespace ToddCoxeter

namespace Table

variable {t : Table}

theorem round_of_pending?_eq_none (hnone : t.pending? = none) (p : Presentation) :
    t.round p = .inr (.ok (), t) := by
  unfold round
  rw [hnone]

theorem enumerate_of_pending?_eq_none (hnone : t.pending? = none) (p : Presentation) :
    t.enumerate p = (.ok (), t) := by
  have hsteps : Loop.steps (round p) 1 t = .inr (.ok (), t) := by
    simp only [Loop.steps, round_of_pending?_eq_none hnone]
  have hbudget : 1 ≤ 2 ^ roundBits p t.cap - 1 := by
    have hbits : 2 ^ 1 ≤ 2 ^ roundBits p t.cap := Nat.pow_le_pow_right (by omega) (by simp [roundBits])
    omega
  unfold enumerate
  rw [Loop.run_eq_steps, Nat.one_shiftLeft, Loop.steps_eq_of_le hsteps hbudget]

theorem pending?_of_close {gens : List String} {g : Graph} {c : Table} (hnone : t.pending? = none)
    (hclose : t.close gens = (.ok g, c)) : c.pending? = none := by
  refine pending?_eq_none.2 fun k hk => ?_
  obtain ⟨i, hi, hrow⟩ := exists_row_of_close hclose hk
  rw [hrow]
  exact pending?_eq_none.1 hnone i hi

end Table

namespace Enumeration

/-! ### Requests -/

/-- A question about a finished enumeration. -/
inductive Access where
  | order
  | nodeOf (w : Word)
  | nodeOfText (limit : DigitLimit) (text : String)
  | permutations
  | group

/-- What answers a question. -/
inductive Answer where
  | number (n : ℕ)
  | node (n : Node)
  | permutations (ps : List (String × Permutation))
  | group (G : PermutationGroup)

/-- The answer to a question. -/
def ask (e : Enumeration) : Access → Except Fault Answer
  | .order => .number <$> e.order
  | .nodeOf w => .node <$> e.nodeOf w
  | .nodeOfText limit text => .node <$> e.nodeOfText limit text
  | .permutations => .permutations <$> e.permutations
  | .group => .group <$> e.group

/-- What can be requested of an enumeration. -/
inductive Request where
  | run
  | forget
  | ask (a : Access)

/-- The enumeration after the request. -/
def perform (e : Enumeration) : Request → Enumeration
  | .run => e.run.2
  | .forget => e.forget
  | .ask _ => e

/-- The enumeration after several requests. -/
def afterAll (e : Enumeration) (rs : List Request) : Enumeration := rs.foldl perform e

variable {e : Enumeration} {g : Graph}

@[simp] theorem afterAll_cons (e : Enumeration) (r : Request) (rs : List Request) :
    e.afterAll (r :: rs) = (e.perform r).afterAll rs := rfl

@[simp] theorem perform_ask (e : Enumeration) (a : Access) : e.perform (.ask a) = e := rfl

theorem afterAll_append (e : Enumeration) (rs qs : List Request) :
    e.afterAll (rs ++ qs) = (e.afterAll rs).afterAll qs := List.foldl_append ..

theorem afterAll_concat (e : Enumeration) (rs : List Request) (r : Request) :
    e.afterAll (rs ++ [r]) = (e.afterAll rs).perform r := List.foldl_concat ..

/-- Where a run changes nothing, and forgetting nothing either if that is requested, requests change
nothing. -/
theorem afterAll_eq_self {qs : List Request} (hrun : e.run.2 = e) (hforget : .forget ∈ qs → e.forget = e) :
    e.afterAll qs = e := by
  induction qs with
  | nil => rfl
  | cons r qs ih =>
      have hr : e.perform r = e := by
        cases r with
        | run => exact hrun
        | forget => exact hforget List.mem_cons_self
        | ask a => rfl
      rw [afterAll_cons, hr]
      exact ih fun hmem => hforget (List.mem_cons_of_mem _ hmem)

/-! ### Whether the graph is known -/

theorem isComputed_iff : e.isComputed ↔ ∃ g, e.memo.get? runKey = some g :=
  Option.isSome_iff_exists

theorem memo_compute (e : Enumeration) : e.compute.2.memo = e.memo := by
  unfold compute
  rcases e.table.enumerate e.presentation with ⟨fault | _, t⟩
  · rfl
  · rcases hclose : t.close e.presentation.generators with ⟨fault | graph, t'⟩ <;> simp only [hclose]

theorem run_of_get?_eq_some (h : e.memo.get? runKey = some g) : e.run = (⟨[], .ok g⟩, e) := by
  unfold run
  rw [h]

section compute

variable {log : List Event} {e' : Enumeration}

theorem run_of_compute_ok (h : e.memo.get? runKey = none) (hcompute : e.compute = (⟨log, .ok g⟩, e')) :
    e.run = (⟨log, .ok g⟩, { e' with memo := e'.memo.insert runKey (some g) }) := by
  unfold run
  simp only [h, hcompute]

theorem run_of_compute_error {fault : Fault} (h : e.memo.get? runKey = none)
    (hcompute : e.compute = (⟨log, .error fault⟩, e')) : e.run = (⟨log, .error fault⟩, e') := by
  unfold run
  simp only [h, hcompute]

end compute

theorem get?_run (h : e.run.1.outcome = .ok g) : e.run.2.memo.get? runKey = some g := by
  cases hmemo : e.memo.get? runKey with
  | some g' =>
      rw [run_of_get?_eq_some hmemo] at h ⊢
      exact hmemo.trans (congrArg some (Except.ok.inj h))
  | none =>
      rcases hcompute : e.compute with ⟨⟨log, fault | g'⟩, e'⟩
      · rw [run_of_compute_error hmemo hcompute] at h
        exact absurd h (by simp)
      · rw [run_of_compute_ok hmemo hcompute] at h ⊢
        obtain rfl : g' = g := Except.ok.inj h
        exact (Memo.get?_insert_some ..).trans (if_pos rfl)

theorem isComputed_run : e.run.2.isComputed ↔ ∃ g, e.run.1.outcome = .ok g := by
  refine ⟨fun h => ?_, fun ⟨g, hg⟩ => isComputed_iff.2 ⟨g, get?_run hg⟩⟩
  cases hmemo : e.memo.get? runKey with
  | some g => exact ⟨g, congrArg (·.1.outcome) (run_of_get?_eq_some hmemo)⟩
  | none =>
      rcases hcompute : e.compute with ⟨⟨log, fault | g⟩, e'⟩
      · have hmemo' : e'.memo = e.memo := by
          rw [← memo_compute e, hcompute]
        rw [run_of_compute_error hmemo hcompute, isComputed_iff, hmemo', hmemo] at h
        exact absurd h (by simp)
      · exact ⟨g, by rw [run_of_compute_ok hmemo hcompute]⟩

theorem isComputed_forget : ¬ e.forget.isComputed := by
  rw [isComputed_iff]
  rintro ⟨g, hg⟩
  exact absurd hg (by simp [forget])

/-- The graph is known if and only if some run gave one and it was not forgotten since. -/
theorem isComputed_afterAll_iff (h : ¬ e.isComputed) (rs : List Request) :
    (e.afterAll rs).isComputed ↔ ∃ as bs, rs = as ++ .run :: bs ∧
      (∃ g, (e.afterAll as).run.1.outcome = .ok g) ∧ .forget ∉ bs := by
  induction rs using List.reverseRecOn with
  | nil => exact iff_of_false h (by simp)
  | append_singleton rs r ih =>
      rw [afterAll_concat, exists_concat_eq_append_cons]
      cases r with
      | run =>
          -- If the graph was known before, the run gave it again.
          have hknown : (e.afterAll rs).isComputed → ∃ g, (e.afterAll rs).run.1.outcome = .ok g := by
            intro hdone
            obtain ⟨g, hg⟩ := isComputed_iff.1 hdone
            exact ⟨g, congrArg (·.1.outcome) (run_of_get?_eq_some hg)⟩
          rw [ih] at hknown
          refine isComputed_run.trans ?_
          simpa using hknown
      | forget => exact iff_of_false isComputed_forget (by simp)
      | ask a => simpa using ih

/-! ### Questions -/

section failures

variable {ε α β : Type} {x : Except ε α} {fault : ε}

theorem bind_ne_error {f : α → Except ε β} (hx : x ≠ .error fault)
    (hf : ∀ a, f a ≠ .error fault) : (x >>= f) ≠ .error fault := by
  cases x with
  | error fault' => simpa [bind, Except.bind] using hx
  | ok a => exact hf a

theorem map_ne_error {f : α → β} (hx : x ≠ .error fault) : f <$> x ≠ .error fault := by
  cases x with
  | error fault' => simpa using hx
  | ok a => simp

end failures

theorem locate_ne_notComputed {n : ℕ} {i : Int} : Position.locate n i ≠ .error .notComputed := by
  unfold Position.locate
  rcases Position.resolve? n i with _ | p
  · simp only
    split <;> simp
  · simp

theorem act_ne_notComputed {t : Table} {i : Int} {x : Letter} : t.act i x ≠ .error .notComputed := by
  unfold Table.act
  cases hclosed : t.closed with
  | false => simp [bind, Except.bind, throw, throwThe, MonadExceptOf.throw]
  | true =>
      rcases hcolumn : t.columns.lookup x.gen with _ | places
      · simp [throw, throwThe, MonadExceptOf.throw]
      · cases hx : x.inverted with
        | true =>
            rcases hfind : places.findIdx? (fun j : ℕ => (j : Int) = i) with _ | k <;>
              simp [hfind, require]
        | false =>
            refine bind_ne_error locate_ne_notComputed fun p => ?_
            rcases places[p]? with _ | j <;>
              simp [pure, Except.pure, throw, throwThe, MonadExceptOf.throw]

theorem actWord_ne_notComputed {t : Table} {i : ℕ} {w : Word} :
    t.actWord i w ≠ .error .notComputed := by
  induction w generalizing i with
  | nil => simp [Table.actWord]
  | cons x w ih => exact bind_ne_error act_ne_notComputed fun _ => ih

theorem nodeAt_ne_notComputed {g : Graph} {i : ℕ} : g.nodeAt i ≠ .error .notComputed := by
  unfold Graph.nodeAt
  split <;> simp

theorem parse_ne_notComputed {limit : DigitLimit} {text : String} :
    Relator.parse limit text ≠ .error .notComputed := by
  intro h
  rcases Relator.refusal_of_parse h with ⟨s, hs⟩ | ⟨most, digits, -, hs⟩ <;> simp at hs

theorem nodeOf_ne_notComputed (h : e.checkComputed ≠ .error .notComputed) {w : Word} :
    e.nodeOf w ≠ .error .notComputed :=
  bind_ne_error h fun _ => bind_ne_error actWord_ne_notComputed fun _ => nodeAt_ne_notComputed

theorem permutations_ne_notComputed (h : e.checkComputed ≠ .error .notComputed) :
    e.permutations ≠ .error .notComputed :=
  bind_ne_error h fun _ => by simp [pure, Except.pure]

theorem ask_eq_notComputed_iff (e : Enumeration) (a : Access) :
    e.ask a = .error .notComputed ↔ ¬ e.isComputed := by
  by_cases hdone : e.isComputed
  · have hcheck : e.checkComputed ≠ .error .notComputed := by
      rw [checkComputed, if_pos hdone]
      simp
    refine iff_of_false ?_ (not_not_intro hdone)
    cases a with
    | order => exact map_ne_error (bind_ne_error hcheck fun _ => by simp [pure, Except.pure])
    | nodeOf w => exact map_ne_error (nodeOf_ne_notComputed hcheck)
    | nodeOfText limit text =>
        exact map_ne_error (bind_ne_error hcheck fun _ =>
          bind_ne_error parse_ne_notComputed fun _ => nodeOf_ne_notComputed hcheck)
    | permutations => exact map_ne_error (permutations_ne_notComputed hcheck)
    | group =>
        exact map_ne_error (bind_ne_error (permutations_ne_notComputed hcheck) fun _ => by
          simp [pure, Except.pure])
  · have hcheck : e.checkComputed = .error .notComputed := if_neg hdone
    refine iff_of_true ?_ hdone
    cases a <;> simp [ask, order, nodeOf, nodeOfText, permutations, group, hcheck, bind, Except.bind]

/-! ### Running on -/

/-- The graph of a finished enumeration was forgotten, and the closed table has nothing left to do. -/
structure Spent (e : Enumeration) : Prop where
  get?_eq : e.memo.get? runKey = none
  closed_eq : e.table.closed = true
  pending?_eq : e.table.pending? = none
  neighbours_eq : ∀ i x, (e.table.neighbours i x).1 = []
  log_eq : e.table.log = #[]

/-- A table is not closed a second time. -/
theorem Spent.run_eq (h : e.Spent) : e.run = (⟨[], .error .alreadyClosed⟩, e) := by
  have henum := Table.enumerate_of_pending?_eq_none h.pending?_eq e.presentation
  have hclose : e.table.close e.presentation.generators = (.error .alreadyClosed, e.table) :=
    if_pos h.closed_eq
  have htable : { e.table with log := #[] } = e.table := by rw [← h.log_eq]
  have hcompute : e.compute = (⟨[], .error .alreadyClosed⟩, e) := by
    unfold compute
    rw [henum]
    simp only [hclose, htable, h.log_eq]
  exact run_of_compute_error h.get?_eq hcompute

theorem run_run (h : e.run.1.outcome = .ok g) : e.run.2.run = (⟨[], .ok g⟩, e.run.2) :=
  run_of_get?_eq_some (get?_run h)

theorem snd_run_run (h : e.run.1.outcome = .ok g) : e.run.2.run.2 = e.run.2 := by rw [run_run h]

section fresh

variable {p : Presentation} {cap : ℕ}

theorem spent_of_outcome_eq_ok (hp : p.Valid) (hcap : 0 < cap)
    (h : (fresh p cap).run.1.outcome = .ok g) :
    (fresh p cap).run.2.graph = g ∧ (fresh p cap).run.2.forget.Spent := by
  obtain ⟨t, c, ⟨-, -, hnone, -, houtcome, htable, hgraph, -⟩, hclose, -⟩ :=
    exists_enumerate_of_outcome_eq_ok hp hcap h
  obtain rfl : c.graph = g := Except.ok.inj (houtcome.symm.trans h)
  have hclosed : c.closed = true := Table.closed_of_close hclose
  have hnone : c.pending? = none := Table.pending?_of_close hnone hclose
  have htable' : (fresh p cap).run.2.forget.table = { c with log := #[] } := htable
  have hneighbours : ∀ i x, (c.neighbours i x).1 = [] := Table.neighbours_of_close hclose
  exact ⟨hgraph, rfl, htable' ▸ hclosed, htable' ▸ hnone, htable' ▸ hneighbours, htable' ▸ rfl⟩

/-- The states in which requests can leave the enumeration `e₀`: as it was, after a run that gave a graph,
and without that graph. -/
inductive Stage (e₀ : Enumeration) : Enumeration → Prop where
  | initial : Stage e₀ e₀
  | finished (g : Graph) (h : e₀.run.1.outcome = .ok g) : Stage e₀ e₀.run.2
  | spent (g : Graph) (h : e₀.run.1.outcome = .ok g) : Stage e₀ e₀.run.2.forget

theorem Stage.perform (hp : p.Valid) (hcap : 0 < cap) (h : Stage (fresh p cap) e) (r : Request) :
    Stage (fresh p cap) (e.perform r) := by
  cases r with
  | ask a => exact h
  | run =>
      show Stage (fresh p cap) e.run.2
      cases h with
      | initial =>
          rcases run_cases hp hcap with ⟨t, c, hruns⟩ | ⟨-, hsame⟩
          · exact .finished _ hruns.outcome_eq
          · rw [hsame]
            exact .initial
      | finished g hg =>
          rw [run_run hg]
          exact .finished g hg
      | spent g hg =>
          rw [(spent_of_outcome_eq_ok hp hcap hg).2.run_eq]
          exact .spent g hg
  | forget =>
      cases h with
      | initial => exact .initial
      | finished g hg => exact .spent g hg
      | spent g hg => exact .spent g hg

/-- Whatever is requested, an enumeration is fresh, finished or spent. -/
theorem stage_afterAll (hp : p.Valid) (hcap : 0 < cap) (rs : List Request) :
    Stage (fresh p cap) ((fresh p cap).afterAll rs) := by
  induction rs using List.reverseRecOn with
  | nil => exact .initial
  | append_singleton rs r ih =>
      rw [afterAll_concat]
      exact ih.perform hp hcap r

/-- Every run that gives a graph gives that of a first run, and leaves what a first run leaves. -/
theorem Stage.run_of_outcome_eq_ok (hp : p.Valid) (hcap : 0 < cap) (h : Stage (fresh p cap) e)
    (hg : e.run.1.outcome = .ok g) :
    (fresh p cap).run.1.outcome = .ok g ∧ e.run.2 = (fresh p cap).run.2 := by
  cases h with
  | initial => exact ⟨hg, rfl⟩
  | finished g' hg' =>
      rw [run_run hg'] at hg ⊢
      obtain rfl := Except.ok.inj hg
      exact ⟨hg', rfl⟩
  | spent g' hg' =>
      rw [(spent_of_outcome_eq_ok hp hcap hg').2.run_eq] at hg
      exact absurd hg (by simp)

theorem Stage.eq_of_outcome_eq_overflow (hp : p.Valid) (hcap : 0 < cap) (h : Stage (fresh p cap) e)
    {fault : CapacityFault} (hrun : e.run.1.outcome = .error (.overflow fault)) :
    e = fresh p cap := by
  cases h with
  | initial => rfl
  | finished g hg =>
      rw [run_run hg] at hrun
      exact absurd hrun (by simp)
  | spent g hg =>
      rw [(spent_of_outcome_eq_ok hp hcap hg).2.run_eq] at hrun
      exact absurd hrun (by simp)

theorem afterAll_of_forget_mem (hp : p.Valid) (hcap : 0 < cap) (hg : (fresh p cap).run.1.outcome = .ok g)
    {qs : List Request} (hqs : .forget ∈ qs) :
    (fresh p cap).run.2.afterAll qs = (fresh p cap).run.2.forget := by
  obtain ⟨as, bs, rfl, has⟩ := List.eq_append_cons_of_mem hqs
  have hspent := (spent_of_outcome_eq_ok hp hcap hg).2
  rw [afterAll_append, afterAll_cons, afterAll_eq_self (snd_run_run hg) fun hmem => absurd hmem has]
  exact afterAll_eq_self (congrArg Prod.snd hspent.run_eq) fun _ => rfl

end fresh

/-- What becomes of the enumeration `e₀` when `rs` is requested of it and then more. -/
structure LifeCycle (e₀ : Enumeration) (rs : List Request) : Prop where
  /-- At first there is the first node alone, without edges, and no graph. -/
  initial : e₀.graph = .empty ∧ e₀.table.nodes = [⟨0, [], false⟩] ∧ e₀.table.edges = #[] ∧
    e₀.table.closed = false ∧ e₀.memo = .empty
  /-- The graph is known if and only if some run gave one and it was not forgotten since. -/
  isComputed_iff : (e₀.afterAll rs).isComputed ↔ ∃ as bs, rs = as ++ .run :: bs ∧
    (∃ g, (e₀.afterAll as).run.1.outcome = .ok g) ∧ .forget ∉ bs
  /-- Questions are refused as long as the graph is not known, and only then. -/
  ask_eq_notComputed_iff : ∀ a,
    (e₀.afterAll rs).ask a = .error .notComputed ↔ ¬ (e₀.afterAll rs).isComputed
  /-- Questions change nothing. -/
  perform_ask : ∀ a, (e₀.afterAll rs).perform (.ask a) = e₀.afterAll rs
  /-- A run that passes the cap leaves the enumeration as it was at first, and every later run passes it. -/
  of_overflow : ∀ fault, (e₀.afterAll rs).run.1.outcome = .error (.overflow fault) →
    (e₀.afterAll rs).run.2 = e₀ ∧
      ∀ qs, ((e₀.afterAll rs).run.2.afterAll qs).run.1.outcome = .error (.overflow fault)
  /-- The graph that a run gives is given again, without an event, until it is forgotten. -/
  of_ok : ∀ g, (e₀.afterAll rs).run.1.outcome = .ok g → ∀ qs, .forget ∉ qs →
    ((e₀.afterAll rs).run.2.afterAll qs).run = (⟨[], .ok g⟩, (e₀.afterAll rs).run.2)
  /-- Once it is forgotten every run fails, for the table is closed; graph and table stay, and questions are
  refused. -/
  of_forget : ∀ g, (e₀.afterAll rs).run.1.outcome = .ok g → ∀ qs, .forget ∈ qs →
    let e := (e₀.afterAll rs).run.2.afterAll qs
    e.run = (⟨[], .error .alreadyClosed⟩, e) ∧ e.graph = g ∧ e.table = (e₀.afterAll rs).run.2.table ∧
      ∀ a, e.ask a = .error .notComputed

/-- The life cycle of an enumeration, whatever is requested of it. -/
theorem life_cycle {limit : DigitLimit} {generators : List Datum} {relations : List String} {cap : Int}
    {e : Enumeration} (h : ofRelations limit generators relations cap = .ok e) (rs : List Request) :
    e.LifeCycle rs := by
  obtain ⟨p, hp, hcap, rfl⟩ := exists_fresh_of_ofRelations h
  have hstage := stage_afterAll hp hcap rs
  have hunknown : ¬ (fresh p cap.toNat).isComputed := isComputed_forget (e := fresh p cap.toNat)
  have hnodes : (fresh p cap.toNat).table.nodes = [⟨0, [], false⟩] := by cbv
  refine ⟨⟨rfl, hnodes, rfl, rfl, rfl⟩, isComputed_afterAll_iff hunknown rs,
    ask_eq_notComputed_iff _, perform_ask _, fun fault hrun => ?_, fun g hg qs hqs => ?_,
    fun g hg qs hqs => ?_⟩
  · have heq := hstage.eq_of_outcome_eq_overflow hp hcap hrun
    rw [heq] at hrun ⊢
    rcases run_cases hp hcap with ⟨t, c, hruns⟩ | ⟨-, hsame⟩
    · exact absurd (hruns.outcome_eq.symm.trans hrun) (by simp)
    · refine ⟨hsame, fun qs => ?_⟩
      rw [hsame, afterAll_eq_self hsame fun _ => rfl]
      exact hrun
  · obtain ⟨hfirst, heq⟩ := hstage.run_of_outcome_eq_ok hp hcap hg
    rw [heq, afterAll_eq_self (snd_run_run hfirst) fun hmem => absurd hmem hqs]
    exact run_run hfirst
  · obtain ⟨hfirst, heq⟩ := hstage.run_of_outcome_eq_ok hp hcap hg
    obtain ⟨hgraph, hspent⟩ := spent_of_outcome_eq_ok hp hcap hfirst
    rw [heq, afterAll_of_forget_mem hp hcap hfirst hqs]
    exact ⟨hspent.run_eq, hgraph, rfl, fun a => (ask_eq_notComputed_iff _ a).2 isComputed_forget⟩

theorem life_cycle_square :
    (fresh square 4).LifeCycle [.run, .ask .order] ∧
      ((fresh square 4).afterAll [.run, .forget]).run.1.outcome = .error .alreadyClosed ∧
      (fresh square 1).LifeCycle [.run] ∧ (fresh square 1).run.2 = fresh square 1 := by
  have hrun : ((fresh square 4).afterAll []).run.1.outcome =
      .ok ⟨[⟨0, [], true⟩, ⟨1, [⟨"a", false⟩], true⟩], [⟨0, 1, "a"⟩, ⟨1, 0, "a"⟩]⟩ := by cbv
  have hover : ((fresh square 1).afterAll []).run.1.outcome = .error (.overflow ⟨1⟩) := by cbv
  have h := ofRelations_square (by decide : (1 : Int) ≤ 4)
  have h' := ofRelations_square (by decide : (1 : Int) ≤ 1)
  have hforget := (life_cycle h []).of_forget _ hrun [.forget] List.mem_cons_self
  exact ⟨life_cycle h _, congrArg (·.1.outcome) hforget.1, life_cycle h' _,
    ((life_cycle h' []).of_overflow _ hover).1⟩

end Enumeration

end ToddCoxeter
