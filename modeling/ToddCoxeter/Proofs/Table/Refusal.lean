import Mathlib
import ToddCoxeter.Proofs.Table.Alike
import ToddCoxeter.Proofs.Table.Closing

/-! # Tables that cannot be closed

An open table is refused if one of the generators leads from some live node nowhere or to several nodes.  By then the
columns of the generators before that one are recorded (`Table.recordColumns_error`), and forests have another shape.
Apart from that the table is as before (`Table.Refused`), and nobody who goes on with it can tell that it was refused:
whatever is asked next, it replies as the table before the attempt would have replied, and if it is closed in the end,
then the result is the same (`Table.Reachable.refused_of_close`). -/

namespace ToddCoxeter.Table

variable {S : String → Prop} {t u : Table} {gens : List String} {fault : Fault}

/-- The node to which the letter leads, if it leads to one node only. -/
def target (t : Table) (i : ℕ) (x : Letter) : ℕ := (t.neighbours i x).1.headD i

theorem neighbours_eq_target {i j : ℕ} {x : Letter} (h : (t.neighbours i x).1 = [j]) :
    (t.neighbours i x).1 = [t.target i x] := by
  rw [target, h, List.headD_cons]

theorem Alike.target_eq (h : Alike S t u) : u.target = t.target := by
  funext i x
  rw [target, (h.neighbours i x).1, target]

theorem Alike.places_eq (h : Alike S t u) : u.places u.target = t.places t.target := by
  funext g
  rw [places, h.ids_eq, h.target_eq, places]

/-! ### Where recording stops -/

theorem exists_onlyValue_of_column {order is : List ℕ} {x : Letter}
    (h : t.column order x is = (.error fault, u)) :
    ∃ i ∈ is, onlyValue (t.neighbours i x).1 = .error fault := by
  induction is generalizing t u with
  | nil => simp [column] at h
  | cons i is ih =>
      have hr := t.reshaped_neighbours i x
      unfold column at h
      rcases hnb : t.neighbours i x with ⟨targets, v⟩
      rw [hnb] at h hr
      rcases honly : onlyValue targets with fault' | j <;> simp only [honly] at h
      · obtain rfl : fault' = fault := Except.error.inj (congrArg Prod.fst h)
        exact ⟨i, List.mem_cons_self, by rw [hnb]; exact honly⟩
      · rcases hcol : v.column order x is with ⟨fault' | places, w⟩ <;> simp only [hcol] at h
        · obtain rfl : fault' = fault := Except.error.inj (congrArg Prod.fst h)
          obtain ⟨k, hk, heq⟩ := ih hcol
          rw [hr.fst_neighbours_eq] at heq
          exact ⟨k, List.mem_cons_of_mem i hk, heq⟩
        · exact absurd (congrArg Prod.fst h) (by simp)

/-- Recording stops at a generator `a` of `gens = done ++ a :: rest`: the generators before it lead from each live node
to one node, and from some live node it does not, which is the fault. -/
structure Stops (t : Table) (gens : List String) (fault : Fault) (done : List String) : Prop where
  of_done : ∀ g ∈ done, ∀ i, t.contains i → (t.neighbours i ⟨g, false⟩).1 = [t.target i ⟨g, false⟩]
  exists_fault : ∃ a rest, gens = done ++ a :: rest ∧
    ∃ i, t.contains i ∧ onlyValue (t.neighbours i ⟨a, false⟩).1 = .error fault

theorem Alike.stops (h : Alike S t u) {done : List String} (hu : Stops u gens fault done) :
    Stops t gens fault done := by
  obtain ⟨hdone, a, rest, heq, i, hi, honly⟩ := hu
  refine ⟨fun g hg i hi => ?_, a, rest, heq, i, h.contains_eq i ▸ hi, ?_⟩
  · rw [← (h.neighbours i _).1, hdone g hg i (h.contains_eq i ▸ hi), h.target_eq]
  · rw [← (h.neighbours i _).1, honly]

theorem Stops.cons {g : String} {done : List String} (h : Stops t gens fault done)
    (hg : ∀ i, t.contains i → (t.neighbours i ⟨g, false⟩).1 = [t.target i ⟨g, false⟩]) :
    Stops t (g :: gens) fault (g :: done) := by
  obtain ⟨hdone, a, rest, rfl, hfault⟩ := h
  exact ⟨List.forall_mem_cons.2 ⟨hg, hdone⟩, a, rest, rfl, hfault⟩

/-- The columns of the generators before the one at which recording stops are recorded. -/
theorem recordColumns_error (h : t.recordColumns gens = (.error fault, u)) :
    ∃ done f, Stops t gens fault done ∧ f.SameRoots t.forest ∧
      u = { t with
        forest := f
        columns := setEntries (fun g => (t.places t.target g).toArray) done t.columns } := by
  induction gens generalizing t u with
  | nil => simp [recordColumns] at h
  | cons g gens ih =>
      obtain ⟨f, hf, hreshaped⟩ := t.reshaped_column t.ids ⟨g, false⟩ t.ids
      unfold recordColumns at h
      rcases hcol : t.column t.ids ⟨g, false⟩ t.ids with ⟨fault' | places, v⟩ <;>
        simp only [hcol] at h hreshaped
      · obtain rfl : fault' = fault := Except.error.inj (congrArg Prod.fst h)
        obtain rfl : v = u := congrArg Prod.snd h
        obtain ⟨i, hi, heq⟩ := exists_onlyValue_of_column hcol
        exact ⟨[], f, ⟨fun _ hg => absurd hg List.not_mem_nil, g, gens, rfl, i, contains_iff_mem_ids.2 hi, heq⟩,
          hf, hreshaped⟩
      · have hg : ∀ i ∈ t.ids, (t.neighbours i ⟨g, false⟩).1 = [t.target i ⟨g, false⟩] := fun i hi =>
          (exists_neighbours_of_column hcol i hi).elim fun _ hj => neighbours_eq_target hj
        obtain ⟨w, -, heq⟩ := @column_eq t t.target t.ids t.ids ⟨g, false⟩ hg
        obtain rfl : places = t.places t.target g := Except.ok.inj (congrArg Prod.fst (hcol.symm.trans heq))
        subst hreshaped
        -- The generators behind `g` are tried in a table that is alike, but for the column of `g`.
        obtain ⟨done, f', hstops, hf', rfl⟩ := ih h
        have halike : Alike (fun _ => False) t { t with
            forest := f, columns := setEntry g (t.places t.target g).toArray t.columns } :=
          ⟨f, _, hf.agrees, fun _ hno => hno.elim, rfl⟩
        refine ⟨g :: done, f', (halike.stops hstops).cons fun i hi => hg i (contains_iff_mem_ids.1 hi),
          hf'.trans hf, ?_⟩
        rw [halike.places_eq]
        rfl

/-- An open table that is not closed has the columns of some generators afterwards and a forest of another shape. -/
theorem close_error (hopen : t.closed = false) (h : t.close gens = (.error fault, u)) :
    ∃ done f, Stops t gens fault done ∧ f.SameRoots t.forest ∧
      u = { t with
        forest := f
        columns := setEntries (fun g => (t.places t.target g).toArray) done t.columns } := by
  unfold close at h
  rw [if_neg (by rw [hopen]; exact Bool.false_ne_true)] at h
  rcases hrec : t.recordColumns gens with ⟨fault' | _, v⟩ <;> simp only [hrec] at h
  · obtain rfl : fault' = fault := Except.error.inj (congrArg Prod.fst h)
    obtain rfl : v = u := congrArg Prod.snd h
    exact recordColumns_error hrec
  · exact absurd (congrArg Prod.fst h) (by simp)

/-! ### Going on with a refused table -/

theorem history_append (t : Table) (cs ds : List Call) :
    t.history (cs ++ ds) = (t.history cs).bind fun u => u.history ds := by
  induction cs generalizing t with
  | nil => rfl
  | cons c cs ih =>
      rw [List.cons_append, history, history, Option.bind_assoc]
      exact congrArg _ (funext fun u => ih u)

theorem closed_of_history {cs : List Call} (hopen : t.closed = false) (h : t.history cs = some u) :
    u.closed = false := by
  induction cs generalizing t with
  | nil => exact Option.some.inj h ▸ hopen
  | cons c cs ih =>
      obtain ⟨hopen, h⟩ := history_cons_eq_some.1 h
      exact ih hopen h

theorem Reachable.closed_eq (h : t.Reachable) : t.closed = false := by
  obtain ⟨cap, t₀, cs, h₀, hcs⟩ := h
  obtain ⟨rfl, -⟩ := withCap_eq_ok h₀
  exact closed_of_history rfl hcs

theorem Reachable.perform (h : t.Reachable) {c : Call} (hopen : (t.perform c).closed = false) :
    (t.perform c).Reachable := by
  obtain ⟨cap, t₀, cs, h₀, hcs⟩ := h
  refine ⟨cap, t₀, cs ++ [c], h₀, ?_⟩
  rw [history_append, hcs]
  exact history_cons_eq_some.2 ⟨hopen, rfl⟩

/-- What is left of the table `t` after an attempt to close it that failed with the given fault. -/
structure Refused (t : Table) (gens : List String) (fault : Fault) (t' : Table) : Prop where
  reachable : t'.Reachable
  /-- The table is still open. -/
  closed_eq : t'.closed = false
  size_eq : t'.forest.size = t.forest.size
  ids_eq : t'.ids = t.ids
  nodes_eq : t'.nodes = t.nodes
  edges_eq : t'.edges = t.edges
  root_eq : ∀ i, t'.root i = t.root i
  neighbours_eq : ∀ i x, (t'.neighbours i x).1 = (t.neighbours i x).1
  /-- The generators before the one that is at fault have columns. -/
  columns : ∃ done, Stops t gens fault done ∧
    t'.columns = setEntries (fun g => (t.places t.target g).toArray) done t.columns

/-- If a table cannot be closed, then this changes nothing in it but columns of generators, and it does no harm to what
comes later: to all questions the same replies are given as without the attempt, with the same failures, and when the
table is closed after these, then the nodes and edges of the graph are the same, and so is what letters do to which
columns were asked for. -/
theorem Reachable.refused_of_close (h : t.Reachable) (hclose : t.close gens = (.error fault, u)) :
    Refused t gens fault u ∧ ∀ qs, u.replies qs = t.replies qs ∧ ∀ gens',
      ((u.afterAll qs).close gens').1 = ((t.afterAll qs).close gens').1 ∧
      ((u.afterAll qs).close gens').2.nodes = ((t.afterAll qs).close gens').2.nodes ∧
      ((u.afterAll qs).close gens').2.edges = ((t.afterAll qs).close gens').2.edges ∧
      (((t.afterAll qs).close gens').1.isOk → ∀ x : Letter, x.gen ∈ gens' → ∀ i,
        ((u.afterAll qs).close gens').2.act i x = ((t.afterAll qs).close gens').2.act i x) := by
  obtain ⟨done, f, hstops, hf, rfl⟩ := close_error h.closed_eq hclose
  have halike : Alike (fun _ => False) t { t with
      forest := f, columns := setEntries (fun g => (t.places t.target g).toArray) done t.columns } :=
    ⟨f, _, hf.agrees, fun _ hno => hno.elim, rfl⟩
  have hopen := halike.closed_eq.trans h.closed_eq
  have hreachable := h.perform (c := .close gens) (by rw [Table.perform, hclose]; exact hopen)
  rw [Table.perform, hclose] at hreachable
  refine ⟨?_, fun qs => ?_⟩
  · exact {
      reachable := hreachable
      closed_eq := hopen
      size_eq := halike.size_eq
      ids_eq := halike.ids_eq
      nodes_eq := halike.nodes_eq
      edges_eq := halike.edges_eq
      root_eq := halike.root_eq
      neighbours_eq := fun i x => (halike.neighbours i x).1
      columns := ⟨done, hstops, rfl⟩ }
  · obtain ⟨hreplies, hlater⟩ := halike.replies_eq qs
    refine ⟨hreplies, fun gens' => ?_⟩
    obtain ⟨⟨hvalue, hafter⟩, hok⟩ := hlater.close gens'
    exact ⟨hvalue, hafter.nodes_eq, hafter.edges_eq, fun h0 x hx => (hok h0).act_eq (.inl hx)⟩

/-- Calls after which the letter `a` leads from the only node to itself and the letter `b` nowhere. -/
def looped : List Call := [.step 0 ⟨"a", false⟩, .identify 0 1]

/-- Calls after which the letter `b` leads from the first node to another one and back. -/
def regrown : List Call := [.step 0 ⟨"b", false⟩, .step 2 ⟨"b", false⟩, .identify 0 3]

theorem refused_of_close_looped :
    ∃ t u, (start 8).history looped = some t ∧ t.close ["a", "b"] = (.error (.tooFewValues 1 0), u) ∧
      u.columns = [("a", #[0])] ∧ Refused t ["a", "b"] (.tooFewValues 1 0) u ∧
      u.replies (regrown.map .call ++ [.pending]) = t.replies (regrown.map .call ++ [.pending]) ∧
      ∃ g, ((t.afterAll (regrown.map .call ++ [.pending])).close ["b"]).1 = .ok g ∧
        ((u.afterAll (regrown.map .call ++ [.pending])).close ["b"]).1 = .ok g := by
  have hclose : ((start 8).history looped).map (fun t =>
      ((t.close ["a", "b"]).1, (t.close ["a", "b"]).2.columns,
        ((t.afterAll (regrown.map .call ++ [.pending])).close ["b"]).1.isOk)) =
        some (.error (.tooFewValues 1 0), [("a", #[0])], true) := by cbv
  obtain ⟨t, ht, heq⟩ := Option.map_eq_some_iff.1 hclose
  rcases hc : t.close ["a", "b"] with ⟨r, u⟩
  rw [hc] at heq
  obtain ⟨rfl, hcolumns, hok⟩ : r = .error (.tooFewValues 1 0) ∧ u.columns = [("a", #[0])] ∧ _ := by
    simpa only [Prod.mk.injEq] using heq
  obtain ⟨hrefused, hlater⟩ := Reachable.refused_of_close ⟨8, start 8, looped, rfl, ht⟩ hc
  obtain ⟨hreplies, hclosed⟩ := hlater (regrown.map .call ++ [.pending])
  rcases hend : ((t.afterAll (regrown.map .call ++ [.pending])).close ["b"]).1 with fault | g
  · rw [hend] at hok
    exact absurd hok (by simp [Except.isOk, Except.toBool])
  · exact ⟨t, u, ht, hc, hcolumns, hrefused, hreplies, g, hend, (hclosed ["b"]).1.trans hend⟩

end ToddCoxeter.Table
