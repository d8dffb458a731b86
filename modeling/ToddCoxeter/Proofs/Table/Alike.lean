import ToddCoxeter.Proofs.Table.Calls

/-! # Tables that cannot be told apart

Two tables are alike if they differ at most in the shape of their forests, which has no influence on the roots,
and in the columns of some generators (`Table.Alike`).  Every operation gives the same on alike tables and leaves
alike tables behind (`Table.Same`), and a table that is closed has its columns from the closing
(`Table.Alike.close`).  So whatever is asked of alike tables, one question after the other, the replies are the
same (`Table.Alike.replies_eq`). -/

namespace ToddCoxeter

namespace Forest

/-- The two forests have the same nodes, represented by the same roots.  Unlike `Forest.SameRoots` this says nothing
of the order of parents, so that it holds both ways. -/
structure Agrees (f g : Forest) : Prop where
  size_eq : g.size = f.size
  root_eq : ∀ i, g.root i = f.root i

theorem SameRoots.agrees {f g : Forest} (h : SameRoots g f) : Agrees f g := ⟨h.size_eq, h.root_eq⟩

namespace Agrees

variable {f g : Forest} (h : Agrees f g)
include h

theorem find (i j : ℕ) : Agrees (f.find i).2 (g.find j).2 := by
  refine ⟨?_, fun k => ?_⟩
  · rw [size_find, size_find, h.size_eq]
  · rw [root_snd_find, root_snd_find, h.root_eq]

theorem findAll (is js : List ℕ) : Agrees (f.findAll is).2 (g.findAll js).2 := by
  refine ⟨?_, fun k => ?_⟩
  · rw [size_findAll, size_findAll, h.size_eq]
  · rw [root_snd_findAll, root_snd_findAll, h.root_eq]

theorem push : Agrees f.push g.push := by
  refine ⟨?_, fun k => ?_⟩
  · rw [size_push, size_push, h.size_eq]
  · rw [root_push, root_push, h.root_eq]

theorem link {a b : ℕ} (ha : f.root a = a) (hb : f.root b = b) (hab : a < b) :
    Agrees (f.link b a) (g.link b a) := by
  refine ⟨?_, fun k => ?_⟩
  · rw [size_link, size_link, h.size_eq]
  · by_cases hlt : b < f.size
    · have ha' : g.root a = a := (h.root_eq a).trans ha
      have hb' : g.root b = b := (h.root_eq b).trans hb
      rw [root_link ha hb hab hlt, root_link ha' hb' hab (h.size_eq ▸ hlt), h.root_eq]
    · -- A number that is no node is not linked.
      have hlt' : ¬ b < g.size := h.size_eq.symm ▸ hlt
      have hf : f.link b a = f := congrArg Forest.mk (Array.setIfInBounds_eq_of_size_le (Nat.not_lt.1 hlt))
      have hg : g.link b a = g := congrArg Forest.mk (Array.setIfInBounds_eq_of_size_le (Nat.not_lt.1 hlt'))
      rw [hf, hg, h.root_eq]

end Agrees

end Forest

namespace Table

variable {S S' : String → Prop} {t u : Table} {i : ℕ}

/-- The table `u` differs from `t` at most in the shape of its forest and in the columns of generators that do not
satisfy `S`. -/
def Alike (S : String → Prop) (t u : Table) : Prop :=
  ∃ f columns, t.forest.Agrees f ∧ (∀ a, S a → columns.lookup a = t.columns.lookup a) ∧
    u = { t with forest := f, columns }

/-- Two outcomes with the same value and alike tables. -/
def Same {α : Type} (S : String → Prop) (r s : α × Table) : Prop := s.1 = r.1 ∧ Alike S r.2 s.2

theorem Same.exists_eq {α : Type} {r s : α × Table} (h : Same S r s) :
    ∃ a v v', r = (a, v) ∧ s = (a, v') ∧ Alike S v v' :=
  ⟨r.1, r.2, s.2, rfl, Prod.ext h.1 rfl, h.2⟩

namespace Alike

theorem refl (S : String → Prop) (t : Table) : Alike S t t :=
  ⟨t.forest, t.columns, ⟨rfl, fun _ => rfl⟩, fun _ _ => rfl, rfl⟩

theorem mono (h : Alike S t u) (hS : ∀ a, S' a → S a) : Alike S' t u := by
  obtain ⟨f, columns, hf, hc, rfl⟩ := h
  exact ⟨f, columns, hf, fun a ha => hc a (hS a ha), rfl⟩

section views

variable (h : Alike S t u)
include h

theorem root_eq (i : ℕ) : u.root i = t.root i := by
  obtain ⟨f, columns, hf, -, rfl⟩ := h
  exact hf.root_eq i

theorem size_eq : u.forest.size = t.forest.size := by
  obtain ⟨f, columns, hf, -, rfl⟩ := h
  exact hf.size_eq

theorem rows_eq : u.rows = t.rows := by
  obtain ⟨f, columns, -, -, rfl⟩ := h
  rfl

theorem edges_eq : u.edges = t.edges := by
  obtain ⟨f, columns, -, -, rfl⟩ := h
  rfl

theorem closed_eq : u.closed = t.closed := by
  obtain ⟨f, columns, -, -, rfl⟩ := h
  rfl

theorem lookup_eq {a : String} (ha : S a) : u.columns.lookup a = t.columns.lookup a := by
  obtain ⟨f, columns, -, hc, rfl⟩ := h
  exact hc a ha

theorem ids_eq : u.ids = t.ids := by rw [ids, h.rows_eq, ids]

theorem contains_eq (i : ℕ) : u.contains i = t.contains i := by rw [contains, h.rows_eq, contains]

theorem node_eq (i : ℕ) : u.node i = t.node i := by
  have hrow : u.row (t.root i) = t.row (t.root i) := by rw [row, h.rows_eq, row]
  simp only [node, h.root_eq, hrow]

theorem nodes_eq : u.nodes = t.nodes := by
  rw [nodes, h.ids_eq, funext h.node_eq, nodes]

theorem locate_eq (i : Int) : u.locate i = t.locate i := by rw [locate, h.size_eq, locate]

theorem act_eq {x : Letter} (hx : S x.gen) (i : Int) : u.act i x = t.act i x := by
  simp only [act, h.closed_eq, h.lookup_eq hx]

end views

/-! ### Operations -/

theorem find (h : Alike S t u) (i : ℕ) : Same S (t.find i) (u.find i) := by
  obtain ⟨f, columns, hf, hc, rfl⟩ := h
  exact ⟨hf.root_eq i, (f.find i).2, columns, hf.find i i, hc, rfl⟩

theorem neighbours (h : Alike S t u) (i : ℕ) (x : Letter) :
    Same S (t.neighbours i x) (u.neighbours i x) := by
  have hroot : u.root = t.root := funext h.root_eq
  refine ⟨?_, ?_⟩
  · rw [fst_neighbours, fst_neighbours, hroot, row, h.rows_eq, row]
  · obtain ⟨f, columns, hf, hc, rfl⟩ := h
    exact ⟨_, columns, (hf.find i i).findAll _ _, hc, rfl⟩

theorem addNode (h : Alike S t u) (label : Word) : Alike S (t.addNode label) (u.addNode label) := by
  obtain ⟨f, columns, hf, hc, rfl⟩ := h
  refine ⟨f.push, columns, hf.push, hc, ?_⟩
  simp only [Table.addNode, hf.size_eq]

theorem addEdge (h : Alike S t u) (e : Edge ℕ) : Alike S (t.addEdge e) (u.addEdge e) := by
  obtain ⟨f, columns, hf, hc, rfl⟩ := h
  exact ⟨f, columns, hf, hc, rfl⟩

theorem define (h : Alike S t u) (i : ℕ) (x : Letter) : Same S (t.define i x) (u.define i x) := by
  have hrow : u.row i = t.row i := by rw [row, h.rows_eq, row]
  have hnode := h.addNode ((t.row i).label ++ [x])
  have hlive : (u.addNode ((t.row i).label ++ [x])).live = (t.addNode ((t.row i).label ++ [x])).live := by
    rw [live, hnode.rows_eq, live]
  have hcap : u.cap = t.cap := by
    obtain ⟨f, columns, -, -, rfl⟩ := h
    rfl
  rw [define_eq, define_eq, hrow, hcap, hlive]
  split_ifs
  · exact ⟨rfl, hnode⟩
  · have hattach : u.attach i x =
        (u.addNode ((t.row i).label ++ [x])).addEdge (.along i x t.forest.size) := by
      rw [attach, hrow, h.size_eq]
    rw [hattach, h.size_eq]
    exact ⟨rfl, hnode.addEdge _⟩

theorem step (h : Alike S t u) (i : ℕ) (x : Letter) : Same S (t.step i x) (u.step i x) := by
  have hfind := (h.find i).2
  have hrow : ((u.find i).2.row (u.root i)).farEnds x = ((t.find i).2.row (t.root i)).farEnds x := by
    rw [row, hfind.rows_eq, h.root_eq, row]
  rw [step_eq, step_eq, hrow]
  cases ((t.find i).2.row (t.root i)).farEnds x with
  | nil =>
      rw [h.root_eq]
      exact hfind.define _ x
  | cons j js => exact ⟨congrArg Except.ok (hfind.find j).1, (hfind.find j).2⟩

theorem trace (h : Alike S t u) (i : ℕ) (w : Word) : Same S (t.trace i w) (u.trace i w) := by
  induction w generalizing t u i with
  | nil => exact ⟨congrArg Except.ok (h.find i).1, (h.find i).2⟩
  | cons x w ih =>
      obtain ⟨r, v, v', hstep, hstep', halike⟩ := (h.step i x).exists_eq
      unfold Table.trace
      rw [hstep, hstep']
      cases r with
      | error fault => exact ⟨rfl, halike⟩
      | ok j => exact ih halike j

theorem absorb (h : Alike S t u) {a b : ℕ} (ha : t.root a = a) (hb : t.root b = b) (hab : a < b) :
    Alike S (t.absorb a b) (u.absorb a b) := by
  obtain ⟨f, columns, hf, hc, rfl⟩ := h
  exact ⟨f.link b a, columns, hf.link ha hb hab, hc, rfl⟩

theorem identify (h : Alike S t u) (a b : ℕ) : Same S (t.identify a b) (u.identify a b) := by
  have heq : ∀ v : Table, v.identify a b =
      if v.root a = (v.find a).2.root b then (v.root a, ((v.find a).2.find b).2)
      else (min (v.root a) ((v.find a).2.root b), ((v.find a).2.find b).2.absorb
        (min (v.root a) ((v.find a).2.root b)) (max (v.root a) ((v.find a).2.root b))) := fun _ => rfl
  have hfind := ((h.find a).2.find b).2
  have hroot : ∀ c, ((t.find a).2.find b).2.root c = t.root c := fun c => by
    rw [root_snd_find, root_snd_find]
  have hidem : ∀ c, t.root (t.root c) = t.root c := t.forest.root_root
  simp only [heq, root_snd_find, h.root_eq]
  split_ifs with hab
  · exact ⟨rfl, hfind⟩
  · have hmin : t.root (min (t.root a) (t.root b)) = min (t.root a) (t.root b) := by
      rcases min_choice (t.root a) (t.root b) with hm | hm <;> rw [hm, hidem]
    have hmax : t.root (max (t.root a) (t.root b)) = max (t.root a) (t.root b) := by
      rcases max_choice (t.root a) (t.root b) with hm | hm <;> rw [hm, hidem]
    exact ⟨rfl, hfind.absorb ((hroot _).trans hmin) ((hroot _).trans hmax) (by omega)⟩

theorem identifyAll (h : Alike S t u) (kept : ℕ) (js : List ℕ) :
    Same S (t.identifyAll kept js) (u.identifyAll kept js) := by
  induction js generalizing t u with
  | nil => exact ⟨rfl, h⟩
  | cons j js ih =>
      by_cases hj : j = kept
      · subst hj
        unfold Table.identifyAll
        rw [if_pos rfl, if_pos rfl]
        exact ih h
      · obtain ⟨hcount, hrest⟩ := ih (h.identify kept j).2
        unfold Table.identifyAll
        rw [if_neg hj, if_neg hj]
        exact ⟨congrArg (· + 1) hcount, hrest⟩

theorem sweepLetter (h : Alike S t u) (i : ℕ) (x : Letter) :
    Same S (t.sweepLetter i x) (u.sweepLetter i x) := by
  obtain ⟨targets, v, v', hnb, hnb', halike⟩ := (h.neighbours i x).exists_eq
  unfold Table.sweepLetter
  rw [h.contains_eq, hnb, hnb']
  split_ifs
  · cases targets with
    | nil => exact ⟨rfl, halike⟩
    | cons j js => exact halike.identifyAll _ _
  · exact ⟨rfl, h⟩

theorem sweepNode (h : Alike S t u) (i : ℕ) (xs : List Letter) :
    Same S (t.sweepNode i xs) (u.sweepNode i xs) := by
  induction xs generalizing t u with
  | nil => exact ⟨rfl, h⟩
  | cons x xs ih =>
      obtain ⟨hfirst, halike⟩ := h.sweepLetter i x
      obtain ⟨hrest, halike⟩ := ih halike
      exact ⟨congrArg₂ (· + ·) hfirst hrest, halike⟩

theorem sweepNodes (h : Alike S t u) (xs : List Letter) (is : List ℕ) :
    Same S (t.sweepNodes xs is) (u.sweepNodes xs is) := by
  induction is generalizing t u with
  | nil => exact ⟨rfl, h⟩
  | cons i is ih =>
      obtain ⟨hfirst, halike⟩ := h.sweepNode i xs
      obtain ⟨hrest, halike⟩ := ih halike
      exact ⟨congrArg₂ (· + ·) hfirst hrest, halike⟩

theorem sweep (h : Alike S t u) (gens : List String) : Same S (t.sweep gens) (u.sweep gens) := by
  unfold Table.sweep
  rw [h.ids_eq]
  exact h.sweepNodes _ _

theorem markComplete (h : Alike S t u) (i : ℕ) : Alike S (t.markComplete i) (u.markComplete i) := by
  have hroot := h.root_eq i
  obtain ⟨f, columns, hf, hc, rfl⟩ := h
  refine ⟨f, columns, hf, hc, ?_⟩
  unfold Table.markComplete
  rw [hroot]

/-! ### Closing -/

theorem column (h : Alike S t u) (order : List ℕ) (x : Letter) (is : List ℕ) :
    Same S (t.column order x is) (u.column order x is) := by
  induction is generalizing t u with
  | nil => exact ⟨rfl, h⟩
  | cons i is ih =>
      obtain ⟨targets, v, v', hnb, hnb', halike⟩ := (h.neighbours i x).exists_eq
      obtain ⟨r, w, w', hcol, hcol', halike'⟩ := (ih halike).exists_eq
      unfold Table.column
      rw [hnb, hnb']
      rcases hvalue : onlyValue targets with fault | j <;> simp only [hvalue]
      · exact ⟨rfl, halike⟩
      · rw [hcol, hcol']
        cases r <;> exact ⟨rfl, halike'⟩

/-- When all columns are recorded, those of the generators asked for are the same. -/
theorem recordColumns (h : Alike S t u) (gens : List String) :
    Same S (t.recordColumns gens) (u.recordColumns gens) ∧ ((t.recordColumns gens).1 = .ok () →
      Alike (fun a => a ∈ gens ∨ S a) (t.recordColumns gens).2 (u.recordColumns gens).2) := by
  induction gens generalizing S t u with
  | nil => exact ⟨⟨rfl, h⟩, fun _ => h.mono fun a ha => ha.resolve_left List.not_mem_nil⟩
  | cons g gens ih =>
      obtain ⟨r, v, v', hcol, hcol', halike⟩ := (h.column t.ids ⟨g, false⟩ t.ids).exists_eq
      unfold Table.recordColumns
      rw [h.ids_eq, hcol, hcol']
      rcases r with fault | places
      · exact ⟨⟨rfl, halike⟩, fun hok => absurd hok (by simp)⟩
      · have hset : Alike (fun a => a = g ∨ S a)
            { v with columns := setEntry g places.toArray v.columns }
            { v' with columns := setEntry g places.toArray v'.columns } := by
          obtain ⟨f, columns, hf, hc, rfl⟩ := halike
          refine ⟨f, _, hf, fun a ha => ?_, rfl⟩
          rw [lookup_setEntry, lookup_setEntry]
          split_ifs with hag
          · rfl
          · exact hc a (ha.resolve_left hag)
        obtain ⟨⟨hfst, hsame⟩, hok⟩ := ih hset
        refine ⟨⟨hfst, hsame.mono fun a ha => .inr ha⟩, fun h0 => (hok h0).mono fun a ha => ?_⟩
        rw [List.mem_cons, or_assoc] at ha
        tauto

theorem renumber (h : Alike S t u) : Alike S t.renumber u.renumber := by
  have hroot : u.root = t.root := funext h.root_eq
  obtain ⟨f, columns, hf, hc, rfl⟩ := h
  refine ⟨_, columns, ⟨rfl, fun _ => rfl⟩, hc, ?_⟩
  unfold Table.renumber liveEdges
  rw [hroot]
  rfl

/-- Alike tables are closed or refused in the same way, and if they are closed, then the columns of the generators
asked for are the same. -/
theorem close (h : Alike S t u) (gens : List String) :
    Same S (t.close gens) (u.close gens) ∧ ((t.close gens).1.isOk →
      Alike (fun a => a ∈ gens ∨ S a) (t.close gens).2 (u.close gens).2) := by
  obtain ⟨hsame, hok⟩ := h.recordColumns gens
  obtain ⟨r, v, v', hrec, hrec', halike⟩ := hsame.exists_eq
  rw [hrec, hrec'] at hok
  unfold Table.close
  rw [h.closed_eq, hrec, hrec']
  split_ifs
  · exact ⟨⟨rfl, h⟩, fun hno => absurd hno (by simp [Except.isOk, Except.toBool])⟩
  · rcases r with fault | _
    · exact ⟨⟨rfl, halike⟩, fun hno => absurd hno (by simp [Except.isOk, Except.toBool])⟩
    · have hgraph : v'.renumber.graph = v.renumber.graph := by
        rw [graph, halike.renumber.nodes_eq, halike.renumber.edges_eq, graph]
      exact ⟨⟨congrArg Except.ok hgraph, halike.renumber⟩, fun _ => (hok rfl).renumber⟩

/-! ### Questions -/

theorem onNode (h : Alike S t u) (i : Int) {f g : ℕ → Table} (hfg : ∀ k, Alike S (f k) (g k)) :
    Alike S (t.onNode i f) (u.onNode i g) := by
  unfold Table.onNode
  rw [h.locate_eq]
  cases t.locate i with
  | error fault => exact h
  | ok k => exact hfg k

theorem perform (h : Alike S t u) (c : Call) : Alike S (t.perform c) (u.perform c) := by
  cases c with
  | find i => exact h.onNode i fun k => (h.find k).2
  | neighbours i x => exact h.onNode i fun k => (h.neighbours k x).2
  | step i x => exact h.onNode i fun k => (h.step k x).2
  | trace i w => exact h.onNode i fun k => (h.trace k w).2
  | identify a b => exact h.onNode a fun a => (h.find a).2.onNode b fun b => (h.identify a b).2
  | sweep gens => exact (h.sweep gens).2
  | markComplete i => exact h.onNode i fun k => h.markComplete k
  | close gens => exact (h.close gens).1.2

end Alike

/-- A call, or the question which node is to be completed next. -/
inductive Query where
  | call (c : Call)
  | pending
deriving DecidableEq, Repr

/-- What a table replies. -/
inductive Reply where
  | id (i : ℕ)
  | node (n : Node)
  | nodes (ns : List Node)
  | count (n : ℕ)
  | pending (n : Option Node)
  | graph (g : Graph)
  | done
deriving DecidableEq, Repr

/-- The node at which a step or a word arrives, or the failure that the cap is passed. -/
def arrival : Attempt CapacityFault ℕ → Except Fault Reply
  | (.ok i, t) => .ok (.node (t.node i))
  | (.error fault, _) => .error (.overflow fault)

/-- The reply to a question. -/
def reply (t : Table) : Query → Except Fault Reply
  | .call (.find i) => do return .id (t.find (← t.locate i)).1
  | .call (.neighbours i x) => do
    let (js, t) := t.neighbours (← t.locate i) x
    return .nodes (js.map t.node)
  | .call (.step i x) => do arrival (t.step (← t.locate i) x)
  | .call (.trace i w) => do arrival (t.trace (← t.locate i) w)
  | .call (.identify a b) => do return .id (t.identify (← t.locate a) (← t.locate b)).1
  | .call (.sweep gens) => .ok (.count (t.sweep gens).1)
  | .call (.markComplete i) => do
    let _ ← t.locate i
    return .done
  | .call (.close gens) => .graph <$> (t.close gens).1
  | .pending => .ok (.pending (t.pending?.map t.node))

/-- The table after a question. -/
def after (t : Table) : Query → Table
  | .call c => t.perform c
  | .pending => t

/-- The table after several questions. -/
def afterAll (t : Table) (qs : List Query) : Table := qs.foldl after t

/-- The replies to several questions, asked one after the other. -/
def replies (t : Table) : List Query → List (Except Fault Reply)
  | [] => []
  | q :: qs => t.reply q :: (t.after q).replies qs

theorem Same.arrival_eq {r s : Attempt CapacityFault ℕ} (h : Same S r s) : arrival s = arrival r := by
  obtain ⟨a, v, v', rfl, rfl, halike⟩ := h.exists_eq
  cases a with
  | error fault => rfl
  | ok j => exact congrArg (Except.ok ∘ Reply.node) (halike.node_eq j)

namespace Alike

theorem reply_eq (h : Alike S t u) (q : Query) : u.reply q = t.reply q := by
  cases q with
  | pending =>
      have hpending : u.pending? = t.pending? := by rw [pending?, h.rows_eq, pending?]
      simp only [reply, hpending, funext h.node_eq]
  | call c =>
      cases c with
      | find i => simp only [reply, h.locate_eq, (h.find _).1]
      | neighbours i x =>
          simp only [reply, h.locate_eq, (h.neighbours _ x).1, funext (h.neighbours _ x).2.node_eq]
      | step i x => simp only [reply, h.locate_eq, (h.step _ x).arrival_eq]
      | trace i w => simp only [reply, h.locate_eq, (h.trace _ w).arrival_eq]
      | identify a b => simp only [reply, h.locate_eq, (h.identify _ _).1]
      | sweep gens => simp only [reply, (h.sweep gens).1]
      | markComplete i => simp only [reply, h.locate_eq]
      | close gens => simp only [reply, (h.close gens).1.1]

theorem after (h : Alike S t u) (q : Query) : Alike S (t.after q) (u.after q) := by
  cases q with
  | call c => exact h.perform c
  | pending => exact h

/-- Whatever is asked of alike tables, the replies are the same, and the tables stay alike. -/
theorem replies_eq (h : Alike S t u) (qs : List Query) :
    u.replies qs = t.replies qs ∧ Alike S (t.afterAll qs) (u.afterAll qs) := by
  induction qs generalizing t u with
  | nil => exact ⟨rfl, h⟩
  | cons q qs ih =>
      obtain ⟨hrest, halike⟩ := ih (h.after q)
      exact ⟨congrArg₂ List.cons (h.reply_eq q) hrest, halike⟩

end Alike

end Table

end ToddCoxeter
