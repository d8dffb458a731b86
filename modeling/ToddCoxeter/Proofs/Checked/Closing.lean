import ToddCoxeter.Proofs.Checked.Table
import ToddCoxeter.Proofs.Table.Closing

/-! # Closing a table with every access checked

The second version of closing a table gives nothing if a row or a parent is missing, or if the far end of
an edge has no place among the live nodes.  On a well-formed table both versions agree
(`Table.WellFormed.close?_eq`). -/

namespace ToddCoxeter

namespace Table

variable {t : Table}

/-- For each of the given nodes the place, in the list `order`, of the node to which the letter leads. -/
def column? (t : Table) (order : List ℕ) (x : Letter) : List ℕ → Option (Attempt Fault (List ℕ))
  | [] => some (.ok [], t)
  | i :: is => do
    let (targets, t) ← t.neighbours? i x
    match onlyValue targets with
    | .error fault => return (.error fault, t)
    | .ok j =>
      let place ← order.idxOf? j
      match ← t.column? order x is with
      | (.error fault, t) => return (.error fault, t)
      | (.ok places, t) => return (.ok (place :: places), t)

/-- Records the columns of the generators. -/
def recordColumns? (t : Table) : List String → Option (Attempt Fault Unit)
  | [] => some (.ok (), t)
  | g :: gens => do
    match ← t.column? t.ids ⟨g, false⟩ t.ids with
    | (.error fault, t) => return (.error fault, t)
    | (.ok places, t) =>
      let t := { t with columns := setEntry g places.toArray t.columns }
      t.recordColumns? gens

/-- The closed table, if the ends of all edges are found and are live nodes. -/
def renumber? (t : Table) : Option Table := do
  let found ← t.edges.toList.mapM fun e => do
    return (⟨← t.forest.root? e.source, ← t.forest.root? e.target, e.label⟩ : Edge ℕ)
  let edges ← (Edge.firsts found).mapM fun e => do
    return (⟨← t.ids.idxOf? e.source, ← t.ids.idxOf? e.target, e.label⟩ : Edge ℕ)
  some { t.renumber with edges := edges.toArray }

/-- Closes the table. -/
def close? (t : Table) (gens : List String) : Option (Attempt Fault Graph) :=
  if t.closed then some (.error .alreadyClosed, t)
  else do
    match ← t.recordColumns? gens with
    | (.error fault, t) => return (.error fault, t)
    | (.ok _, t) =>
      let t ← t.renumber?
      return (.ok t.graph, t)

theorem idxOf?_eq {order : List ℕ} {j : ℕ} (hj : j ∈ order) :
    order.idxOf? j = some (order.idxOf j) := by
  induction order with
  | nil => exact absurd hj (by simp)
  | cons i order ih =>
      rw [List.idxOf?_cons]
      by_cases hij : i = j
      · rw [hij, beq_self_eq_true, if_pos rfl, List.idxOf_cons_self]
      · have hj : j ∈ order := (List.mem_cons.1 hj).resolve_left (Ne.symm hij)
        rw [ih hj, List.idxOf_cons_ne _ hij, beq_eq_false_iff_ne.2 hij]
        rfl

theorem WellFormed.recordColumns (h : t.WellFormed) (gens : List String) :
    (t.recordColumns gens).2.WellFormed := by
  induction gens generalizing t with
  | nil => exact h
  | cons g gens ih =>
      have hcol := h.reshaped (t.reshaped_column t.ids ⟨g, false⟩ t.ids)
      unfold Table.recordColumns
      rcases hcol' : t.column t.ids ⟨g, false⟩ t.ids with ⟨fault | places, u⟩ <;> rw [hcol'] at hcol
      · exact hcol
      · exact ih (hcol.of_eq rfl rfl rfl)

theorem WellFormed.column?_eq (h : t.WellFormed) {order is : List ℕ} {x : Letter}
    (horder : ∀ j, t.contains j → j ∈ order) (his : ∀ i ∈ is, t.contains i) :
    t.column? order x is = some (t.column order x is) := by
  induction is generalizing t with
  | nil => rfl
  | cons i is ih =>
      have hlt := h.lt_of_contains (his i List.mem_cons_self)
      have hr := t.reshaped_neighbours i x
      have hmem : ∀ j ∈ (t.neighbours i x).1, j ∈ order := fun j hj =>
        horder j (h.contains_of_leads ((h.mem_neighbours hlt x).1 hj)).2
      unfold column? column
      rw [h.neighbours?_eq hlt]
      rcases hnb : t.neighbours i x with ⟨targets, u⟩
      rw [hnb] at hr hmem
      have hrest := ih (h.reshaped hr) (fun j hj => horder j (hr.contains_eq j ▸ hj))
        fun j hj => (hr.contains_eq j).trans (his j (List.mem_cons_of_mem i hj))
      simp only [Option.bind_eq_bind, Option.bind_some]
      rcases targets with _ | ⟨j, _ | ⟨k, js⟩⟩
      · rfl
      · simp only [onlyValue, idxOf?_eq (hmem j List.mem_cons_self), Option.bind_some, hrest]
        rcases u.column order x is with ⟨fault | places, v⟩ <;> rfl
      · rfl

theorem WellFormed.recordColumns?_eq (h : t.WellFormed) (gens : List String) :
    t.recordColumns? gens = some (t.recordColumns gens) := by
  induction gens generalizing t with
  | nil => rfl
  | cons g gens ih =>
      have hcol := h.reshaped (t.reshaped_column t.ids ⟨g, false⟩ t.ids)
      rw [recordColumns?, Table.recordColumns, h.column?_eq (fun j => contains_iff_mem_ids.1)
        fun j => contains_iff_mem_ids.2]
      simp only [Option.bind_eq_bind, Option.bind_some]
      rcases hcol' : t.column t.ids ⟨g, false⟩ t.ids with ⟨fault | places, u⟩ <;> rw [hcol'] at hcol
      · rfl
      · exact ih (hcol.of_eq rfl rfl rfl)

theorem WellFormed.renumber?_eq (h : t.WellFormed) : t.renumber? = some t.renumber := by
  have hroot : ∀ e ∈ t.edges.toList, ∀ b, t.forest.root? (e.side b) = some (t.root (e.side b)) :=
    fun e he b => h.descending.root?_eq (h.side_lt e (Array.mem_def.2 he) b)
  have hfound := mapM_eq_some (g := Edge.map t.root) (l := t.edges.toList)
    (f := fun e => do
      return (⟨← t.forest.root? e.source, ← t.forest.root? e.target, e.label⟩ : Edge ℕ))
    fun e he => by
      simp only [show t.forest.root? e.source = _ from hroot e he false,
        show t.forest.root? e.target = _ from hroot e he true, Option.bind_eq_bind,
        Option.bind_some]
      rfl
  have hmem : ∀ e ∈ t.liveEdges, ∀ b, e.side b ∈ t.ids := by
    intro e he b
    obtain ⟨e', he', rfl⟩ := List.mem_map.1 (List.mem_of_find?_eq_some (Edge.find?_of_mem_firsts he))
    have hlive := h.contains_root (h.side_lt e' (Array.mem_def.2 he') b)
    cases b <;> exact contains_iff_mem_ids.1 hlive
  have hedges := mapM_eq_some (g := Edge.map t.ids.idxOf) (l := t.liveEdges)
    (f := fun e => do
      return (⟨← t.ids.idxOf? e.source, ← t.ids.idxOf? e.target, e.label⟩ : Edge ℕ))
    fun e he => by
      simp only [show t.ids.idxOf? e.source = _ from idxOf?_eq (hmem e he false),
        show t.ids.idxOf? e.target = _ from idxOf?_eq (hmem e he true), Option.bind_eq_bind,
        Option.bind_some]
      rfl
  unfold renumber?
  rw [hfound]
  simp only [Option.bind_eq_bind, Option.bind_some]
  exact congrArg (· >>= fun edges => some { t.renumber with edges := edges.toArray }) hedges

theorem WellFormed.close?_eq (h : t.WellFormed) (gens : List String) :
    t.close? gens = some (t.close gens) := by
  have hrecord := h.recordColumns gens
  unfold close? close
  rw [h.recordColumns?_eq]
  split_ifs
  · rfl
  · simp only [Option.bind_eq_bind, Option.bind_some]
    rcases hrecord' : t.recordColumns gens with ⟨fault | _, u⟩ <;> rw [hrecord'] at hrecord
    · rfl
    · simp only [hrecord.renumber?_eq, Option.bind_some]
      rfl

end Table

end ToddCoxeter
