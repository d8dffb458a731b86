import ToddCoxeter.Proofs.Table.Adjacency
import ToddCoxeter.Table.Closing

/-! # What closing a table gives

If every generator leads from each live node to one node, `next i x` say, then the columns are recorded
(`Table.recordColumns_eq`), one for each generator in their order (`setEntries_of_nodup`), and the table is
closed (`Table.close_eq`).  No other table can be closed (`Table.exists_next_of_close`).  The closed table
numbers the live nodes by their places in the order of the nodes (`Table.ids_renumber`,
`Table.nodes_renumber`), and its columns tell how letters act on these places (`Table.act_eq`).  Of parallel
edges it keeps the first (`Edge.find?_of_mem_firsts`), so that no two are parallel
(`Edge.nodup_ends_firsts`) and no pair of neighbours is lost (`Edge.mem_ends_firsts`). -/

namespace ToddCoxeter

/-! ### The first of parallel edges -/

namespace Edge

variable {ν : Type} [DecidableEq ν] {e f : Edge ν} {es : List (Edge ν)}

/-- The initial and the final end of the edge. -/
def ends (e : Edge ν) : ν × ν := (e.source, e.target)

theorem any_parallel : (es.any (·.parallel f)) = true ↔ f.ends ∈ es.map ends := by
  simp [parallel, ends]

theorem firsts_concat (es : List (Edge ν)) (f : Edge ν) :
    firsts (es ++ [f]) = if f.ends ∈ (firsts es).map ends then firsts es else firsts es ++ [f] := by
  have hany : (es.foldl addIfNew #[]).any (·.parallel f) = true ↔ f.ends ∈ (firsts es).map ends := by
    rw [← Array.any_toList]
    exact any_parallel
  rw [firsts, List.foldl_append, List.foldl_cons, List.foldl_nil, addIfNew]
  by_cases hold : f.ends ∈ (firsts es).map ends
  · rw [if_pos hold, if_pos (hany.2 hold), firsts]
  · rw [if_neg hold, if_neg (mt hany.1 hold), Array.toList_push, firsts]

/-- No pair of neighbours is lost. -/
theorem mem_ends_firsts {q : ν × ν} : q ∈ (firsts es).map ends ↔ q ∈ es.map ends := by
  induction es using List.reverseRecOn with
  | nil => rfl
  | append_singleton es f ih =>
      rw [firsts_concat, List.map_append, List.mem_append, ← ih, List.map_singleton, List.mem_singleton]
      split_ifs with hold
      · exact ⟨.inl, fun h => h.elim id fun heq => heq ▸ hold⟩
      · rw [List.map_append, List.mem_append, List.map_singleton, List.mem_singleton]

/-- No two of the kept edges are parallel. -/
theorem nodup_ends_firsts (es : List (Edge ν)) : ((firsts es).map ends).Nodup := by
  induction es using List.reverseRecOn with
  | nil => exact List.nodup_nil
  | append_singleton es f ih =>
      rw [firsts_concat]
      split_ifs with hold
      · exact ih
      · rw [List.map_append, List.map_singleton, ← List.concat_eq_append]
        exact (List.nodup_concat ..).2 ⟨hold, ih⟩

/-- Of parallel edges the first is kept. -/
theorem find?_of_mem_firsts (h : f ∈ firsts es) : es.find? (fun e => e.ends = f.ends) = some f := by
  induction es using List.reverseRecOn with
  | nil => exact absurd h (by simp [firsts])
  | append_singleton es e ih =>
      rw [firsts_concat] at h
      rw [List.find?_append]
      split_ifs at h with hold
      · rw [ih h, Option.some_or]
      · rcases List.mem_append.1 h with h | h
        · rw [ih h, Option.some_or]
        · obtain rfl := List.mem_singleton.1 h
          have hnone : es.find? (fun e => e.ends = f.ends) = none := by
            refine List.find?_eq_none.2 fun e he heq => hold ?_
            rw [mem_ends_firsts, ← of_decide_eq_true heq]
            exact List.mem_map_of_mem he
          rw [hnone, Option.none_or, List.find?_cons_of_pos (by simp)]

end Edge

/-! ### Entries with keys -/

theorem lookup_setEntry {α : Type} (key k : String) (value : α) (entries : List (String × α)) :
    (setEntry key value entries).lookup k =
      if k = key then some value else entries.lookup k := by
  induction entries with
  | nil =>
      unfold setEntry
      rw [List.lookup_cons, List.lookup_nil]
      by_cases hk : k = key
      · rw [hk, beq_self_eq_true, if_pos rfl]
      · rw [beq_eq_false_iff_ne.2 hk, if_neg hk]
  | cons entry entries ih =>
      obtain ⟨k', v⟩ := entry
      unfold setEntry
      by_cases hk' : k' = key
      · subst hk'
        rw [if_pos rfl, List.lookup_cons, List.lookup_cons]
        by_cases hk : k = k'
        · rw [hk, beq_self_eq_true, if_pos rfl]
        · rw [beq_eq_false_iff_ne.2 hk, if_neg hk]
      · rw [if_neg hk', List.lookup_cons, List.lookup_cons, ih]
        by_cases hk : k = k'
        · rw [hk, beq_self_eq_true]
          exact (if_neg hk').symm
        · rw [beq_eq_false_iff_ne.2 hk]

theorem lookup_eq_some_of_mem {α : Type} {entries : List (String × α)} {key : String} {value : α}
    (hnodup : (entries.map Prod.fst).Nodup) (h : (key, value) ∈ entries) :
    entries.lookup key = some value := by
  induction entries with
  | nil => exact absurd h (by simp)
  | cons entry entries ih =>
      obtain ⟨k, v⟩ := entry
      obtain ⟨hnot, hnodup⟩ := List.nodup_cons.1 hnodup
      rw [List.lookup_cons]
      rcases List.mem_cons.1 h with heq | hmem
      · obtain ⟨rfl, rfl⟩ := Prod.mk.inj heq
        rw [beq_self_eq_true]
      · have hne : key ≠ k := fun heq => hnot (heq ▸ List.mem_map.2 ⟨_, hmem, rfl⟩)
        rw [beq_eq_false_iff_ne.2 hne]
        exact ih hnodup hmem

/-- The entries with the values of several keys set, one after the other. -/
def setEntries {α : Type} (value : String → α) (keys : List String) (entries : List (String × α)) :
    List (String × α) :=
  keys.foldl (fun entries key => setEntry key (value key) entries) entries

theorem lookup_setEntries {α : Type} (value : String → α) (keys : List String)
    (entries : List (String × α)) (k : String) :
    (setEntries value keys entries).lookup k =
      if k ∈ keys then some (value k) else entries.lookup k := by
  induction keys generalizing entries with
  | nil => rfl
  | cons key keys ih =>
      refine (ih _).trans ?_
      rw [lookup_setEntry]
      by_cases hk : k ∈ keys
      · rw [if_pos hk, if_pos (List.mem_cons_of_mem key hk)]
      · rw [if_neg hk]
        by_cases hkey : k = key
        · subst hkey
          rw [if_pos rfl, if_pos List.mem_cons_self]
        · rw [if_neg hkey, if_neg (by simp [hk, hkey])]

theorem setEntry_of_forall_ne {α : Type} {key : String} {value : α} {entries : List (String × α)}
    (h : ∀ entry ∈ entries, entry.1 ≠ key) : setEntry key value entries = entries ++ [(key, value)] := by
  induction entries with
  | nil => rfl
  | cons entry entries ih =>
      obtain ⟨hne, h⟩ := List.forall_mem_cons.1 h
      unfold setEntry
      rw [if_neg hne, ih h]
      rfl

/-- Different keys that have no entries yet get entries in their order. -/
theorem setEntries_of_nodup {α : Type} (value : String → α) {keys : List String}
    {entries : List (String × α)} (hkeys : keys.Nodup) (h : ∀ entry ∈ entries, entry.1 ∉ keys) :
    setEntries value keys entries = entries ++ keys.map fun key => (key, value key) := by
  induction keys generalizing entries with
  | nil => exact (List.append_nil _).symm
  | cons key keys ih =>
      obtain ⟨hnot, hkeys⟩ := List.nodup_cons.1 hkeys
      have hne : ∀ entry ∈ entries, entry.1 ≠ key := fun entry he heq =>
        h entry he (heq ▸ List.mem_cons_self)
      have hrest := @ih (entries ++ [(key, value key)]) hkeys fun entry he => by
        rcases List.mem_append.1 he with he | he
        · exact fun hmem => h entry he (List.mem_cons_of_mem key hmem)
        · obtain rfl := List.mem_singleton.1 he
          exact hnot
      unfold setEntries at hrest ⊢
      rw [List.foldl_cons, setEntry_of_forall_ne hne, hrest, List.append_assoc]
      rfl

namespace Table

variable {t : Table} {next : ℕ → Letter → ℕ}

theorem Reshaped.fst_neighbours_eq {t' : Table} (h : Reshaped t t') (i : ℕ) (x : Letter) :
    (t'.neighbours i x).1 = (t.neighbours i x).1 := by
  have hroot : t'.root = t.root := funext h.root_eq
  rw [fst_neighbours, fst_neighbours, hroot, h.row_eq]

/-! ### Recording columns -/

/-- For each live node the place of the node to which the generator leads. -/
def places (t : Table) (next : ℕ → Letter → ℕ) (g : String) : List ℕ :=
  t.ids.map fun i => t.ids.idxOf (next i ⟨g, false⟩)

theorem reshaped_column (t : Table) (order : List ℕ) (x : Letter) (is : List ℕ) :
    Reshaped t (t.column order x is).2 := by
  induction is generalizing t with
  | nil => exact .refl t
  | cons i is ih =>
      have hr := t.reshaped_neighbours i x
      unfold column
      rcases hnb : t.neighbours i x with ⟨targets, u⟩
      rw [hnb] at hr
      have hrest := ih u
      rcases hvalue : onlyValue targets with fault | j
      · simp only [hvalue]
        exact hr
      · rcases hcol : u.column order x is with ⟨fault | places, v⟩ <;> rw [hcol] at hrest <;>
          simp only [hvalue, hcol]
        · exact hr.trans hrest
        · exact hr.trans hrest

theorem column_eq (order : List ℕ) {is : List ℕ} {x : Letter}
    (h : ∀ i ∈ is, (t.neighbours i x).1 = [next i x]) :
    ∃ u, Reshaped t u ∧
      t.column order x is = (.ok (is.map fun i => order.idxOf (next i x)), u) := by
  induction is generalizing t with
  | nil => exact ⟨t, .refl t, rfl⟩
  | cons i is ih =>
      have hi := h i List.mem_cons_self
      have hr := t.reshaped_neighbours i x
      unfold column
      rcases hnb : t.neighbours i x with ⟨targets, u⟩
      rw [hnb] at hi hr
      obtain rfl : targets = [next i x] := hi
      obtain ⟨v, hv, heq⟩ := ih (t := u) fun j hj => by
        rw [hr.fst_neighbours_eq]
        exact h j (List.mem_cons_of_mem _ hj)
      refine ⟨v, hr.trans hv, ?_⟩
      simp only [onlyValue, heq, List.map_cons]

/-- All columns are recorded, and nothing else changes but the shape of the forest. -/
theorem recordColumns_eq {gens : List String}
    (h : ∀ g ∈ gens, ∀ i ∈ t.ids, (t.neighbours i ⟨g, false⟩).1 = [next i ⟨g, false⟩]) :
    ∃ f, f.SameRoots t.forest ∧ t.recordColumns gens =
      (.ok (), { t with
        forest := f
        columns := setEntries (fun g => (t.places next g).toArray) gens t.columns }) := by
  induction gens generalizing t with
  | nil => exact ⟨t.forest, .refl _, rfl⟩
  | cons g gens ih =>
      obtain ⟨u, hr, heq⟩ := column_eq t.ids (h g List.mem_cons_self)
      have hnb : ∀ i x, (u.neighbours i x).1 = (t.neighbours i x).1 := hr.fst_neighbours_eq
      obtain ⟨f, hf, rfl⟩ := hr
      unfold recordColumns
      rw [heq]
      obtain ⟨f', hf', heq'⟩ := @ih
        { t with forest := f, columns := setEntry g (t.places next g).toArray t.columns }
        fun g' hg' i hi => (hnb i _).trans (h g' (List.mem_cons_of_mem _ hg') i hi)
      exact ⟨f', hf'.trans hf, heq'⟩

/-- An open table is closed once its columns are recorded. -/
theorem close_eq (next : ℕ → Letter → ℕ) {gens : List String} (hopen : t.closed = false)
    (h : ∀ g ∈ gens, ∀ i ∈ t.ids, (t.neighbours i ⟨g, false⟩).1 = [next i ⟨g, false⟩]) :
    ∃ f columns, f.SameRoots t.forest ∧
      columns = setEntries (fun g => (t.places next g).toArray) gens t.columns ∧
      t.close gens = (.ok { t with forest := f, columns }.renumber.graph,
        { t with forest := f, columns }.renumber) := by
  obtain ⟨f, hf, heq⟩ := recordColumns_eq h
  refine ⟨f, _, hf, rfl, ?_⟩
  unfold close
  rw [if_neg (by rw [hopen]; exact Bool.false_ne_true), heq]

/-! ### Tables that can be closed -/

theorem onlyValue_eq_ok_iff {α : Type} {l : List α} {a : α} : onlyValue l = .ok a ↔ l = [a] := by
  rcases l with _ | ⟨b, _ | ⟨c, l⟩⟩ <;> simp [onlyValue]

theorem exists_neighbours_of_column {order is l : List ℕ} {x : Letter} {u : Table}
    (h : t.column order x is = (.ok l, u)) : ∀ i ∈ is, ∃ j, (t.neighbours i x).1 = [j] := by
  induction is generalizing t l u with
  | nil => exact fun i hi => absurd hi (by simp)
  | cons i is ih =>
      have hr := t.reshaped_neighbours i x
      unfold column at h
      rcases hnb : t.neighbours i x with ⟨targets, v⟩
      rw [hnb] at h hr
      rcases honly : onlyValue targets with fault | j <;> simp only [honly] at h
      · exact absurd (congrArg Prod.fst h) (by simp)
      · rcases hcol : v.column order x is with ⟨fault | l', w⟩ <;> simp only [hcol] at h
        · exact absurd (congrArg Prod.fst h) (by simp)
        · refine List.forall_mem_cons.2 ⟨⟨j, ?_⟩, fun k hk => ?_⟩
          · rw [hnb]
            exact onlyValue_eq_ok_iff.1 honly
          · obtain ⟨m, hm⟩ := ih hcol k hk
            rw [hr.fst_neighbours_eq] at hm
            exact ⟨m, hm⟩

theorem exists_neighbours_of_recordColumns {gens : List String} {u : Table}
    (h : t.recordColumns gens = (.ok (), u)) :
    ∀ g ∈ gens, ∀ i ∈ t.ids, ∃ j, (t.neighbours i ⟨g, false⟩).1 = [j] := by
  induction gens generalizing t with
  | nil => exact fun g hg => absurd hg (by simp)
  | cons g gens ih =>
      have hr := t.reshaped_column t.ids ⟨g, false⟩ t.ids
      unfold recordColumns at h
      rcases hcol : t.column t.ids ⟨g, false⟩ t.ids with ⟨fault | l, v⟩ <;> simp only [hcol] at h hr
      · exact absurd (congrArg Prod.fst h) (by simp)
      · refine List.forall_mem_cons.2 ⟨exists_neighbours_of_column hcol, fun g' hg' i hi => ?_⟩
        have hids : v.ids = t.ids := by rw [ids, hr.rows_eq, ids]
        obtain ⟨m, hm⟩ := ih h g' hg' i (hids.symm ▸ hi)
        exact ⟨m, (hr.fst_neighbours_eq i _).symm.trans hm⟩

/-- A table that is closed was open, and each generator led from every live node to one node. -/
theorem exists_next_of_close {gens : List String} {g : Graph} {c : Table}
    (h : t.close gens = (.ok g, c)) : t.closed = false ∧ ∃ next : ℕ → Letter → ℕ,
      ∀ g ∈ gens, ∀ i ∈ t.ids, (t.neighbours i ⟨g, false⟩).1 = [next i ⟨g, false⟩] := by
  unfold close at h
  cases hclosed : t.closed with
  | true => simp [hclosed] at h
  | false =>
      rcases hrec : t.recordColumns gens with ⟨fault | _, u⟩
      · simp [hclosed, hrec] at h
      · refine ⟨rfl, fun i x => (t.neighbours i x).1.headD i, fun g hg i hi => ?_⟩
        obtain ⟨j, hj⟩ := exists_neighbours_of_recordColumns hrec g hg i hi
        simp [hj]

/-- What a closed table has of the table that was closed: all but the columns, renumbered. -/
theorem exists_renumber_of_close {gens : List String} {g : Graph} {c : Table}
    (h : t.close gens = (.ok g, c)) :
    ∃ f columns, f.SameRoots t.forest ∧ c = { t with forest := f, columns }.renumber := by
  obtain ⟨hopen, next, hnext⟩ := exists_next_of_close h
  obtain ⟨f, columns, hf, -, heq⟩ := close_eq next hopen hnext
  exact ⟨f, columns, hf, congrArg Prod.snd (h.symm.trans heq)⟩

theorem closed_of_close {gens : List String} {g : Graph} {c : Table} (h : t.close gens = (.ok g, c)) :
    c.closed = true := by
  obtain ⟨f, columns, -, rfl⟩ := exists_renumber_of_close h
  rfl

/-! ### Numbers without gaps -/

theorem bareRows_eq (t : Table) : t.bareRows = t.ids.map fun i =>
    { label := (t.row i).label, complete := (t.row i).complete } := by
  rw [bareRows, Register.values, t.rows.toList_eq { label := [] }, List.map_map, List.map_map]
  rfl

theorem length_bareRows (t : Table) : t.bareRows.length = t.live := by
  rw [bareRows_eq, List.length_map, length_ids]

theorem map_fst_zipIdx_bareRows (t : Table) :
    (t.bareRows.zipIdx.map fun entry => (entry.2, entry.1)).map Prod.fst = List.range t.live := by
  rw [List.map_map, ← t.length_bareRows, List.range_eq_range', ← List.zipIdx_map_snd]
  rfl

theorem ids_renumber (t : Table) : t.renumber.ids = List.range t.live := by
  rw [← t.map_fst_zipIdx_bareRows]
  exact Register.keys_ofList (t.map_fst_zipIdx_bareRows ▸ List.nodup_range)

/-- The nodes of the closed table are numbered in order. -/
theorem nodes_renumber (t : Table) :
    t.renumber.nodes.length = t.live ∧
      ∀ k < t.live, ∃ n, t.renumber.nodes[k]? = some n ∧ n.id = k := by
  have hroot : ∀ k, t.renumber.root k = k := Forest.root_discrete _
  unfold nodes
  rw [ids_renumber]
  refine ⟨by simp, fun k hk => ⟨t.renumber.node k, by simp [hk], ?_⟩⟩
  exact hroot k

/-! ### Places of nodes -/

theorem WellFormed.idxOf_zero_ids (h : t.WellFormed) : t.ids.idxOf 0 = 0 := by
  have hmem := contains_iff_mem_ids.1 h.contains_zero
  have hsorted := h.sorted_ids
  cases hids : t.ids with
  | nil => rw [hids] at hmem; exact absurd hmem (by simp)
  | cons i is =>
      rw [hids] at hmem hsorted
      rcases List.mem_cons.1 hmem with rfl | hmem
      · exact List.idxOf_cons_self
      · exact absurd ((List.pairwise_cons.1 hsorted).1 0 hmem) (Nat.not_lt_zero i)

theorem exists_idxOf_eq {k : ℕ} (hk : k < t.live) : ∃ i, t.contains i ∧ t.ids.idxOf i = k := by
  rw [← length_ids] at hk
  exact ⟨t.ids[k], contains_iff_mem_ids.2 (List.getElem_mem hk), t.nodup_ids.idxOf_getElem k hk⟩

theorem idxOf_lt_live {i : ℕ} (hi : t.contains i) : t.ids.idxOf i < t.live :=
  t.length_ids ▸ List.idxOf_lt_length_of_mem (contains_iff_mem_ids.1 hi)

theorem idxOf_inj {i j : ℕ} (hi : t.contains i) : t.ids.idxOf i = t.ids.idxOf j ↔ i = j :=
  List.idxOf_inj (contains_iff_mem_ids.1 hi)

/-- Smaller nodes have smaller places. -/
theorem WellFormed.idxOf_lt_idxOf (h : t.WellFormed) {i j : ℕ} (hi : t.contains i)
    (hj : t.contains j) :
    t.ids.idxOf i < t.ids.idxOf j ↔ i < j := by
  have hi' := List.idxOf_lt_length_of_mem (contains_iff_mem_ids.1 hi)
  have hj' := List.idxOf_lt_length_of_mem (contains_iff_mem_ids.1 hj)
  have hmono := List.pairwise_iff_getElem.1 h.sorted_ids
  have hlt : ∀ {a b : ℕ} (ha : t.ids.idxOf a < t.ids.length) (hb : t.ids.idxOf b < t.ids.length),
      t.ids.idxOf a < t.ids.idxOf b → a < b := fun ha hb hab => by
    simpa only [List.getElem_idxOf] using hmono _ _ ha hb hab
  refine ⟨hlt hi' hj', fun hij => ?_⟩
  rcases Nat.lt_trichotomy (t.ids.idxOf i) (t.ids.idxOf j) with hplace | hplace | hplace
  · exact hplace
  · exact absurd ((List.idxOf_inj (contains_iff_mem_ids.1 hi)).1 hplace) hij.ne
  · exact absurd (hlt hj' hi' hplace) (by omega)

/-! ### Acting on places -/

section act

variable {c : Table} {order : List ℕ} {i j : ℕ} {x : Letter}

theorem findIdx?_places {f : ℕ → ℕ} (hnodup : order.Nodup) (hi : i ∈ order) (hj : j ∈ order)
    (hiff : ∀ k ∈ order, f k = i ↔ j = k) :
    (order.map fun k => order.idxOf (f k)).toArray.findIdx?
      (fun k : ℕ => (k : Int) = order.idxOf i) = some (order.idxOf j) := by
  have hlt := List.idxOf_lt_length_of_mem hj
  have hplace : ∀ (q : ℕ) (hq : q < order.length),
      order.idxOf (f order[q]) = order.idxOf i ↔ q = order.idxOf j := by
    intro q hq
    rw [eq_comm, List.idxOf_inj hi, eq_comm]
    refine (hiff _ (List.getElem_mem hq)).trans ⟨fun heq => ?_, fun heq => ?_⟩
    · rw [heq, hnodup.idxOf_getElem q hq]
    · subst heq
      exact (List.getElem_idxOf hlt).symm
  rw [List.findIdx?_toArray, List.findIdx?_map, List.findIdx?_eq_some_iff_getElem]
  refine ⟨hlt, ?_, fun q hq => ?_⟩
  · simpa using (hplace _ hlt).2 rfl
  · simpa using mt (hplace q (hq.trans hlt)).1 (Nat.ne_of_lt hq)

theorem act_eq_getElem (hclosed : c.closed = true) {g : String} {images : Array ℕ}
    (hcolumn : c.columns.lookup g = some images) {k : ℕ} (hk : k < images.size) :
    c.act k ⟨g, false⟩ = .ok images[k] := by
  simp only [act, hclosed, hcolumn]
  simp [Position.locate_eq_ok_iff.2 (Position.resolve?_natCast hk), hk, bind, Except.bind, pure,
    Except.pure]

/-- Letters act on the places of nodes as they lead from node to node. -/
theorem act_eq (hclosed : c.closed = true)
    (hcolumn : c.columns.lookup x.gen =
      some (order.map fun i => order.idxOf (next i ⟨x.gen, false⟩)).toArray)
    (hnodup : order.Nodup) (hi : i ∈ order) (hnext : next i x ∈ order)
    (hiff : ∀ j ∈ order, next j x.inverse = i ↔ next i x = j) :
    c.act (order.idxOf i) x = .ok (order.idxOf (next i x)) := by
  obtain ⟨g, inverted⟩ := x
  cases inverted with
  | false =>
      have hlt := List.idxOf_lt_length_of_mem hi
      rw [act_eq_getElem hclosed hcolumn (by simpa using hlt)]
      simp
  | true =>
      have hfind := findIdx?_places (f := (next · ⟨g, false⟩)) hnodup hi hnext hiff
      simp only [act, hclosed, hcolumn, if_true]
      rw [hfind]
      rfl

end act

end Table

end ToddCoxeter
