import ToddCoxeter.Proofs.Table.Conservation
import ToddCoxeter.Proofs.Table.Refusal

/-! # Columns of closed tables

Columns are recorded before it is known whether the table can be closed, and nothing removes them.  So a closed table
has the columns of the generators it was closed with, which are right for its nodes, and those that were left by
attempts to close it in vain and were not recorded anew (`Table.Leftover`, `Table.leftover_of_history`).  Such a column
is right for the nodes that were alive at the time of the attempt; it is right for the nodes of the closed table only
if these are as many (`Table.Leftover.columnFor_iff`).  If all attempts asked for generators with which the table is
closed in the end, then no column is left over, and letters act on the nodes (`Table.columns_fit_of_close`). -/

namespace ToddCoxeter.Table

variable {t₀ t u c : Table} {cs : List Call} {gens : List String} {g : Graph} {a : String}
  {column : Array ℕ}

/-- The column has an entry for each of `n` nodes that are numbered without gaps, and its entries are such nodes. -/
def ColumnFor (n : ℕ) (column : Array ℕ) : Prop := column.size = n ∧ ∀ k ∈ column, k < n

/-- All columns are columns for the live nodes. -/
def ActsOnNodes (c : Table) : Prop :=
  ∀ a column, c.columns.lookup a = some column → ColumnFor c.live column

theorem WellFormed.columnFor_places (h : t.WellFormed) {next : ℕ → Letter → ℕ}
    (hnext : ∀ i, t.contains i → (t.neighbours i ⟨a, false⟩).1 = [next i ⟨a, false⟩]) :
    ColumnFor t.live (t.places next a).toArray := by
  refine ⟨by simp [places, length_ids], fun k hk => ?_⟩
  obtain ⟨i, hi, rfl⟩ := List.mem_map.1 (List.mem_toArray.1 hk)
  have hlive := contains_iff_mem_ids.2 hi
  have hleads := (h.leads_iff_of_neighbours_eq hlive (hnext i hlive)).2 rfl
  exact idxOf_lt_live (h.contains_of_leads hleads).2

/-! ### Columns that were left -/

/-- One of the calls was made to close the table `u` in vain, and left this column of the generator. -/
structure Leftover (t₀ : Table) (cs : List Call) (a : String) (u : Table) (column : Array ℕ) : Prop where
  exists_call : ∃ ds gens es, cs = ds ++ .close gens :: es ∧ t₀.history ds = some u ∧ a ∈ gens
  column_eq : column = (u.places u.target a).toArray
  columnFor : ColumnFor u.live column

namespace Leftover

theorem concat (h : Leftover t₀ cs a u column) (call : Call) : Leftover t₀ (cs ++ [call]) a u column := by
  obtain ⟨⟨ds, gens, es, rfl, hds, ha⟩, heq, hcolumn⟩ := h
  exact ⟨⟨ds, gens, es ++ [call], by rw [List.append_assoc, List.cons_append], hds, ha⟩, heq, hcolumn⟩

/-- The column is one for `n` nodes only if that many were alive at the time. -/
theorem columnFor_iff (h : Leftover t₀ cs a u column) {n : ℕ} : ColumnFor n column ↔ u.live = n :=
  ⟨fun hn => h.columnFor.1.symm.trans hn.1, fun hn => hn ▸ h.columnFor⟩

end Leftover

theorem WellFormed.columns_perform (h : t.WellFormed) {call : Call} (hcall : ∀ gens, call ≠ .close gens) :
    (t.perform call).columns = t.columns := by
  rcases h.perform_cases call with ⟨-, u, label, hm, heq⟩ | ⟨-, hm | ⟨k, heq⟩ | ⟨gens, heq⟩⟩
  · rw [heq]
    exact hm.frame.2.2
  · exact hm.frame.2.2
  · rw [heq]
    rfl
  · exact absurd heq (hcall gens)

/-- Whatever calls are made on a new table, its columns are left over from attempts to close it. -/
theorem leftover_of_history {cap : Int} (h₀ : withCap cap = .ok t₀) (hcs : t₀.history cs = some t)
    (ha : t.columns.lookup a = some column) : ∃ u, Leftover t₀ cs a u column := by
  induction cs using List.reverseRecOn generalizing t with
  | nil =>
      obtain ⟨rfl, -⟩ := withCap_eq_ok h₀
      obtain rfl := Option.some.inj hcs
      exact absurd ha (by simp [start])
  | append_singleton cs call ih =>
      rw [history_append] at hcs
      obtain ⟨v, hv, hcs⟩ := Option.bind_eq_some_iff.1 hcs
      obtain ⟨hopen, hcs⟩ := history_cons_eq_some.1 hcs
      obtain rfl : v.perform call = t := Option.some.inj hcs
      have hreachable : v.Reachable := ⟨cap, t₀, cs, h₀, hv⟩
      have hold : v.columns.lookup a = some column → ∃ u, Leftover t₀ (cs ++ [call]) a u column := fun ha =>
        (ih hv ha).imp fun _ hu => hu.concat call
      by_cases hcall : ∀ gens, call ≠ .close gens
      · rw [hreachable.wellFormed.columns_perform hcall] at ha
        exact hold ha
      · obtain ⟨gens, rfl⟩ : ∃ gens, call = .close gens := by simpa using hcall
        rw [perform] at hopen ha
        rcases hclose : v.close gens with ⟨fault | g, w⟩ <;> rw [hclose] at hopen ha
        · obtain ⟨done, f, hstops, -, rfl⟩ := close_error hreachable.closed_eq hclose
          rw [lookup_setEntries] at ha
          split_ifs at ha with hdone
          · obtain rfl := Option.some.inj ha
            obtain ⟨b, rest, rfl, -⟩ := hstops.exists_fault
            exact ⟨v, ⟨cs, _, [], rfl, hv, List.mem_append_left _ hdone⟩, rfl,
              hreachable.wellFormed.columnFor_places (hstops.of_done a hdone)⟩
          · exact hold ha
        · exact absurd (closed_of_close hclose) (by rw [hopen]; exact Bool.false_ne_true)

/-! ### Columns of a closed table -/

/-- A closed table has as many nodes as were alive, numbered without gaps, new columns of the generators it was closed
with, and the other columns as they were. -/
theorem exists_places_of_close (hclose : t.close gens = (.ok g, c)) :
    c.live = t.live ∧ c.live = g.nodes.length ∧ (∀ k, c.contains k ↔ k < c.live) ∧ ∃ next : ℕ → Letter → ℕ,
      (∀ a ∈ gens, ∀ i ∈ t.ids, (t.neighbours i ⟨a, false⟩).1 = [next i ⟨a, false⟩]) ∧
      ∀ a, c.columns.lookup a = if a ∈ gens then some (t.places next a).toArray else t.columns.lookup a := by
  obtain ⟨hopen, next, hnext⟩ := exists_next_of_close hclose
  obtain ⟨f, columns, -, hcolumns, heq⟩ := close_eq next hopen hnext
  obtain ⟨rfl, rfl⟩ : _ = g ∧ _ = c := by simpa using heq.symm.trans hclose
  have hids := ids_renumber { t with forest := f, columns }
  refine ⟨?_, ?_, fun k => ?_, next, hnext, fun a => ?_⟩
  · rw [← length_ids, hids, List.length_range]
    rfl
  · rw [graph, nodes, List.length_map, length_ids]
  · rw [contains_iff_mem_ids, ← length_ids, hids, List.length_range, List.mem_range]
  · rw [← lookup_setEntries (fun a => (t.places next a).toArray), ← hcolumns]
    rfl

theorem exists_act_of_columnFor (hclosed : c.closed = true) (ha : c.columns.lookup a = some column)
    (hcolumn : ColumnFor c.live column) {k : ℕ} (hk : k < c.live) :
    ∃ j, c.act k ⟨a, false⟩ = .ok j ∧ j < c.live := by
  have hlt : k < column.size := hcolumn.1.symm ▸ hk
  exact ⟨column[k], act_eq_getElem hclosed ha hlt, hcolumn.2 _ (Array.getElem_mem hlt)⟩

theorem not_isOk_act_of_size_le (hclosed : c.closed = true) (ha : c.columns.lookup a = some column) {k : ℕ}
    (hk : column.size ≤ k) : ¬ (c.act k ⟨a, false⟩).isOk := by
  have hnone : Position.resolve? column.size k = none := by simp [Position.resolve?, hk]
  simp [act, hclosed, ha, Position.locate, hnone, bind, Except.bind, Except.isOk, Except.toBool]

theorem act_of_lookup_eq_none (hclosed : c.closed = true) (ha : c.columns.lookup a = none) (i : Int) (b : Bool) :
    c.act i ⟨a, b⟩ = .error (.unknownGenerator a) := by
  simp [act, hclosed, ha, throw, throwThe, MonadExceptOf.throw]

/-- When a table is closed after any calls on a new table, the generators that were asked for have columns for its
nodes.  Other columns are left over from earlier attempts, and such a column fits if and only if as many nodes were
alive at the attempt as there are now; if there were fewer, then the generator fails at the nodes behind these.  So a
generator that is asked for, or was not asked for in any attempt before, is unknown or leads from each node to a node,
and all columns fit if each generator of an attempt is asked for again. -/
theorem columns_fit_of_close {cap : Int} (h₀ : withCap cap = .ok t₀) (hcs : t₀.history cs = some t)
    (hclose : t.close gens = (.ok g, c)) :
    c.live = g.nodes.length ∧
      (∀ a ∈ gens, ∃ column, c.columns.lookup a = some column ∧ ColumnFor c.live column) ∧
      (∀ a column, a ∉ gens → c.columns.lookup a = some column → ∃ u, Leftover t₀ cs a u column ∧
        (ColumnFor c.live column ↔ u.live = c.live) ∧
        ∀ k : ℕ, u.live ≤ k → ¬ (c.act k ⟨a, false⟩).isOk) ∧
      (∀ a, (a ∈ gens ∨ ∀ gens', .close gens' ∈ cs → a ∉ gens') →
        ∀ k < c.live, c.act k ⟨a, false⟩ = .error (.unknownGenerator a) ∨
          ∃ j, c.act k ⟨a, false⟩ = .ok j ∧ c.contains j) ∧
      ((∀ gens', .close gens' ∈ cs → gens' ⊆ gens) → c.ActsOnNodes) := by
  have hwf := Reachable.wellFormed ⟨cap, t₀, cs, h₀, hcs⟩
  have hclosed := closed_of_close hclose
  obtain ⟨hlive, hnodes, hcontains, next, hnext, hlookup⟩ := exists_places_of_close hclose
  have hgens : ∀ a ∈ gens, ∃ column, c.columns.lookup a = some column ∧ ColumnFor c.live column := by
    intro a ha
    refine ⟨_, (hlookup a).trans (if_pos ha), ?_⟩
    rw [hlive]
    exact hwf.columnFor_places fun i hi => hnext a ha i (contains_iff_mem_ids.1 hi)
  have hleft : ∀ a column, a ∉ gens → c.columns.lookup a = some column → ∃ u, Leftover t₀ cs a u column := by
    intro a column ha hcolumn
    rw [hlookup, if_neg ha] at hcolumn
    exact leftover_of_history h₀ hcs hcolumn
  -- A generator has a fitting column or none, unless an attempt asked for it in vain and it is not asked for now.
  have hfits : ∀ a, (a ∈ gens ∨ ∀ gens', .close gens' ∈ cs → a ∉ gens') →
      ∀ column, c.columns.lookup a = some column → ColumnFor c.live column := by
    intro a ha column hcolumn
    by_cases hmem : a ∈ gens
    · obtain ⟨column', hcolumn', hfor⟩ := hgens a hmem
      exact Option.some.inj (hcolumn'.symm.trans hcolumn) ▸ hfor
    · obtain ⟨u, ⟨ds, gens', es, rfl, -, hasked⟩, -⟩ := hleft a column hmem hcolumn
      exact absurd hasked (ha.resolve_left hmem gens' (by simp))
  refine ⟨hnodes, hgens, fun a column ha hcolumn => ?_, fun a ha k hk => ?_, fun hsub a column hcolumn => ?_⟩
  · obtain ⟨u, hu⟩ := hleft a column ha hcolumn
    exact ⟨u, hu, hu.columnFor_iff, fun k hk =>
      not_isOk_act_of_size_le hclosed hcolumn (hu.columnFor.1.trans_le hk)⟩
  · cases hcolumn : c.columns.lookup a with
    | none => exact .inl (act_of_lookup_eq_none hclosed hcolumn k false)
    | some column =>
        obtain ⟨j, hact, hj⟩ := exists_act_of_columnFor hclosed hcolumn (hfits a ha column hcolumn) hk
        exact .inr ⟨j, hact, (hcontains j).2 hj⟩
  · refine hfits a ?_ column hcolumn
    by_cases hmem : a ∈ gens
    · exact .inl hmem
    · exact .inr fun gens' hcall ha => hmem (hsub gens' hcall ha)

/-- After an attempt with the generators `a` and `b` while there is one node, the table is closed with `b` alone when it
has two nodes. -/
theorem exists_close_regrown :
    ∃ t g c, (start 8).history (looped ++ .close ["a", "b"] :: regrown) = some t ∧
      t.close ["b"] = (.ok g, c) ∧ c.live = 2 ∧ c.columns.lookup "a" = some #[0] ∧ c.contains 1 ∧
      c.act 1 ⟨"a", false⟩ = .error .indexOutOfRange := by
  have hclose : ((start 8).history (looped ++ .close ["a", "b"] :: regrown)).map (fun t =>
      ((t.close ["b"]).1.isOk, (t.close ["b"]).2.live, (t.close ["b"]).2.columns.lookup "a",
        (t.close ["b"]).2.contains 1, (t.close ["b"]).2.act 1 ⟨"a", false⟩)) =
        some (true, 2, some #[0], true, .error .indexOutOfRange) := by cbv
  obtain ⟨t, ht, heq⟩ := Option.map_eq_some_iff.1 hclose
  simp only [Prod.mk.injEq] at heq
  obtain ⟨hok, hlive, hlookup, hcontains, hact⟩ := heq
  rcases hc : t.close ["b"] with ⟨fault | g, c⟩ <;> rw [hc] at hok hlive hlookup hcontains hact
  · exact absurd hok (by simp [Except.isOk, Except.toBool])
  · exact ⟨t, g, c, ht, hc, hlive, hlookup, hcontains, hact⟩

/-- The letter `b` has a column for both nodes, and that of `a` is left over. -/
theorem columns_fit_of_close_regrown :
    ∃ t g c u, (start 8).history (looped ++ .close ["a", "b"] :: regrown) = some t ∧
      t.close ["b"] = (.ok g, c) ∧ c.live = 2 ∧
      (∃ column, c.columns.lookup "b" = some column ∧ ColumnFor 2 column) ∧
      Leftover (start 8) (looped ++ .close ["a", "b"] :: regrown) "a" u #[0] := by
  obtain ⟨t, g, c, ht, hc, hlive, hlookup, -⟩ := exists_close_regrown
  obtain ⟨-, hgens, hleft, -⟩ := columns_fit_of_close (show withCap 8 = .ok (start 8) from rfl) ht hc
  obtain ⟨u, hu, -⟩ := hleft "a" #[0] (by decide) hlookup
  exact ⟨t, g, c, u, ht, hc, hlive, hlive ▸ hgens "b" (by decide), hu⟩

/-- So not all columns of the closed table are columns for its nodes, and the letter `a` fails at the second node. -/
theorem not_actsOnNodes_regrown :
    ∃ t g c, (start 8).history (looped ++ .close ["a", "b"] :: regrown) = some t ∧
      t.close ["b"] = (.ok g, c) ∧ ¬ c.ActsOnNodes ∧ c.contains 1 ∧
      c.act 1 ⟨"a", false⟩ = .error .indexOutOfRange := by
  obtain ⟨t, g, c, ht, hc, hlive, hlookup, hcontains, hact⟩ := exists_close_regrown
  refine ⟨t, g, c, ht, hc, fun hno => ?_, hcontains, hact⟩
  have hsize := (hno "a" _ hlookup).1
  rw [hlive] at hsize
  exact absurd hsize (by decide)

end ToddCoxeter.Table
