import ToddCoxeter.Proofs.Table.Classes

/-! # The least congruence

An equivalence relation of nodes is a congruence for some generators (`Table.Congruence`) if edges with the
same such label have related targets whenever they have related sources, and the other way round.  To
identify coincident nodes until there are none yields the least congruence that contains the classes before
(`Table.WellFormed.isLeast_classes`): letters lead to one node at most in the end, and what is identified
on the way is related by every congruence (`Table.Congruence.of_coincident`).  A least relation is unique,
so that nothing depends on the order in which coincidences are met. -/

namespace ToddCoxeter.Table

/-- The equivalence relation contains the classes of the table, and edges with the same label, one of
`gens`, have related targets if and only if they have related sources. -/
structure Congruence (gens : List String) (t : Table) (E : Setoid ℕ) : Prop where
  classes_le : t.classes ≤ E
  target : ∀ e ∈ t.edges, ∀ f ∈ t.edges, e.label = f.label → e.label ∈ gens →
    E e.source f.source → E e.target f.target
  source : ∀ e ∈ t.edges, ∀ f ∈ t.edges, e.label = f.label → e.label ∈ gens →
    E e.target f.target → E e.source f.source

variable {gens gens' : List String} {t u : Table} {E : Setoid ℕ}

namespace Congruence

theorem of_subset (h : t.Congruence gens E) (hsub : gens' ⊆ gens) : t.Congruence gens' E :=
  ⟨h.classes_le, fun e he f hf hl hg => h.target e he f hf hl (hsub hg),
    fun e he f hf hl hg => h.source e he f hf hl (hsub hg)⟩

theorem head (h : t.Congruence gens E) {e f : Edge ℕ} (he : e ∈ t.edges) (hf : f ∈ t.edges) {x : Letter}
    (hx : x.gen ∈ gens) (hle : e.label = x.gen) (hlf : f.label = x.gen) (htail : E (e.tail x) (f.tail x)) :
    E (e.head x) (f.head x) := by
  have hl : e.label = f.label := hle.trans hlf.symm
  obtain ⟨g, inverted⟩ := x
  cases inverted with
  | false => exact h.target e he f hf hl (hle ▸ hx) htail
  | true => exact h.source e he f hf hl (hle ▸ hx) htail

/-- A congruence relates coincident nodes, also those of a table in which related nodes have been made
one. -/
theorem of_coincident (h : t.Congruence gens E) (hedges : u.edges = t.edges) (hle : u.classes ≤ E)
    {a b : ℕ} (hab : Coincident gens u a b) : E a b := by
  obtain ⟨i, x, hx, ⟨e, he, hle', hei, hea⟩, ⟨f, hf, hlf, hfi, hfb⟩⟩ := hab
  rw [hedges] at he hf
  have htail : E (e.tail x) (f.tail x) := hle (hei.trans hfi.symm)
  have hae : E a (e.head x) := hle hea.symm
  have hfb : E (f.head x) b := hle hfb
  exact E.trans (E.trans hae (h.head he hf hx hle' hlf htail)) hfb

end Congruence

/-- What is identified for a coincidence is related by every congruence. -/
theorem WellFormed.classes_le_of_congruence (h : t.WellFormed)
    (hm : Moves (fun _ => False) (Coincident gens) t u) (hE : t.Congruence gens E) : u.classes ≤ E := by
  induction hm with
  | refl => exact hE.classes_le
  | @tail u v hu hm ih =>
      have hwf := h.moves hu
      cases hm with
      | reshape hr => exact (classes_eq_of_root_eq hr.root_eq).trans_le ih
      | attach hx => exact hx.elim
      | absorb ha hb hab hJ =>
          rw [hwf.classes_absorb ha hb hab]
          refine sup_le ih (joined_le_iff.2 fun p hp => ?_)
          obtain rfl := List.mem_singleton.1 hp
          exact hE.of_coincident (Moves.size_and_edges_eq hu).2 ih hJ

/-- Where letters lead to one node at most, the classes are a congruence for the same edges. -/
theorem SingleValued.congruence (h : SingleValued gens u) (hedges : u.edges = t.edges)
    (hg : Grows t u) : t.Congruence gens u.classes := by
  have hhead : ∀ e ∈ t.edges, ∀ f ∈ t.edges, e.label = f.label → ∀ x : Letter, x.gen = e.label →
      x.gen ∈ gens → u.root (e.tail x) = u.root (f.tail x) → u.root (e.head x) = u.root (f.head x) := by
    intro e he f hf hl x hxe hx htail
    rw [← hedges] at he hf
    exact h _ x hx _ _ ⟨e, he, hxe.symm, htail, rfl⟩ ⟨f, hf, hl.symm.trans hxe.symm, rfl, rfl⟩
  refine ⟨classes_le_iff.2 fun i => (hg.root_root i).symm, fun e he f hf hl hx => ?_,
    fun e he f hf hl hx => ?_⟩
  · exact hhead e he f hf hl ⟨e.label, false⟩ rfl hx
  · exact hhead e he f hf hl ⟨e.label, true⟩ rfl hx

/-- Coincident nodes that are identified until there are none leave the least congruence. -/
theorem WellFormed.isLeast_classes (h : t.WellFormed)
    (hm : Moves (fun _ => False) (Coincident gens) t u) (hs : SingleValued gens u) :
    IsLeast {E | t.Congruence gens E} u.classes :=
  ⟨hs.congruence (Moves.size_and_edges_eq hm).2 (h.grows_moves hm),
    fun _ hE => h.classes_le_of_congruence hm hE⟩

/-- After any calls on a new table, the loop over the passes ends.  It makes neither nodes nor edges, and
two nodes are represented by the same node in the end if and only if the least congruence relates them.
Neither the order and repetition of the generators nor the order in which coincident nodes are identified
is of any consequence for the live nodes and for what represents a node. -/
theorem Reachable.collapse_isLeast (h : t.Reachable) (gens : List String) :
    (∃ n, Loop.steps (pass gens) n t = .inr (t.collapse gens)) ∧
      (t.collapse gens).forest.size = t.forest.size ∧ (t.collapse gens).edges = t.edges ∧
      IsLeast {E | t.Congruence gens E} (t.collapse gens).classes ∧
      (∀ gens', (∀ g, g ∈ gens' ↔ g ∈ gens) → (t.collapse gens').ids = (t.collapse gens).ids ∧
        ∀ i, ((t.collapse gens').find i).1 = ((t.collapse gens).find i).1) ∧
      ∀ u, Moves (fun _ => False) (Coincident gens) t u → SingleValued gens u →
        u.ids = (t.collapse gens).ids ∧ ∀ i, (u.find i).1 = ((t.collapse gens).find i).1 := by
  have hwf := h.wellFormed
  obtain ⟨hm, hs⟩ := hwf.collapse_spec gens
  have hleast := hwf.isLeast_classes hm hs
  obtain ⟨hsize, hedges⟩ := Moves.size_and_edges_eq hm
  -- Whatever else is least leaves the same nodes alive.
  have hsame : ∀ {J v}, Moves (fun _ => False) J t v → IsLeast {E | t.Congruence gens E} v.classes →
      v.ids = (t.collapse gens).ids ∧ ∀ i, (v.find i).1 = ((t.collapse gens).find i).1 := by
    intro J v hv hvleast
    have heq := hvleast.unique hleast
    have hvsize := (Moves.size_and_edges_eq hv).1
    exact ⟨(hwf.moves hm).ids_eq_of_classes_eq (hwf.moves hv) (hvsize.trans hsize.symm) heq,
      root_eq_of_classes_eq heq⟩
  refine ⟨(hwf.exists_steps_pass_eq gens).imp fun _ hn => hn.2, hsize, hedges, hleast, fun gens' hgens => ?_,
    fun u hu hus => hsame hu (hwf.isLeast_classes hu hus)⟩
  obtain ⟨hm', hs'⟩ := hwf.collapse_spec gens'
  have hset : {E | t.Congruence gens' E} = {E | t.Congruence gens E} := by
    ext E
    exact ⟨fun hE => hE.of_subset fun g => (hgens g).2, fun hE => hE.of_subset fun g => (hgens g).1⟩
  exact hsame hm' (hset ▸ hwf.isLeast_classes hm' hs')

theorem collapse_isLeast_crowded :
    ∃ t, (start 4).history crowded = some t ∧ (t.collapse ["a"]).ids = [0, 1, 4] ∧
      IsLeast {E | t.Congruence ["a"] E} (t.collapse ["a"]).classes := by
  have hids : ((start 4).history crowded).map (fun t => (t.collapse ["a"]).ids) = some [0, 1, 4] := by
    cbv
  obtain ⟨t, ht, hids⟩ := Option.map_eq_some_iff.1 hids
  have h : t.Reachable := ⟨4, start 4, crowded, rfl, ht⟩
  exact ⟨t, ht, hids, (Reachable.collapse_isLeast h ["a"]).2.2.2.1⟩

end ToddCoxeter.Table
