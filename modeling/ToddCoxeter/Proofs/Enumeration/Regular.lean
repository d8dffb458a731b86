import ToddCoxeter.Proofs.Enumeration.Correctness
import ToddCoxeter.Proofs.Permutation.Generated

/-! # The regular permutation representation

Once a run has finished, each column of the closed table is a permutation of the nodes.  Words act on the
nodes in such a way that relators fix every node, that every node can be reached from the first one, and that
a word which fixes one node fixes them all (`Table.Regular`).  Therefore the permutations that the generators
generate are determined by where they take the first node, and each node is one to which it is taken
(`Table.Regular.bijective_apply_zero`): there are as many as nodes, and they commute if and only if the words
of two generators lead from the first node to the same one (`Table.Regular.closure_comm_iff_actWord`).

`Enumeration.run_regular` states this of what a run leaves behind.  The number of elements and the commutation of
generators that are computed for the group are those of the subgroup (`Enumeration.order_of_group`). -/

namespace ToddCoxeter

namespace Table

variable {p : Presentation} {t c : Table} {n : ℕ}

/-- The closed table has the regular representation of a group on the nodes `0` to `n - 1`. -/
structure Regular (p : Presentation) (c : Table) (n : ℕ) : Prop where
  /-- There is a first node. -/
  pos : 0 < n
  /-- The generators have one column each. -/
  keys_eq : c.columns.map Prod.fst = p.generators
  /-- Each node stands once in a column. -/
  column_perm : ∀ column ∈ c.columns, column.2.toList.Perm (List.range n)
  /-- A generator acts as its column says. -/
  act_eq : ∀ column ∈ c.columns, ∀ (i : ℕ) (hi : i < column.2.size),
    c.act i ⟨column.1, false⟩ = .ok column.2[i]
  /-- A letter leads from each node to a node, from which its inverse leads back. -/
  act_inverse : ∀ x : Letter, x.gen ∈ p.generators → ∀ i < n, ∃ j < n,
    c.act i x = .ok j ∧ c.act j x.inverse = .ok i
  /-- A relator leads from each node back to it. -/
  relator : ∀ r ∈ p.relators, ∀ i < n, c.actWord i r = .ok i
  /-- Every node can be reached from the first one. -/
  reach : ∀ i < n, ∃ w, p.Allows w ∧ c.actWord 0 w = .ok i
  /-- A word that fixes one node fixes all nodes. -/
  free : ∀ w, p.Allows w → ∀ i < n, c.actWord i w = .ok i → ∀ j < n, c.actWord j w = .ok j

/-! ### The closed table of a finished one -/

section regular

variable (h : Settled p t) (hnone : t.pending? = none) (hp : p.Valid) (hc : t.ClosedBy p c)
include h hnone hc

theorem Settled.exists_act_eq {x : Letter} (hx : x.gen ∈ p.generators) {k : ℕ} (hk : k < t.live) :
    ∃ m < t.live, c.act k x = .ok m ∧ c.act m x.inverse = .ok k := by
  obtain ⟨i, hi, rfl⟩ := exists_idxOf_eq hk
  obtain ⟨j, hj⟩ := (h.covers hnone).total i hi x hx
  have hlive := (h.wellFormed.contains_of_leads hj).2
  exact ⟨_, idxOf_lt_live hlive, hc.act_eq i x j hi hx hj, hc.act_eq j x.inverse i hlive hx hj.inverse⟩

theorem Settled.column_perm {g : String} (hg : g ∈ p.generators) {images : Array ℕ}
    (hsize : images.size = t.live)
    (hact : ∀ (k : ℕ) (hk : k < images.size), c.act k ⟨g, false⟩ = .ok images[k]) :
    images.toList.Perm (List.range t.live) := by
  have hspec : ∀ k : Fin images.toList.length, images.toList.get k < t.live ∧
      c.act (images.toList.get k) ⟨g, true⟩ = .ok (k : ℕ) := by
    intro k
    have hk : (k : ℕ) < images.size := k.2
    obtain ⟨m, hm, hkm, hmk⟩ := h.exists_act_eq hnone hc (x := ⟨g, false⟩) hg (hsize ▸ hk)
    obtain rfl : images.toList.get k = m := Except.ok.inj ((hact k hk).symm.trans hkm)
    exact ⟨hm, hmk⟩
  have hlength : images.toList.length = t.live := Array.length_toList.trans hsize
  rw [← hlength]
  refine perm_range_of_nodup (List.nodup_iff_injective_get.2 fun k l hkl => ?_) fun m hm => ?_
  · have hk := (hspec k).2
    rw [hkl, (hspec l).2] at hk
    exact Fin.ext (Except.ok.inj hk).symm
  · obtain ⟨k, rfl⟩ := List.get_of_mem hm
    exact hlength ▸ (hspec k).1

include hp in
/-- Words that fix one node are equal to the empty word, which fixes all. -/
theorem Settled.actWord_fixes {w : Word} (hw : p.Allows w) {k m : ℕ} (hk : k < t.live)
    (hfix : c.actWord k w = .ok k) (hm : m < t.live) : c.actWord m w = .ok m := by
  obtain ⟨i, hi, rfl⟩ := exists_idxOf_eq hk
  obtain ⟨j, hj, rfl⟩ := exists_idxOf_eq hm
  have hcov := h.covers hnone
  obtain ⟨i', hpath⟩ := hcov.toActs.exists_path hi hw
  obtain rfl : i = i' := by
    rw [hc.actWord_eq h.wellFormed hw hi hpath] at hfix
    exact ((idxOf_inj hi).1 (Except.ok.inj hfix).symm)
  obtain ⟨u, hu, hui⟩ := h.exists_path hi
  have hequal : p.Equal (u ++ w) u :=
    (h.eq_iff_equal hnone hp hu (Path.append.2 ⟨i, hui, hpath⟩) hui).1 rfl
  have hnil : p.Equal w [] := by
    have hcancel := (hu.inverse_append.append_right w).symm
    have hleft := hequal.append_left u.inverse
    rw [List.append_assoc] at hcancel
    exact (hcancel.trans hleft).trans hu.inverse_append
  exact hc.actWord_eq h.wellFormed hw hj ((hcov.path_iff hp hnil hj).2 rfl)

include hp in
/-- The closed table of a finished one has a regular representation. -/
theorem Settled.regular (hclosed : c.closed = true) (hkeys : c.columns.map Prod.fst = p.generators)
    (hsizes : ∀ column ∈ c.columns, column.2.size = t.live) : c.Regular p t.live := by
  have hzero := h.wellFormed.contains_zero
  have hlookup : ∀ column ∈ c.columns, c.columns.lookup column.1 = some column.2 := fun column hcolumn =>
    lookup_eq_some_of_mem (hkeys ▸ hp.nodup_generators) hcolumn
  have hact : ∀ column ∈ c.columns, ∀ (k : ℕ) (hk : k < column.2.size),
      c.act k ⟨column.1, false⟩ = .ok column.2[k] := fun column hcolumn k hk =>
    act_eq_getElem hclosed (hlookup column hcolumn) hk
  have hkey : ∀ column ∈ c.columns, column.1 ∈ p.generators := fun column hcolumn =>
    hkeys ▸ List.mem_map.2 ⟨column, hcolumn, rfl⟩
  refine ⟨(Nat.zero_le _).trans_lt (idxOf_lt_live hzero), hkeys, fun column hcolumn => ?_, hact,
    fun x hx k hk => h.exists_act_eq hnone hc hx hk, fun r hr k hk => ?_, fun k hk => ?_,
    fun w hw k hk hfix m hm => h.actWord_fixes hnone hp hc hw hk hfix hm⟩
  · exact h.column_perm hnone hc (hkey column hcolumn) (hsizes column hcolumn) (hact column hcolumn)
  · obtain ⟨i, hi, rfl⟩ := exists_idxOf_eq hk
    exact hc.actWord_eq h.wellFormed (hp.allows_relators r hr) hi ((h.covers hnone).closes i hi r hr)
  · obtain ⟨i, hi, rfl⟩ := exists_idxOf_eq hk
    obtain ⟨w, hw, hpath⟩ := h.exists_path hi
    have hactWord := hc.actWord_eq h.wellFormed hw hzero hpath
    rw [h.wellFormed.idxOf_zero_ids] at hactWord
    exact ⟨w, hw, hactWord⟩

end regular

/-! ### The permutations of the nodes -/

/-- The columns, as permutations without the names of their generators. -/
def columnPermutations (c : Table) : List Permutation := c.permutations.map (·.2)

/-- The word takes each node to its image. -/
def Realizes (c : Table) (w : Word) (σ : Equiv.Perm (Fin n)) : Prop :=
  ∀ i : Fin n, c.actWord i w = .ok (σ i : ℕ)

theorem actWord_cons_of_eq {i j : ℕ} {x : Letter} {w : Word} (hx : c.act i x = .ok j) :
    c.actWord i (x :: w) = c.actWord j w := by
  unfold actWord
  rw [hx]
  cases w <;> rfl

theorem actWord_append_of_eq {i j : ℕ} {u v : Word} (hu : c.actWord i u = .ok j) :
    c.actWord i (u ++ v) = c.actWord j v := by
  induction u generalizing i with
  | nil =>
      obtain rfl : i = j := Except.ok.inj hu
      rfl
  | cons x u ih =>
      cases hx : c.act i x with
      | error fault =>
          unfold actWord at hu
          rw [hx] at hu
          exact absurd hu (by simp [bind, Except.bind])
      | ok k =>
          rw [actWord_cons_of_eq hx] at hu
          rw [List.cons_append, actWord_cons_of_eq hx]
          exact ih hu

theorem Realizes.append {u v : Word} {σ τ : Equiv.Perm (Fin n)} (hu : c.Realizes u σ)
    (hv : c.Realizes v τ) : c.Realizes (u ++ v) (τ * σ) := fun i => by
  rw [actWord_append_of_eq (hu i)]
  exact hv (σ i)

theorem mem_columnPermutations {q : Permutation} :
    q ∈ c.columnPermutations ↔ ∃ column ∈ c.columns, ⟨column.2⟩ = q := by
  simp only [columnPermutations, permutations, List.map_map, List.mem_map, Function.comp_apply]

namespace Regular

variable (h : c.Regular p n)
include h

theorem permutes : (⟨n, c.columnPermutations⟩ : PermutationGroup).Permutes := by
  intro q hq
  obtain ⟨column, hcolumn, rfl⟩ := mem_columnPermutations.1 hq
  exact Permutation.exists_eq_ofPerm (h.column_perm column hcolumn)

theorem degree_eq : ∀ q ∈ c.columnPermutations, q.degree = n := by
  intro q hq
  obtain ⟨σ, rfl⟩ := h.permutes q hq
  exact Permutation.degree_ofPerm σ

theorem columnPermutations_ne_nil (hne : p.generators ≠ []) : c.columnPermutations ≠ [] := by
  intro hnil
  refine hne ?_
  rw [← h.keys_eq, List.map_eq_nil_iff]
  simpa [columnPermutations, permutations] using hnil

theorem realizes_of_eq {column : String × Array ℕ} (hcolumn : column ∈ c.columns)
    {σ : Equiv.Perm (Fin n)} (hσ : (⟨column.2⟩ : Permutation) = .ofPerm σ) :
    c.Realizes [⟨column.1, false⟩] σ := by
  intro i
  have himages : column.2 = Array.ofFn fun i => (σ i : ℕ) := congrArg Permutation.images hσ
  have hi : (i : ℕ) < column.2.size := by
    rw [himages, Array.size_ofFn]
    exact i.2
  rw [actWord_cons_of_eq (h.act_eq column hcolumn i hi)]
  simp [himages, actWord]

theorem exists_letter {σ : Equiv.Perm (Fin n)} (hσ : .ofPerm σ ∈ c.columnPermutations) :
    ∃ g ∈ p.generators, c.Realizes [⟨g, false⟩] σ := by
  obtain ⟨column, hcolumn, heq⟩ := mem_columnPermutations.1 hσ
  exact ⟨column.1, h.keys_eq ▸ List.mem_map.2 ⟨column, hcolumn, rfl⟩, h.realizes_of_eq hcolumn heq⟩

theorem exists_generator {g : String} (hg : g ∈ p.generators) :
    ∃ σ : Equiv.Perm (Fin n), .ofPerm σ ∈ c.columnPermutations ∧
      c.Realizes [⟨g, false⟩] σ := by
  rw [← h.keys_eq] at hg
  obtain ⟨column, hcolumn, rfl⟩ := List.mem_map.1 hg
  obtain ⟨σ, hσ⟩ := Permutation.exists_eq_ofPerm (h.column_perm column hcolumn)
  exact ⟨σ, mem_columnPermutations.2 ⟨column, hcolumn, hσ⟩, h.realizes_of_eq hcolumn hσ⟩

theorem realizes_inverse {x : Letter} (hx : x.gen ∈ p.generators) {σ : Equiv.Perm (Fin n)}
    (hσ : c.Realizes [x] σ) : c.Realizes [x.inverse] σ⁻¹ := by
  intro i
  obtain ⟨j, -, hj, hback⟩ := h.act_inverse x hx (σ⁻¹ i : Fin n) (σ⁻¹ i).2
  have hσi : σ (σ⁻¹ i) = i := σ.apply_symm_apply i
  have hji := hσ (σ⁻¹ i)
  rw [actWord_cons_of_eq hj, hσi] at hji
  obtain rfl : j = i := Except.ok.inj hji
  exact actWord_cons_of_eq hback

/-- Every word realizes an element of the group. -/
theorem exists_realizes {w : Word} (hw : p.Allows w) :
    ∃ σ ∈ Permutation.generated n c.columnPermutations, c.Realizes w σ := by
  induction w with
  | nil => exact ⟨1, Subgroup.one_mem _, fun _ => rfl⟩
  | cons x w ih =>
      obtain ⟨hx, hw⟩ := Presentation.allows_cons.1 hw
      obtain ⟨τ, hτ, hwτ⟩ := ih hw
      obtain ⟨σ, hσ, hxσ⟩ : ∃ σ ∈ Permutation.generated n c.columnPermutations, c.Realizes [x] σ := by
        obtain ⟨g, inverted⟩ := x
        obtain ⟨σ, hσ, hgσ⟩ := h.exists_generator hx
        have hmem := Permutation.mem_generated hσ
        cases inverted with
        | false => exact ⟨σ, hmem, hgσ⟩
        | true => exact ⟨σ⁻¹, inv_mem hmem, h.realizes_inverse (x := ⟨g, false⟩) hx hgσ⟩
      exact ⟨τ * σ, mul_mem hτ hσ, hxσ.append hwτ⟩

theorem exists_word {σ : Equiv.Perm (Fin n)} (hσ : σ ∈ Permutation.generated n c.columnPermutations) :
    ∃ w, p.Allows w ∧ c.Realizes w σ := by
  replace hσ := Permutation.mem_generated_iff.1 hσ
  induction hσ using Submonoid.closure_induction_left with
  | one => exact ⟨[], Presentation.allows_nil, fun _ => rfl⟩
  | mul_left τ hτ σ _ ih =>
      obtain ⟨g, hg, hgτ⟩ := h.exists_letter hτ
      obtain ⟨w, hw, hwσ⟩ := ih
      refine ⟨w ++ [⟨g, false⟩], Presentation.allows_append.2 ⟨hw, ?_⟩, hwσ.append hgτ⟩
      exact Presentation.allows_cons.2 ⟨hg, Presentation.allows_nil⟩

theorem eq_of_apply_eq {σ τ : Equiv.Perm (Fin n)} (hσ : σ ∈ Permutation.generated n c.columnPermutations)
    (hτ : τ ∈ Permutation.generated n c.columnPermutations) {i : Fin n} (heq : σ i = τ i) : σ = τ := by
  obtain ⟨w, hw, hreal⟩ := h.exists_word (mul_mem (inv_mem hτ) hσ)
  have hfix : c.actWord i w = .ok (i : ℕ) := by
    have hτi : τ⁻¹ (τ i) = i := τ.symm_apply_apply i
    rw [hreal i, Equiv.Perm.mul_apply, heq, hτi]
  have hone : τ⁻¹ * σ = 1 := by
    ext j
    have hj := h.free w hw i i.2 hfix j j.2
    rw [hreal j] at hj
    exact Except.ok.inj hj
  exact (inv_mul_eq_one.1 hone).symm

/-- The elements of the group are given by the nodes to which they take the first one. -/
theorem bijective_apply_zero :
    Function.Bijective fun σ : Permutation.generated n c.columnPermutations => σ.1 ⟨0, h.pos⟩ := by
  constructor
  · intro σ τ heq
    exact Subtype.ext (h.eq_of_apply_eq σ.2 τ.2 heq)
  · intro i
    obtain ⟨w, hw, hi⟩ := h.reach i i.2
    obtain ⟨σ, hσ, hreal⟩ := h.exists_realizes hw
    refine ⟨⟨σ, hσ⟩, Fin.ext ?_⟩
    exact Except.ok.inj ((hreal ⟨0, h.pos⟩).symm.trans hi)

/-- The group has as many elements as there are nodes. -/
theorem card_generated : Nat.card (Permutation.generated n c.columnPermutations) = n :=
  (Nat.card_eq_of_bijective _ h.bijective_apply_zero).trans (Nat.card_fin n)

/-- The group is abelian if and only if the order of two generators does not matter for where they lead
from the first node. -/
theorem closure_comm_iff_actWord :
    (∀ σ ∈ Permutation.generated n c.columnPermutations, ∀ τ ∈ Permutation.generated n c.columnPermutations,
      σ * τ = τ * σ) ↔ ∀ a ∈ p.generators, ∀ b ∈ p.generators,
      c.actWord 0 [⟨a, false⟩, ⟨b, false⟩] = c.actWord 0 [⟨b, false⟩, ⟨a, false⟩] := by
  refine (PermutationGroup.closure_comm_iff (G := ⟨n, c.columnPermutations⟩)).trans ?_
  have hzero : ∀ {u v : Word} {σ τ : Equiv.Perm (Fin n)}, c.Realizes u σ → c.Realizes v τ →
      c.actWord 0 (u ++ v) = .ok ((τ * σ) ⟨0, h.pos⟩ : ℕ) := fun hu hv => hu.append hv ⟨0, h.pos⟩
  constructor
  · intro hcomm a ha b hb
    obtain ⟨σ, hσ, haσ⟩ := h.exists_generator ha
    obtain ⟨τ, hτ, hbτ⟩ := h.exists_generator hb
    have hba := hzero hbτ haσ
    rw [hcomm σ τ hσ hτ] at hba
    exact (hzero haσ hbτ).trans hba.symm
  · intro hcomm σ τ hσ hτ
    obtain ⟨a, ha, haσ⟩ := h.exists_letter hσ
    obtain ⟨b, hb, hbτ⟩ := h.exists_letter hτ
    have heq := (hzero hbτ haσ).symm.trans ((hcomm b hb a ha).trans (hzero haσ hbτ))
    have hσ' := Permutation.mem_generated hσ
    have hτ' := Permutation.mem_generated hτ
    exact h.eq_of_apply_eq (mul_mem hσ' hτ') (mul_mem hτ' hσ') (Fin.ext (Except.ok.inj heq))

end Regular

end Table

namespace Enumeration

theorem exists_nodeOf_iff {p : Presentation} {t c : Table} (hc : t.ClosedBy p c) {e : Enumeration}
    (hgraph : e.graph = c.graph) (hdone : e.isComputed) (h : e.table.Regular p t.live) {u v : Word}
    (hu : p.Allows u) (hv : p.Allows v) :
    (∃ m, e.nodeOf u = .ok m ∧ e.nodeOf v = .ok m) ↔ e.table.actWord 0 u = e.table.actWord 0 v := by
  obtain ⟨σ, -, hσ⟩ := h.exists_realizes hu
  obtain ⟨τ, -, hτ⟩ := h.exists_realizes hv
  have hactu := hσ ⟨0, h.pos⟩
  have hactv := hτ ⟨0, h.pos⟩
  obtain ⟨m, hm, hnode, hid⟩ := nodeOf_of_actWord hc hgraph hdone hactu (σ ⟨0, h.pos⟩).2
  obtain ⟨m', hm', hnode', hid'⟩ := nodeOf_of_actWord hc hgraph hdone hactv (τ ⟨0, h.pos⟩).2
  rw [hactu, hactv, hm, hm']
  constructor
  · rintro ⟨n, hn, hn'⟩
    rw [← hid, ← hid', Except.ok.inj hn, Except.ok.inj hn']
  · intro heq
    rw [Except.ok.inj heq] at hnode
    obtain rfl := Option.some.inj (hnode.symm.trans hnode')
    exact ⟨m, rfl, rfl⟩

/-- The columns of a graph that a run gives have a regular representation, and the group that is asked for is
the one that they generate. -/
theorem RunsTo.regular {p : Presentation} {cap : ℕ} {t c : Table} (h : (fresh p cap).RunsTo t c)
    (hp : p.Valid) (hclose : t.close p.generators = (.ok c.graph, c)) :
    (fresh p cap).run.2.table.Regular p t.live ∧
      (fresh p cap).run.2.group = .ok ⟨t.live, (fresh p cap).run.2.table.columnPermutations⟩ := by
  obtain ⟨ht, -, hnone, hc, -, htable, -, hdone⟩ := h
  obtain ⟨hclosed, hkeys, hsizes⟩ := ht.columns_of_close hnone hp.nodup_generators hclose
  have hc' : t.ClosedBy p { c with log := #[] } := ⟨hc.length_nodes, hc.id_eq, hc.act_eq⟩
  have hregular := ht.regular hnone hp hc' hclosed hkeys hsizes
  rw [← htable] at hregular
  refine ⟨hregular, ?_⟩
  have hgroup := PermutationGroup.generatedBy_eq (hregular.columnPermutations_ne_nil hp.generators_ne_nil)
    hregular.degree_eq
  rw [← hgroup]
  unfold group permutations checkComputed
  rw [if_pos hdone]
  rfl

/-- What a run that gives a graph leaves behind is a regular permutation representation: its columns are
permutations of the nodes, inverse letters undo each other, relators fix each node, every node can be
reached, and only words that fix all nodes fix one.  The group that its permutations generate has as many
points and as many elements as the graph has nodes, and its elements commute if and only if for any two
generators the two orders of them are at the same node. -/
theorem run_regular {limit : DigitLimit} {generators : List Datum} {relations : List String}
    {cap : Int} {e : Enumeration} (h : ofRelations limit generators relations cap = .ok e)
    {g : Graph} (hrun : e.run.1.outcome = .ok g) :
    e.run.2.table.Regular e.presentation g.nodes.length ∧
      e.run.2.order = .ok g.nodes.length ∧
      ∃ G, e.run.2.group = .ok G ∧ G.degree = g.nodes.length ∧
        (∀ q ∈ G.generators, q.degree = g.nodes.length) ∧ G.Permutes ∧
        Nat.card G.closure = g.nodes.length ∧
        ((∀ σ ∈ G.closure, ∀ τ ∈ G.closure, σ * τ = τ * σ) ↔
          ∀ a ∈ e.presentation.generators, ∀ b ∈ e.presentation.generators,
            ∃ m, e.run.2.nodeOf [⟨a, false⟩, ⟨b, false⟩] = .ok m ∧
              e.run.2.nodeOf [⟨b, false⟩, ⟨a, false⟩] = .ok m) := by
  obtain ⟨p, hp, hcap, rfl⟩ := exists_fresh_of_ofRelations h
  obtain ⟨t, c, hruns, hclose⟩ := exists_close_of_outcome_eq_ok hp hcap hrun
  obtain ⟨hregular, hgroup⟩ := hruns.regular hp hclose
  obtain ⟨-, -, -, hc, houtcome, -, hgraph, hdone⟩ := hruns
  rw [presentation_fresh] at *
  obtain rfl : c.graph = g := Except.ok.inj (houtcome.symm.trans hrun)
  have hn : c.graph.nodes.length = t.live := hc.length_nodes
  rw [hn]
  refine ⟨hregular, ?_, _, hgroup, rfl, hregular.degree_eq, hregular.permutes, hregular.card_generated, ?_⟩
  · unfold order checkComputed
    rw [if_pos hdone, hgraph, ← hn]
    rfl
  · refine hregular.closure_comm_iff_actWord.trans ?_
    refine forall₂_congr fun a ha => forall₂_congr fun b hb => ?_
    have hallows : ∀ a ∈ p.generators, ∀ b ∈ p.generators, p.Allows [⟨a, false⟩, ⟨b, false⟩] :=
      fun a ha b hb => Presentation.allows_cons.2
        ⟨ha, Presentation.allows_cons.2 ⟨hb, Presentation.allows_nil⟩⟩
    exact (exists_nodeOf_iff hc hgraph hdone hregular (hallows a ha b hb) (hallows b hb a ha)).symm

theorem run_regular_square :
    (fresh square 4).run.2.table.Regular square 2 ∧
      ∃ G, (fresh square 4).run.2.group = .ok G ∧ G.degree = 2 ∧ Nat.card G.closure = 2 := by
  have hrun : (fresh square 4).run.1.outcome =
      .ok ⟨[⟨0, [], true⟩, ⟨1, [⟨"a", false⟩], true⟩], [⟨0, 1, "a"⟩, ⟨1, 0, "a"⟩]⟩ := by cbv
  obtain ⟨hregular, -, G, hG, hdegree, -, -, hcard, -⟩ :=
    run_regular (ofRelations_square (by decide : (1 : Int) ≤ 4)) hrun
  exact ⟨hregular, G, hG, hdegree, hcard⟩

/-- The order that is computed for the group of a finished run is the number of nodes, and the generators are
found to commute if and only if all elements do. -/
theorem order_of_group {limit : DigitLimit} {generators : List Datum} {relations : List String}
    {cap : Int} {e : Enumeration} (h : ofRelations limit generators relations cap = .ok e)
    {g : Graph} (hrun : e.run.1.outcome = .ok g) :
    ∃ G, e.run.2.group = .ok G ∧ G.order = g.nodes.length ∧
      (G.isAbelian = true ↔ ∀ σ ∈ G.closure, ∀ τ ∈ G.closure, σ * τ = τ * σ) := by
  obtain ⟨p, hp, hcap, rfl⟩ := exists_fresh_of_ofRelations h
  obtain ⟨t, c, hruns, hclose⟩ := exists_close_of_outcome_eq_ok hp hcap hrun
  obtain ⟨hregular, hgroup⟩ := hruns.regular hp hclose
  obtain rfl : c.graph = g := Except.ok.inj (hruns.outcome_eq.symm.trans hrun)
  refine ⟨_, hgroup, ?_, PermutationGroup.isAbelian_iff_closure hregular.permutes⟩
  rw [PermutationGroup.order_eq_card hregular.permutes]
  exact hregular.card_generated.trans hruns.closedBy.length_nodes.symm

end Enumeration

end ToddCoxeter
