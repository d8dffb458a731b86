import Mathlib.GroupTheory.Perm.Basic
import Mathlib.GroupTheory.Submonoid.Centralizer
import Mathlib.GroupTheory.OrderOfElement
import Mathlib.Tactic
import ToddCoxeter.Permutation
import ToddCoxeter.Proofs.Lists

/-! # The group that permutations generate

A permutation of `n` points is the list of its images (`Permutation.ofPerm`), and a group of permutations is
given by generators, which generate a subgroup of all permutations (`PermutationGroup.closure`).  The search
for elements keeps a list of elements that are found and of those that are still to be multiplied by the
generators (`PermutationGroup.Search.Invariant`).  There are too few permutations for it to use up its
budget, so that it finds the subgroup (`PermutationGroup.mem_elements_iff`): the order is the number of its
elements (`PermutationGroup.order_eq_card`), and the group is abelian if and only if the subgroup is
(`PermutationGroup.isAbelian_iff_closure`). -/

namespace ToddCoxeter

namespace Permutation

variable {n : ℕ}

/-- The list of the images of the points. -/
def ofPerm (σ : Equiv.Perm (Fin n)) : Permutation := ⟨Array.ofFn fun i => (σ i : ℕ)⟩

theorem apply_ofPerm (σ : Equiv.Perm (Fin n)) (i : Fin n) : (ofPerm σ).apply i = σ i := by
  simp [apply, ofPerm]

theorem degree_ofPerm (σ : Equiv.Perm (Fin n)) : (ofPerm σ).degree = n := Array.size_ofFn

theorem ofPerm_injective : Function.Injective (ofPerm (n := n)) := by
  intro σ τ h
  ext i
  rw [← apply_ofPerm, h, apply_ofPerm]

theorem ofPerm_one : ofPerm (1 : Equiv.Perm (Fin n)) = identity n := by
  have himages : Array.ofFn (fun i : Fin n => ((1 : Equiv.Perm (Fin n)) i : ℕ)) = Array.range n := by
    ext i hi hi' <;> simp
  exact congrArg Permutation.mk himages

theorem ofPerm_andThen (σ τ : Equiv.Perm (Fin n)) : (ofPerm σ).andThen (ofPerm τ) = ofPerm (τ * σ) := by
  have hmap : (Array.ofFn fun i => (σ i : ℕ)).map (ofPerm τ).apply =
      Array.ofFn fun i => ((τ * σ) i : ℕ) := by
    rw [Array.map_ofFn]
    exact congrArg Array.ofFn (funext fun i => apply_ofPerm τ (σ i))
  exact congrArg Permutation.mk hmap

theorem exists_eq_ofPerm {images : Array ℕ} (h : images.toList.Perm (List.range n)) :
    ∃ σ : Equiv.Perm (Fin n), (⟨images⟩ : Permutation) = ofPerm σ := by
  have hlength : images.toList.length = n := h.length_eq.trans List.length_range
  have hsize : images.size = n := Array.length_toList.symm.trans hlength
  have hlt : ∀ i : Fin n, images[i] < n := fun i =>
    List.mem_range.1 (h.mem_iff.1 (Array.getElem_mem_toList _))
  have hinj : Function.Injective fun i : Fin n => (⟨images[i], hlt i⟩ : Fin n) := by
    intro i j hij
    have hnodup : images.toList.Nodup := h.nodup_iff.2 List.nodup_range
    have hget : images.toList.get ⟨i, hlength ▸ i.2⟩ = images.toList.get ⟨j, hlength ▸ j.2⟩ := by
      simpa using hij
    exact Fin.ext (Fin.mk.inj (List.nodup_iff_injective_get.1 hnodup hget))
  refine ⟨Equiv.ofBijective _ (Finite.injective_iff_bijective.1 hinj), ?_⟩
  unfold ofPerm
  congr 1
  ext i hi hi'
  · simp [hsize]
  · simp

/-- The group of permutations that some of them generate. -/
def generated (n : ℕ) (gens : List Permutation) : Subgroup (Equiv.Perm (Fin n)) :=
  Subgroup.closure {σ | ofPerm σ ∈ gens}

theorem mem_generated {gens : List Permutation} {σ : Equiv.Perm (Fin n)} (hσ : ofPerm σ ∈ gens) :
    σ ∈ generated n gens := Subgroup.subset_closure hσ

/-- Since there are finitely many permutations, products of generators are all that is generated. -/
theorem mem_generated_iff {gens : List Permutation} {σ : Equiv.Perm (Fin n)} :
    σ ∈ generated n gens ↔ σ ∈ Submonoid.closure {σ : Equiv.Perm (Fin n) | ofPerm σ ∈ gens} := by
  rw [← Subgroup.closure_toSubmonoid_of_finite]
  rfl

end Permutation

namespace PermutationGroup

variable {G : PermutationGroup}

theorem generatedBy_eq {ps : List Permutation} {n : ℕ} (hne : ps ≠ []) (hps : ∀ p ∈ ps, p.degree = n) :
    generatedBy ps = ⟨n, ps⟩ := by
  have hmax : ps.foldr (fun p m => max p.degree m) 0 = n := by
    induction ps with
    | nil => exact absurd rfl hne
    | cons p ps ih =>
        obtain ⟨hp, hps⟩ := List.forall_mem_cons.1 hps
        rw [List.foldr_cons, hp]
        cases ps with
        | nil => exact Nat.max_eq_left (Nat.zero_le n)
        | cons q ps => rw [ih (List.cons_ne_nil q ps) hps, Nat.max_self]
  rw [generatedBy, hmax]

/-- The generators are permutations of the points. -/
def Permutes (G : PermutationGroup) : Prop :=
  ∀ q ∈ G.generators, ∃ σ : Equiv.Perm (Fin G.degree), q = .ofPerm σ

/-- The group of permutations that the generators generate. -/
def closure (G : PermutationGroup) : Subgroup (Equiv.Perm (Fin G.degree)) :=
  Permutation.generated G.degree G.generators

/-! ### The search for elements -/

/-- What holds after `k` steps of the search. -/
structure Search.Invariant (G : PermutationGroup) (k : ℕ) (s : Search) : Prop where
  one_mem : .identity G.degree ∈ s.found
  /-- Only elements are found. -/
  sound : ∀ q ∈ s.found, ∃ σ ∈ G.closure, q = .ofPerm σ
  /-- The products of an element and the generators are found, unless they are still to be looked for. -/
  closed : ∀ q ∈ s.found, q ∈ s.todo ∨ ∀ g ∈ G.generators, q.andThen g ∈ s.found
  nodup : s.found.Nodup
  todo_subset : s.todo ⊆ s.found
  /-- With each step one more of the elements is done with. -/
  length_eq : s.found.length = s.todo.length + k

namespace Search.Invariant

variable {k : ℕ} {s s' : Search}

theorem start (G : PermutationGroup) :
    Search.Invariant G 0 ⟨[.identity G.degree], [.identity G.degree]⟩ := by
  refine ⟨List.mem_singleton_self _, fun q hq => ?_, fun q hq => .inl hq, List.nodup_singleton _,
    List.Subset.refl _, rfl⟩
  obtain rfl := List.mem_singleton.1 hq
  exact ⟨1, Subgroup.one_mem _, Permutation.ofPerm_one.symm⟩

theorem step (hG : G.Permutes) (h : Search.Invariant G k s)
    (hstep : Search.step G.generators s = .inl s') : Search.Invariant G (k + 1) s' := by
  obtain ⟨found, todo⟩ := s
  cases todo with
  | nil => exact absurd hstep (by simp [Search.step])
  | cons p rest =>
      obtain rfl := Sum.inl.inj hstep
      have hp : p ∈ found := h.todo_subset List.mem_cons_self
      generalize hfresh : ((G.generators.map p.andThen).filter fun q => !found.contains q).eraseDups =
        fresh
      have hmem : ∀ q, q ∈ fresh ↔ (∃ g ∈ G.generators, p.andThen g = q) ∧ q ∉ found := fun q => by
        rw [← hfresh, List.mem_eraseDups, List.mem_filter, List.mem_map]
        simp
      refine ⟨List.mem_append_right _ h.one_mem, fun q hq => ?_, fun q hq => ?_, ?_, ?_, ?_⟩
      · rcases List.mem_append.1 hq with hq | hq
        · obtain ⟨⟨g, hg, rfl⟩, -⟩ := (hmem q).1 hq
          obtain ⟨σ, hσ, rfl⟩ := h.sound p hp
          obtain ⟨τ, rfl⟩ := hG g hg
          exact ⟨τ * σ, mul_mem (Permutation.mem_generated hg) hσ, Permutation.ofPerm_andThen σ τ⟩
        · exact h.sound q hq
      · rcases List.mem_append.1 hq with hq | hq
        · exact .inl (List.mem_append_left _ hq)
        · rcases h.closed q hq with htodo | hdone
          · rcases List.mem_cons.1 htodo with rfl | hrest
            · -- The element whose turn it was: what was not found before is found now.
              refine .inr fun g hg => List.mem_append.2 ?_
              by_cases hold : q.andThen g ∈ found
              · exact .inr hold
              · exact .inl ((hmem _).2 ⟨⟨g, hg, rfl⟩, hold⟩)
            · exact .inl (List.mem_append_right _ hrest)
          · exact .inr fun g hg => List.mem_append_right _ (hdone g hg)
      · refine List.nodup_append.2 ⟨hfresh ▸ nodup_eraseDups _, h.nodup, ?_⟩
        rintro q hq _ hold rfl
        exact ((hmem q).1 hq).2 hold
      · intro q hq
        rcases List.mem_append.1 hq with hq | hq
        · exact List.mem_append_left _ hq
        · exact List.mem_append_right _ (h.todo_subset (List.mem_cons_of_mem p hq))
      · have hlength := h.length_eq
        simp only [List.length_cons, List.length_append] at hlength ⊢
        omega

theorem length_le (h : Search.Invariant G k s) : s.found.length ≤ G.degree.factorial := by
  have hsub : s.found.toFinset ⊆
      Finset.univ.image (Permutation.ofPerm : Equiv.Perm (Fin G.degree) → Permutation) := by
    intro q hq
    obtain ⟨σ, -, rfl⟩ := h.sound q (List.mem_toFinset.1 hq)
    exact Finset.mem_image_of_mem _ (Finset.mem_univ σ)
  rw [← List.toFinset_card_of_nodup h.nodup]
  refine (Finset.card_le_card hsub).trans (Finset.card_image_le.trans_eq ?_)
  rw [Finset.card_univ, Fintype.card_perm, Fintype.card_fin]

theorem mem_found_iff (h : Search.Invariant G k s) (hdone : s.todo = [])
    {q : Permutation} : q ∈ s.found ↔ ∃ σ ∈ G.closure, q = .ofPerm σ := by
  refine ⟨h.sound q, ?_⟩
  rintro ⟨σ, hσ, rfl⟩
  replace hσ := Permutation.mem_generated_iff.1 hσ
  induction hσ using Submonoid.closure_induction_left with
  | one =>
      rw [Permutation.ofPerm_one]
      exact h.one_mem
  | mul_left τ hτ σ _ ih =>
      rw [← Permutation.ofPerm_andThen]
      refine (h.closed _ ih).resolve_left (fun hno => ?_) _ hτ
      rw [hdone] at hno
      exact absurd hno (by simp)

end Search.Invariant

/-- The budget is larger than the number of permutations. -/
theorem factorial_le_two_pow_searchBits (n : ℕ) : n.factorial ≤ 2 ^ searchBits n - 1 := by
  have hpow : n.factorial ≤ 2 ^ (n * (n.log2 + 1)) := by
    calc n.factorial ≤ n ^ n := Nat.factorial_le_pow n
      _ ≤ (2 ^ (n.log2 + 1)) ^ n := Nat.pow_le_pow_left Nat.lt_log2_self.le n
      _ = 2 ^ (n * (n.log2 + 1)) := by rw [← Nat.pow_mul, Nat.mul_comm]
  have hpos := Nat.two_pow_pos (n * (n.log2 + 1))
  unfold searchBits
  rw [Nat.pow_succ]
  omega

/-- The search ends with nothing left to be done. -/
theorem exists_search (hG : G.Permutes) :
    ∃ k s, Search.Invariant G k s ∧ s.todo = [] ∧ G.elements = s.found := by
  simp only [elements, Loop.run_eq_steps, Nat.one_shiftLeft]
  rcases Loop.steps_cases (fun k s s' h => h.step hG) (Search.Invariant.start G)
    (2 ^ searchBits G.degree - 1) with ⟨s, hs, hinv⟩ | ⟨k, s, r, hr, hinv, hstep⟩
  · refine ⟨_, s, hinv, ?_, by rw [hs]⟩
    have hlength := hinv.length_eq
    have hle := hinv.length_le
    have hbits := factorial_le_two_pow_searchBits G.degree
    exact List.length_eq_zero_iff.1 (by omega)
  · obtain ⟨found, todo⟩ := s
    cases todo with
    | nil =>
        obtain rfl := Sum.inr.inj hstep
        exact ⟨k, _, hinv, rfl, by rw [hr]⟩
    | cons p rest => exact absurd hstep (by simp [Search.step])

theorem nodup_elements (hG : G.Permutes) : G.elements.Nodup := by
  obtain ⟨k, s, h, -, heq⟩ := exists_search hG
  exact heq ▸ h.nodup

/-- The elements that are found are those that are generated. -/
theorem mem_elements_iff (hG : G.Permutes) {q : Permutation} :
    q ∈ G.elements ↔ ∃ σ ∈ G.closure, q = .ofPerm σ := by
  obtain ⟨k, s, h, hdone, heq⟩ := exists_search hG
  rw [heq, h.mem_found_iff hdone]

/-- The order is the number of permutations that are generated. -/
theorem order_eq_card (hG : G.Permutes) : G.order = Nat.card G.closure := by
  have himage : (G.elements.toFinset : Set Permutation) =
      Permutation.ofPerm '' (G.closure : Set (Equiv.Perm (Fin G.degree))) := by
    ext q
    rw [Finset.mem_coe, List.mem_toFinset, mem_elements_iff hG]
    exact exists_congr fun σ => and_congr_right fun _ => eq_comm
  unfold order
  rw [← List.toFinset_card_of_nodup (nodup_elements hG), ← Set.ncard_coe_finset, himage,
    Set.ncard_image_of_injective _ Permutation.ofPerm_injective]
  exact (Nat.card_coe_set_eq _).symm

/-! ### Abelian groups -/

/-- The elements of the group commute with each other if and only if the generators do. -/
theorem closure_comm_iff : (∀ σ ∈ G.closure, ∀ τ ∈ G.closure, σ * τ = τ * σ) ↔
    ∀ σ τ : Equiv.Perm (Fin G.degree), .ofPerm σ ∈ G.generators → .ofPerm τ ∈ G.generators →
      σ * τ = τ * σ := by
  constructor
  · intro h σ τ hσ hτ
    exact h σ (Permutation.mem_generated hσ) τ (Permutation.mem_generated hτ)
  · intro h σ hσ τ hτ
    replace hσ := Permutation.mem_generated_iff.1 hσ
    replace hτ := Permutation.mem_generated_iff.1 hτ
    have hgenerators : ∀ σ ∈ {σ : Equiv.Perm (Fin G.degree) | .ofPerm σ ∈ G.generators},
        ∀ τ ∈ {σ : Equiv.Perm (Fin G.degree) | .ofPerm σ ∈ G.generators}, σ * τ = τ * σ :=
      fun σ hσ τ hτ => h σ τ hσ hτ
    have hcomm := Submonoid.isMulCommutative_closure _ hgenerators
    exact congrArg Subtype.val (mul_comm' (⟨σ, hσ⟩ : Submonoid.closure _) ⟨τ, hτ⟩)

/-- The generators commute with each other if and only if the permutations do. -/
theorem isAbelian_iff (hG : G.Permutes) : G.isAbelian = true ↔
    ∀ σ τ : Equiv.Perm (Fin G.degree), .ofPerm σ ∈ G.generators → .ofPerm τ ∈ G.generators →
      σ * τ = τ * σ := by
  simp only [isAbelian, List.all_eq_true, beq_iff_eq]
  constructor
  · intro h σ τ hσ hτ
    have heq := h _ hτ _ hσ
    rw [Permutation.ofPerm_andThen, Permutation.ofPerm_andThen] at heq
    exact Permutation.ofPerm_injective heq
  · intro h p hp q hq
    obtain ⟨σ, rfl⟩ := hG p hp
    obtain ⟨τ, rfl⟩ := hG q hq
    rw [Permutation.ofPerm_andThen, Permutation.ofPerm_andThen, h τ σ hq hp]

/-- The generators commute with each other if and only if all elements of the group do. -/
theorem isAbelian_iff_closure (hG : G.Permutes) :
    G.isAbelian = true ↔ ∀ σ ∈ G.closure, ∀ τ ∈ G.closure, σ * τ = τ * σ := by
  rw [isAbelian_iff hG, closure_comm_iff]

end PermutationGroup

end ToddCoxeter
