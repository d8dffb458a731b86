import Mathlib.Tactic
import ToddCoxeter.Table.Basic

/-! # Roots of a forest under change

How the roots answer to the three things that happen to a `Forest`: a new root is pushed
(`Forest.root_push`), a root is linked below a smaller one (`Forest.root_link`), and a way is compressed.
Compression keeps all roots, the size and the order of the parents (`Forest.Descending`); forests that
differ in no more than that are related by `Forest.SameRoots`, and tables whose forests are, by
`Table.Reshaped`.  Questions asked of a table change it to a reshaped one. -/

namespace ToddCoxeter

namespace Forest

/-- No parent is larger than its child, so that following parents ends. -/
def Descending (f : Forest) : Prop := ∀ i p : ℕ, f.parent[i]? = some p → p ≤ i

/-- The two forests have the same nodes, represented by the same roots. -/
structure SameRoots (f g : Forest) : Prop where
  size_eq : f.size = g.size
  root_eq : ∀ i, f.root i = g.root i
  descending : g.Descending → f.Descending

theorem SameRoots.refl (f : Forest) : SameRoots f f := ⟨rfl, fun _ => rfl, id⟩

theorem SameRoots.trans {f g h : Forest} (h₁ : SameRoots f g) (h₂ : SameRoots g h) :
    SameRoots f h :=
  ⟨h₁.size_eq.trans h₂.size_eq, fun i => (h₁.root_eq i).trans (h₂.root_eq i),
    fun hd => h₁.descending (h₂.descending hd)⟩

theorem root_lt_size {f : Forest} {i : ℕ} (h : i < f.size) : f.root i < f.size := by
  have := f.root_le i
  omega

/-! ### Links -/

theorem getElem?_parent_link (f : Forest) (i p j : ℕ) :
    (f.link i p).parent[j]? =
      if i = j then (if i < f.size then some p else none) else f.parent[j]? := by
  simp only [link, Array.getElem?_setIfInBounds]
  rfl

theorem Descending.link {f : Forest} (hf : f.Descending) {i p : ℕ} (h : p ≤ i) :
    (f.link i p).Descending := by
  intro j q hq
  rw [getElem?_parent_link] at hq
  split_ifs at hq with hij hi
  · obtain rfl := Option.some.inj hq
    omega
  · exact hf j q hq

theorem root_eq_self_of_parent {f : Forest} {i p : ℕ} (hp : f.parent[i]? = some p)
    (h : f.root i = i) : ¬ p < i := by
  intro hlt
  have := f.root_le p
  rw [root_of_lt hp hlt] at h
  omega

/-- Linking a root below a smaller root changes the roots of its own tree alone. -/
theorem root_link {f : Forest} {a b : ℕ} (ha : f.root a = a) (hb : f.root b = b) (hab : a < b)
    (hlt : b < f.size) (j : ℕ) :
    (f.link b a).root j = if f.root j = b then a else f.root j := by
  induction j using Nat.strongRecOn with
  | ind j ih =>
      have hp := f.getElem?_parent_link b a j
      by_cases hj : b = j
      · subst hj
        rw [if_pos rfl, if_pos hlt] at hp
        rw [root_of_lt hp hab, ih a hab, ha, hb, if_pos rfl, if_neg (by omega)]
      · rw [if_neg hj] at hp
        by_cases hroot : f.root j = j
        · have hstay : (f.link b a).root j = j :=
            root_of_forall_le fun q hq =>
              Nat.not_lt.1 (root_eq_self_of_parent (hp ▸ hq) hroot)
          rw [hstay, hroot, if_neg (by omega)]
        · obtain ⟨p, hjp, hpj⟩ : ∃ p, f.parent[j]? = some p ∧ p < j := by
            by_contra hno
            exact hroot (root_of_forall_le fun q hq =>
              Nat.not_lt.1 fun hlt => hno ⟨q, hq, hlt⟩)
          rw [root_of_lt (hp.trans hjp) hpj, root_of_lt hjp hpj, ih p hpj]

/-! ### Pushes -/

theorem getElem?_parent_push (f : Forest) (j : ℕ) :
    f.push.parent[j]? = if j = f.size then some f.size else f.parent[j]? := by
  simp only [push, Array.getElem?_push]
  rfl

theorem Descending.push {f : Forest} (hf : f.Descending) : f.push.Descending := by
  intro j q hq
  rw [getElem?_parent_push] at hq
  split_ifs at hq with hj
  · obtain rfl := Option.some.inj hq
    omega
  · exact hf j q hq

/-- A number that is no node is its own root, before and after it becomes a node. -/
theorem root_of_size_le {f : Forest} {i : ℕ} (h : f.size ≤ i) : f.root i = i :=
  root_of_forall_le fun q hq => by
    rw [Array.getElem?_eq_none h] at hq
    exact absurd hq (by simp)

theorem root_push (f : Forest) (j : ℕ) : f.push.root j = f.root j := by
  induction j using Nat.strongRecOn with
  | ind j ih =>
      have hp := f.getElem?_parent_push j
      by_cases hj : j = f.size
      · rw [if_pos hj] at hp
        rw [root_of_size_le (Nat.le_of_eq hj.symm)]
        refine root_of_forall_le fun q hq => ?_
        rw [hp] at hq
        obtain rfl := Option.some.inj hq
        omega
      · rw [if_neg hj] at hp
        cases hjp : f.parent[j]? with
        | none =>
            rw [root_of_forall_le fun q hq => by simp [hp, hjp] at hq,
              root_of_forall_le fun q hq => by simp [hjp] at hq]
        | some p =>
            by_cases hlt : p < j
            · rw [root_of_lt (hp.trans hjp) hlt, root_of_lt hjp hlt, ih p hlt]
            · rw [root, root, hp, hjp]
              simp only [if_neg hlt]

theorem root_discrete (n i : ℕ) : (discrete n).root i = i := by
  refine root_of_forall_le fun p hp => ?_
  simp only [discrete, Array.getElem?_range] at hp
  split_ifs at hp
  exact (Option.some.inj hp).le

/-! ### Compression -/

theorem Descending.compress {f : Forest} (hf : f.Descending) {r i : ℕ} (h : f.root i = r) :
    (f.compress r i).Descending := by
  fun_induction Forest.compress f r i with
  | case1 f i p hp hlt ih =>
      have hroot : f.root p = r := by rw [← h, root_of_lt hp hlt.1]
      have hrp : r ≤ p := hroot ▸ f.root_le p
      have hri : r < i := by omega
      have hlink := root_link_of_root_eq hri (h.trans (hroot ▸ (f.root_root p).symm))
      exact ih (hf.link (by omega)) ((hlink p).trans hroot)
  | case2 | case3 => exact hf

theorem sameRoots_find (f : Forest) (i : ℕ) : SameRoots (f.find i).2 f :=
  ⟨size_find f i, root_snd_find f i, fun hf => hf.compress rfl⟩

theorem sameRoots_findAll (f : Forest) (is : List ℕ) : SameRoots (f.findAll is).2 f := by
  induction is generalizing f with
  | nil => exact .refl f
  | cons i is ih => exact (ih _).trans (sameRoots_find f i)

end Forest

namespace Table

theorem root_le (t : Table) (i : ℕ) : t.root i ≤ i := t.forest.root_le i

/-- The table differs from `t` at most in the shape of its forest. -/
def Reshaped (t t' : Table) : Prop := ∃ f, f.SameRoots t.forest ∧ t' = { t with forest := f }

theorem Reshaped.refl (t : Table) : Reshaped t t := ⟨t.forest, .refl _, rfl⟩

theorem Reshaped.trans {t u v : Table} (h₁ : Reshaped t u) (h₂ : Reshaped u v) :
    Reshaped t v := by
  obtain ⟨f, hf, rfl⟩ := h₁
  obtain ⟨g, hg, rfl⟩ := h₂
  exact ⟨g, hg.trans hf, rfl⟩

theorem reshaped_find (t : Table) (i : ℕ) : Reshaped t (t.find i).2 :=
  ⟨_, t.forest.sameRoots_find i, rfl⟩

theorem reshaped_neighbours (t : Table) (i : ℕ) (x : Letter) : Reshaped t (t.neighbours i x).2 :=
  ⟨_, (Forest.sameRoots_findAll _ _).trans (t.forest.sameRoots_find i), rfl⟩

namespace Reshaped

variable {t t' : Table} (h : Reshaped t t')
include h

theorem root_eq (i : ℕ) : t'.root i = t.root i := by
  obtain ⟨f, hf, rfl⟩ := h
  exact hf.root_eq i

theorem size_eq : t'.forest.size = t.forest.size := by
  obtain ⟨f, hf, rfl⟩ := h
  exact hf.size_eq

theorem rows_eq : t'.rows = t.rows := by
  obtain ⟨f, -, rfl⟩ := h
  rfl

theorem row_eq (i : ℕ) : t'.row i = t.row i := by simp only [row, h.rows_eq]

theorem contains_eq (i : ℕ) : t'.contains i = t.contains i := by simp only [contains, h.rows_eq]

theorem live_eq : t'.live = t.live := by simp only [live, h.rows_eq]

theorem edges_eq : t'.edges = t.edges := by
  obtain ⟨f, -, rfl⟩ := h
  rfl

theorem cap_eq : t'.cap = t.cap := by
  obtain ⟨f, -, rfl⟩ := h
  rfl

end Reshaped

end Table

end ToddCoxeter
