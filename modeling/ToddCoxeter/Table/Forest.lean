/-! # Forests of merged nodes

Every node ever made has an entry in a `Forest`: its parent, which is itself until the node is
merged into a smaller one.  Following the parents leads from a node to the root of its tree
(`Forest.root`), the node that stands for all of the tree.  `Forest.find` gives the root and lets the
nodes on the way point to it directly (`Forest.compress`), which shortens later ways and changes no
root. -/

namespace ToddCoxeter

/-- The parents of nodes `0` to `parent.size - 1`. -/
structure Forest where
  /-- The parent of each node; a root is its own parent. -/
  parent : Array Nat
deriving DecidableEq, Repr

namespace Forest

/-- The number of nodes in the forest, merged ones included. -/
def size (f : Forest) : Nat := f.parent.size

/-- The forest of `n` roots. -/
def discrete (n : Nat) : Forest := ⟨Array.range n⟩

/-- The forest with one root more. -/
def push (f : Forest) : Forest := ⟨f.parent.push f.parent.size⟩

/-- The forest in which `child` points to `parent`. -/
def link (f : Forest) (child parent : Nat) : Forest := ⟨f.parent.setIfInBounds child parent⟩

/-- The root of the tree that holds the node. -/
def root (f : Forest) (i : Nat) : Nat :=
  match f.parent[i]? with
  | some p => if p < i then f.root p else i
  | none => i
termination_by i

/-- The forest in which the node and those above it point to the root `r` directly. -/
def compress (f : Forest) (r i : Nat) : Forest :=
  match f.parent[i]? with
  | some p => if p < i ∧ p ≠ r then (f.link i r).compress r p else f
  | none => f
termination_by i

/-- The root of the node's tree, and the forest with a shorter way to it. -/
def find (f : Forest) (i : Nat) : Nat × Forest :=
  let r := f.root i
  (r, f.compress r i)

/-- The roots of several nodes, found one after the other. -/
def findAll (f : Forest) : List Nat → List Nat × Forest
  | [] => ([], f)
  | i :: is =>
    let (r, f) := f.find i
    let (rs, f) := f.findAll is
    (r :: rs, f)

/-! ### Sizes -/

@[simp] theorem size_push (f : Forest) : f.push.size = f.size + 1 := by simp [size, push]

@[simp] theorem size_link (f : Forest) (i p : Nat) : (f.link i p).size = f.size := by
  simp [size, link]

@[simp] theorem size_compress (f : Forest) (r i : Nat) : (f.compress r i).size = f.size := by
  fun_induction compress f r i with
  | case1 f i p hp h ih => rw [ih, size_link]
  | case2 | case3 => rfl

@[simp] theorem size_find (f : Forest) (i : Nat) : (f.find i).2.size = f.size := by simp [find]

@[simp] theorem size_findAll (f : Forest) (is : List Nat) : (f.findAll is).2.size = f.size := by
  induction is generalizing f with
  | nil => rfl
  | cons i is ih => simp [findAll, ih]

/-! ### Roots -/

theorem root_of_lt {f : Forest} {i p : Nat} (h : f.parent[i]? = some p) (hp : p < i) :
    f.root i = f.root p := by
  rw [root, h]
  exact if_pos hp

theorem root_of_forall_le {f : Forest} {i : Nat} (h : ∀ p, f.parent[i]? = some p → i ≤ p) :
    f.root i = i := by
  rw [root]
  split
  · next p hp => exact if_neg (Nat.not_lt.2 (h p hp))
  · rfl

theorem root_le (f : Forest) (i : Nat) : f.root i ≤ i := by
  fun_induction root f i <;> omega

@[simp] theorem root_root (f : Forest) (i : Nat) : f.root (f.root i) = f.root i := by
  fun_induction root f i with
  | case1 i p h hp ih => exact ih
  | case2 i p h hp =>
    refine root_of_forall_le fun q hq => ?_
    rw [h, Option.some.injEq] at hq
    omega
  | case3 i h => exact root_of_forall_le fun q hq => by simp [h] at hq

theorem root_link_of_root_eq {f : Forest} {i r : Nat} (hr : r < i) (h : f.root i = f.root r)
    (j : Nat) : (f.link i r).root j = f.root j := by
  induction j using Nat.strongRecOn with
  | ind j ih =>
    have hp : (f.link i r).parent[j]? =
        if i = j then (if i < f.parent.size then some r else none) else f.parent[j]? := by
      simp only [link, Array.getElem?_setIfInBounds]
    by_cases hij : i = j
    · subst hij
      by_cases hb : i < f.parent.size
      · simp only [hb, if_true] at hp
        rw [root_of_lt hp hr, ih r hr, h]
      · have hn : f.parent[i]? = none := by simpa using hb
        rw [root_of_forall_le fun q hq => by simp [hp, hb] at hq,
          root_of_forall_le fun q hq => by simp [hn] at hq]
    · rw [if_neg hij] at hp
      cases hj : f.parent[j]? with
      | none =>
        rw [root_of_forall_le fun q hq => by simp [hp, hj] at hq,
          root_of_forall_le fun q hq => by simp [hj] at hq]
      | some p =>
        rw [hj] at hp
        by_cases hlt : p < j
        · rw [root_of_lt hp hlt, root_of_lt hj hlt, ih p hlt]
        · rw [root_of_forall_le fun q hq => by rw [hp, Option.some.injEq] at hq; omega,
            root_of_forall_le fun q hq => by rw [hj, Option.some.injEq] at hq; omega]

/-- Compression of the way to the root changes no root. -/
theorem root_compress {f : Forest} {r i : Nat} (h : f.root i = r) (j : Nat) :
    (f.compress r i).root j = f.root j := by
  fun_induction compress f r i with
  | case1 f i p hp hlt ih =>
    have hroot : f.root p = r := by rw [← h, root_of_lt hp hlt.1]
    have hr : f.root r = r := by rw [← h, root_root]
    have hri : r < i := by
      have := root_le f p
      omega
    have hlink := root_link_of_root_eq hri (h.trans hr.symm)
    rw [ih (by rw [hlink, hroot]), hlink]
  | case2 | case3 => rfl

@[simp] theorem fst_find (f : Forest) (i : Nat) : (f.find i).1 = f.root i := rfl

@[simp] theorem root_snd_find (f : Forest) (i j : Nat) : (f.find i).2.root j = f.root j :=
  root_compress rfl j

@[simp] theorem root_snd_findAll (f : Forest) (is : List Nat) (j : Nat) :
    (f.findAll is).2.root j = f.root j := by
  induction is generalizing f with
  | nil => rfl
  | cons i is ih => simp [findAll, ih]

@[simp] theorem fst_findAll (f : Forest) (is : List Nat) :
    (f.findAll is).1 = is.map f.root := by
  induction is generalizing f with
  | nil => rfl
  | cons i is ih => simp [findAll, ih]

end Forest

end ToddCoxeter
