import Std.Data.TreeMap

/-! # Registers

A `Register` holds values under numbers, its keys, and lists them in the order in which they were
entered.  A new key comes last, a key that is entered again keeps its place and gets the new value,
and a key that is erased leaves the list, so that it would come last if it were entered once more.
The list says nothing about the size of the keys. -/

namespace ToddCoxeter

/-- Values under numbers, in the order in which these were entered. -/
structure Register (α : Type) where
  /-- The values by their keys. -/
  entries : Std.TreeMap Nat α
  /-- The keys in the order in which they were entered. -/
  keys : List Nat
  /-- Each key is listed once. -/
  nodup_keys : keys.Nodup
  /-- The keys are those of the values. -/
  mem_keys_iff : ∀ k, k ∈ keys ↔ k ∈ entries

namespace Register

variable {α β : Type}

/-- No values. -/
def empty : Register α where
  entries := ∅
  keys := []
  nodup_keys := .nil
  mem_keys_iff := by simp

/-- The number of keys. -/
def size (r : Register α) : Nat := r.entries.size

/-- Is there a value under this key? -/
def contains (r : Register α) (k : Nat) : Bool := r.entries.contains k

/-- The value under the key, if there is one. -/
def get? (r : Register α) (k : Nat) : Option α := r.entries[k]?

/-- The value under the key, or else the given one. -/
def getD (r : Register α) (k : Nat) (a : α) : α := (r.get? k).getD a

/-- The register with the value under the key, which comes last if it is new. -/
def insert (r : Register α) (k : Nat) (a : α) : Register α where
  entries := r.entries.insert k a
  keys := if r.contains k then r.keys else r.keys ++ [k]
  nodup_keys := by
    split
    case isTrue => exact r.nodup_keys
    case isFalse hk =>
      refine List.nodup_append.2 ⟨r.nodup_keys, by simp, fun i hi j hj => ?_⟩
      rintro rfl
      obtain rfl := List.mem_singleton.1 hj
      exact hk ((r.mem_keys_iff i).1 hi)
  mem_keys_iff i := by
    rw [Std.TreeMap.mem_insert, Nat.compare_eq_eq, ← r.mem_keys_iff]
    split
    case isTrue hk =>
      refine ⟨.inr, ?_⟩
      rintro (rfl | hi)
      · exact (r.mem_keys_iff k).2 hk
      · exact hi
    case isFalse => rw [List.mem_append, List.mem_singleton, or_comm, @eq_comm _ i]

/-- The register without the key. -/
def erase (r : Register α) (k : Nat) : Register α where
  entries := r.entries.erase k
  keys := r.keys.erase k
  nodup_keys := r.nodup_keys.erase k
  mem_keys_iff i := by
    rw [r.nodup_keys.mem_erase_iff, r.mem_keys_iff, Std.TreeMap.mem_erase, Ne, Ne,
      Nat.compare_eq_eq, @eq_comm _ i]

/-- The register with the value under the key changed, if there is one. -/
def modify (r : Register α) (k : Nat) (f : α → α) : Register α where
  entries := r.entries.modify k f
  keys := r.keys
  nodup_keys := r.nodup_keys
  mem_keys_iff i := by rw [r.mem_keys_iff, Std.TreeMap.mem_modify]

/-- Keys and values in the order of the keys. -/
def toList (r : Register α) : List (Nat × α) :=
  r.keys.filterMap fun k => (r.get? k).map (k, ·)

/-- The values in the order of their keys. -/
def values (r : Register α) : List α := r.toList.map (·.2)

/-- The register with the values under the keys, entered one after the other. -/
def ofList (entries : List (Nat × α)) : Register α :=
  entries.foldl (fun r entry => r.insert entry.1 entry.2) empty

/-! ### Values -/

section values

variable {r : Register α} {k i : Nat} {a : α} {f : α → α}

theorem contains_iff_mem_keys : r.contains k ↔ k ∈ r.keys := (r.mem_keys_iff k).symm

theorem contains_eq_isSome : r.contains k = (r.get? k).isSome :=
  Std.TreeMap.contains_eq_isSome_getElem?

theorem get?_eq_some_getD (hk : r.contains k) (a : α) : r.get? k = some (r.getD k a) := by
  rw [contains_eq_isSome] at hk
  obtain ⟨b, hb⟩ := Option.isSome_iff_exists.1 hk
  rw [getD, hb, Option.getD_some]

theorem getD_of_not_contains (hk : ¬ r.contains k) (d : α) : r.getD k d = d := by
  rw [contains_eq_isSome, Option.not_isSome_iff_eq_none] at hk
  rw [getD, hk, Option.getD_none]

@[simp] theorem contains_empty : (empty : Register α).contains k = false :=
  Std.TreeMap.contains_emptyc

@[simp] theorem getD_empty (d : α) : (empty : Register α).getD k d = d := by
  simp [getD, get?, empty]

theorem get?_insert : (r.insert k a).get? i = if k = i then some a else r.get? i := by
  simp only [get?, insert, Std.TreeMap.getElem?_insert, Nat.compare_eq_eq]

theorem get?_erase : (r.erase k).get? i = if k = i then none else r.get? i := by
  simp only [get?, erase, Std.TreeMap.getElem?_erase, Nat.compare_eq_eq]

theorem get?_modify : (r.modify k f).get? i = if k = i then (r.get? i).map f else r.get? i := by
  simp only [get?, modify, Std.TreeMap.getElem?_modify, Nat.compare_eq_eq]
  split
  case isTrue h => rw [h]
  case isFalse => rfl

theorem getD_insert (d : α) : (r.insert k a).getD i d = if k = i then a else r.getD i d := by
  rw [getD, get?_insert]
  split <;> rfl

theorem getD_erase (d : α) (h : k ≠ i) : (r.erase k).getD i d = r.getD i d := by
  rw [getD, get?_erase, if_neg h, getD]

theorem getD_modify (hk : r.contains k) (d : α) :
    (r.modify k f).getD i d = if k = i then f (r.getD i d) else r.getD i d := by
  rw [getD, get?_modify]
  split
  case isTrue h =>
    rw [← h, get?_eq_some_getD hk d]
    rfl
  case isFalse => rfl

theorem contains_insert : (r.insert k a).contains i ↔ i = k ∨ r.contains i := by
  rw [contains_eq_isSome, get?_insert, contains_eq_isSome, @eq_comm _ i]
  split <;> simp_all

theorem contains_erase : (r.erase k).contains i ↔ i ≠ k ∧ r.contains i := by
  rw [contains_eq_isSome, get?_erase, contains_eq_isSome, Ne, @eq_comm _ i]
  split <;> simp_all

@[simp] theorem contains_modify : (r.modify k f).contains i = r.contains i := by
  rw [contains_eq_isSome, get?_modify, contains_eq_isSome]
  split <;> simp

end values

/-! ### The order of the keys -/

section keys

variable {r : Register α} {k : Nat} {a : α} {f : α → α}

theorem keys_insert (hk : r.contains k = false) : (r.insert k a).keys = r.keys ++ [k] := by
  simp [insert, hk]

@[simp] theorem keys_erase : (r.erase k).keys = r.keys.erase k := rfl

@[simp] theorem keys_modify : (r.modify k f).keys = r.keys := rfl

theorem length_keys (r : Register α) : r.keys.length = r.size := by
  have hperm : r.keys.Perm r.entries.keys := by
    refine (List.perm_ext_iff_of_nodup r.nodup_keys Std.TreeMap.nodup_keys).2 fun k => ?_
    rw [r.mem_keys_iff, Std.TreeMap.mem_keys]
  rw [hperm.length_eq, Std.TreeMap.length_keys, size]

/-- Keys and values are listed in the order of the keys. -/
theorem toList_eq (r : Register α) (d : α) : r.toList = r.keys.map fun k => (k, r.getD k d) := by
  have hall : ∀ ks : List Nat, (∀ k ∈ ks, r.contains k) →
      ks.filterMap (fun k => (r.get? k).map (k, ·)) = ks.map fun k => (k, r.getD k d) := by
    intro ks hks
    induction ks with
    | nil => rfl
    | cons k ks ih =>
        obtain ⟨hk, hks⟩ := List.forall_mem_cons.1 hks
        rw [List.filterMap_cons, get?_eq_some_getD hk d, ih hks]
        rfl
  exact hall r.keys fun k hk => contains_iff_mem_keys.2 hk

/-- Different keys are listed as they were entered. -/
theorem keys_foldl_insert (es : List (Nat × α)) (hes : (r.keys ++ es.map (·.1)).Nodup) :
    (es.foldl (fun r entry => r.insert entry.1 entry.2) r).keys = r.keys ++ es.map (·.1) := by
  induction es generalizing r with
  | nil => simp
  | cons e es ih =>
      have hnew : r.contains e.1 = false := by
        rw [← Bool.not_eq_true, contains_iff_mem_keys]
        exact fun hmem => (List.nodup_append.1 hes).2.2 e.1 hmem e.1 (by simp) rfl
      rw [List.foldl_cons, ih, keys_insert hnew, List.append_assoc]
      · rfl
      · rwa [keys_insert hnew, List.append_assoc]

theorem keys_ofList {es : List (Nat × α)} (hes : (es.map (·.1)).Nodup) :
    (ofList es).keys = es.map (·.1) := keys_foldl_insert es hes

theorem get?_foldl_insert {es : List (Nat × α)} (hes : (es.map (·.1)).Nodup) {i : Nat} {b : α}
    (h : (i, b) ∈ es ∨ i ∉ es.map (·.1) ∧ r.get? i = some b) :
    (es.foldl (fun r entry => r.insert entry.1 entry.2) r).get? i = some b := by
  induction es generalizing r with
  | nil => simpa using h
  | cons e es ih =>
      obtain ⟨hne, hes⟩ := List.nodup_cons.1 hes
      refine ih hes ?_
      rw [List.mem_cons, List.map_cons, List.mem_cons, not_or] at h
      rw [get?_insert]
      rcases h with (rfl | hmem) | ⟨⟨hei, hi⟩, hget⟩
      · exact .inr ⟨hne, if_pos rfl⟩
      · exact .inl hmem
      · exact .inr ⟨hi, by rwa [if_neg (Ne.symm hei)]⟩

theorem getD_ofList {es : List (Nat × α)} (hes : (es.map (·.1)).Nodup) {i : Nat} {b : α}
    (h : (i, b) ∈ es) (d : α) : (ofList es).getD i d = b := by
  have hget : (ofList es).get? i = some b := get?_foldl_insert hes (.inl h)
  rw [getD, hget, Option.getD_some]

theorem size_erase (hk : r.contains k) : (r.erase k).size + 1 = r.size := by
  have hmem := contains_iff_mem_keys.1 hk
  have hpos := List.length_pos_of_mem hmem
  rw [← length_keys, ← length_keys, keys_erase, List.length_erase_of_mem hmem]
  omega

@[simp] theorem size_modify : (r.modify k f).size = r.size := by
  rw [← length_keys, ← length_keys, keys_modify]

end keys

end Register

end ToddCoxeter
