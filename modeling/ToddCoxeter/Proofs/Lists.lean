import Mathlib.Data.List.Nodup
import Mathlib.Data.List.Perm.Subperm
import Mathlib.Data.List.Range
import Mathlib.Tactic

/-! # Lists

Facts about lists that the theory of tables and the reading of relations need: a function that may fail,
applied to all entries (`mapM_eq_some`, `mapM_eq_ok_iff`), folds that may fail (`foldlM_cons_eq_ok_iff`),
the place of an entry in a list (`exists_concat_eq_append_cons`), lists without repetition
(`nodup_eraseDups`, `perm_range_of_nodup`), and filters with disjoint properties
(`filter_append_filter_perm`). -/

namespace ToddCoxeter

theorem mapM_eq_some {α β : Type} {f : α → Option β} {g : α → β} {l : List α}
    (h : ∀ a ∈ l, f a = some (g a)) : l.mapM f = some (l.map g) := by
  induction l with
  | nil => rfl
  | cons a l ih =>
      rw [List.mapM_cons, h a List.mem_cons_self, ih fun b hb => h b (List.mem_cons_of_mem a hb)]
      rfl

/-- A function that may fail succeeds on all entries of a list if it does on each of them. -/
theorem mapM_eq_ok_iff {ε α β : Type} {f : α → Except ε β} {xs : List α} {ys : List β} :
    xs.mapM f = .ok ys ↔ List.Forall₂ (fun x y => f x = .ok y) xs ys := by
  induction xs generalizing ys with
  | nil => cases ys <;> simp [pure, Except.pure]
  | cons x xs ih =>
      rw [List.mapM_cons]
      cases hx : f x with
      | error e => cases ys <;> simp [hx, bind, Except.bind]
      | ok y =>
          cases hxs : xs.mapM f <;> cases ys <;>
            simp [hx, hxs, ← ih, bind, Except.bind, pure, Except.pure]

theorem length_of_mapM_eq_ok {ε α β : Type} {f : α → Except ε β} {xs : List α} {ys : List β}
    (h : xs.mapM f = .ok ys) : ys.length = xs.length :=
  (mapM_eq_ok_iff.1 h).length_eq.symm

theorem exists_of_mapM_eq_ok {ε α β : Type} {f : α → Except ε β} {xs : List α} {ys : List β}
    (h : xs.mapM f = .ok ys) {x : α} (hx : x ∈ xs) : ∃ y ∈ ys, f x = .ok y := by
  obtain ⟨k, hk, rfl⟩ := List.getElem_of_mem hx
  have hk' : k < ys.length := (length_of_mapM_eq_ok h).symm ▸ hk
  exact ⟨ys[k], List.getElem_mem hk', (mapM_eq_ok_iff.1 h).get hk hk'⟩

theorem exists_of_mapM_eq_error {ε α β : Type} {f : α → Except ε β} {xs : List α} {e : ε}
    (h : xs.mapM f = .error e) : ∃ x ∈ xs, f x = .error e := by
  induction xs with
  | nil => simp [pure, Except.pure] at h
  | cons x xs ih =>
      rw [List.mapM_cons] at h
      cases hx : f x with
      | error e' =>
          obtain rfl : e' = e := by simpa [hx, bind, Except.bind] using h
          exact ⟨x, List.mem_cons_self, hx⟩
      | ok y =>
          cases hxs : xs.mapM f with
          | error e' =>
              obtain rfl : e' = e := by simpa [hx, hxs, bind, Except.bind] using h
              obtain ⟨x', hx', he⟩ := ih hxs
              exact ⟨x', List.mem_cons_of_mem x hx', he⟩
          | ok ys => simp [hx, hxs, bind, Except.bind, pure, Except.pure] at h

theorem forM_eq_ok_iff {ε α : Type} {f : α → Except ε Unit} {xs : List α} :
    forM xs f = .ok () ↔ ∀ x ∈ xs, f x = .ok () := by
  induction xs with
  | nil => simp [pure, Except.pure]
  | cons x xs ih =>
      rw [List.forM_cons, List.forall_mem_cons, ← ih]
      cases hx : f x with
      | error e => simp [bind, Except.bind]
      | ok u => simp [bind, Except.bind]

theorem exists_of_forM_eq_error {ε α : Type} {f : α → Except ε Unit} {xs : List α} {e : ε}
    (h : forM xs f = .error e) : ∃ x ∈ xs, f x = .error e := by
  induction xs with
  | nil => simp [pure, Except.pure] at h
  | cons x xs ih =>
      rw [List.forM_cons] at h
      cases hx : f x with
      | error e' =>
          obtain rfl : e' = e := by simpa [hx, bind, Except.bind] using h
          exact ⟨x, List.mem_cons_self, hx⟩
      | ok u =>
          obtain ⟨x', hx', he⟩ := ih (by simpa [hx, bind, Except.bind] using h)
          exact ⟨x', List.mem_cons_of_mem x hx', he⟩

section foldlM

variable {ε α β : Type} {f : β → α → Except ε β} {b c : β}

/-- A fold over a list succeeds if its first step does and then the fold over the rest. -/
theorem foldlM_cons_eq_ok_iff {a : α} {as : List α} :
    (a :: as).foldlM f b = .ok c ↔ ∃ d, f b a = .ok d ∧ as.foldlM f d = .ok c := by
  rw [List.foldlM_cons]
  cases f b a <;> simp [bind, Except.bind]

theorem foldlM_append_eq_ok_iff {as bs : List α} :
    (as ++ bs).foldlM f b = .ok c ↔ ∃ d, as.foldlM f b = .ok d ∧ bs.foldlM f d = .ok c := by
  rw [List.foldlM_append]
  cases as.foldlM f b <;> simp [bind, Except.bind]

theorem exists_of_foldlM_eq_error {as : List α} {e : ε} (h : as.foldlM f b = .error e) :
    ∃ d, ∃ a ∈ as, f d a = .error e := by
  induction as generalizing b with
  | nil => simp [pure, Except.pure] at h
  | cons a as ih =>
      rw [List.foldlM_cons] at h
      cases ha : f b a with
      | error e' =>
          obtain rfl : e' = e := by simpa [ha, bind, Except.bind] using h
          exact ⟨b, a, List.mem_cons_self, ha⟩
      | ok d =>
          obtain ⟨d', a', ha', hd'⟩ := ih (by simpa [ha, bind, Except.bind] using h)
          exact ⟨d', a', List.mem_cons_of_mem a ha', hd'⟩

end foldlM

/-- An entry of a list with one more entry at the end is that one or an entry of the list. -/
theorem exists_concat_eq_append_cons {α : Type} {l : List α} {a x : α} {P : List α → List α → Prop} :
    (∃ as bs, l ++ [a] = as ++ x :: bs ∧ P as bs) ↔
      (a = x ∧ P l []) ∨ ∃ as bs, l = as ++ x :: bs ∧ P as (bs ++ [a]) := by
  constructor
  · rintro ⟨as, bs, heq, hP⟩
    rcases List.eq_nil_or_concat bs with rfl | ⟨bs, b, rfl⟩
    · obtain ⟨rfl, hx⟩ := List.append_inj' heq rfl
      exact .inl ⟨List.singleton_inj.1 hx, hP⟩
    · rw [List.concat_eq_append] at heq hP
      rw [← List.cons_append, ← List.append_assoc] at heq
      obtain ⟨hl, hb⟩ := List.append_inj' heq rfl
      obtain rfl := List.singleton_inj.1 hb
      exact .inr ⟨as, bs, hl, hP⟩
  · rintro (⟨rfl, hP⟩ | ⟨as, bs, rfl, hP⟩)
    · exact ⟨l, [], rfl, hP⟩
    · exact ⟨as, bs ++ [a], by simp, hP⟩

theorem nodup_eraseDups {α : Type} [DecidableEq α] (l : List α) : l.eraseDups.Nodup := by
  induction h : l.length using Nat.strongRecOn generalizing l with
  | ind n ih =>
      cases l with
      | nil => simp
      | cons a l =>
          rw [List.eraseDups_cons, List.nodup_cons]
          refine ⟨?_, ih _ ?_ _ rfl⟩
          · simp [List.mem_eraseDups]
          · have := List.length_filter_le (fun b => !b == a) l
            simp only [List.length_cons] at h
            omega

theorem length_eraseDups_eq_iff {l : List String} : l.eraseDups.length = l.length ↔ l.Nodup := by
  have hsub : l.eraseDups.Subperm l :=
    (nodup_eraseDups l).subperm fun _ ha => List.mem_eraseDups.1 ha
  constructor
  · exact fun h => (hsub.perm_of_length_le h.ge).nodup_iff.1 (nodup_eraseDups l)
  · exact fun h => hsub.length_le.antisymm (h.subperm fun _ ha => List.mem_eraseDups.2 ha).length_le

/-- If entries are different numbers below the length of the list, then each of these is there once. -/
theorem perm_range_of_nodup {l : List ℕ} (hnodup : l.Nodup) (hlt : ∀ k ∈ l, k < l.length) :
    l.Perm (List.range l.length) :=
  (hnodup.subperm fun k hk => List.mem_range.2 (hlt k hk)).perm_of_length_le (by simp)

/-- Of a list, the entries with the first property and those with the second are together the entries
with either, if none has both. -/
theorem filter_append_filter_perm {α : Type} {p q : α → Bool} (l : List α)
    (hpq : ∀ a, p a → q a = false) :
    (l.filter p ++ l.filter q).Perm (l.filter fun a => p a || q a) := by
  have hp : l.filter p = (l.filter fun a => p a || q a).filter p := by
    rw [List.filter_filter]
    refine List.filter_congr fun a _ => ?_
    cases p a <;> simp
  have hq : l.filter q = (l.filter fun a => p a || q a).filter fun a => !p a := by
    rw [List.filter_filter]
    refine List.filter_congr fun a _ => ?_
    cases hpa : p a <;> simp [hpq a, hpa]
  rw [hp, hq]
  exact List.filter_append_perm ..

end ToddCoxeter
