import Mathlib.Order.Filter.AtTopBot.Basic
import ToddCoxeter.Proofs.Enumeration.Round
import ToddCoxeter.Proofs.Group.Covering

/-! # Enumerations that never end

Suppose that an enumeration goes on for ever, through the tables `T 0`, `T 1`, … (`Table.Chain`).  The nodes
that survive are those that are alive from some time on (`Table.survivors`), and a letter leads from one to
another in the limit if it does so from some time on (`Table.LeadsFinally`).

Every node that survives is completed some day, since the first incomplete node becomes larger with every
round, and the node that stands for another becomes constant, since it can only become smaller.  So the
letters act on the surviving nodes, and relators act trivially (`Table.Chain.covers`).  All of them are
reached from the first node, hence they stand for different elements of the group.  If the group is finite,
then at some time there are no other live nodes and all of them are complete, and the enumeration does end
(`Table.Chain.infinite_element`). -/

namespace ToddCoxeter.Table

open Filter

/-- The tables of an enumeration that goes on for ever. -/
structure Chain (p : Presentation) (T : ℕ → Table) : Prop where
  settled : ∀ n, Settled p (T n)
  grows : ∀ n, Grows (T n) (T (n + 1))
  pending : ∀ n, ∃ i, (T n).pending? = some i ∧
    ∀ j ≤ i, (T (n + 1)).contains j → ((T (n + 1)).row j).complete

/-- The nodes that are alive from some time on. -/
def survivors (T : ℕ → Table) : Set ℕ := {i | ∀ᶠ n in atTop, (T n).contains i}

/-- The letter leads from one node to the other from some time on. -/
def LeadsFinally (T : ℕ → Table) (i : ℕ) (x : Letter) (j : ℕ) : Prop :=
  ∀ᶠ n in atTop, (T n).Leads i x j

namespace Chain

variable {p : Presentation} {T : ℕ → Table} (h : Chain p T) {i j : ℕ} {x : Letter} {w : Word}
include h

theorem grows_of_le {m n : ℕ} (hmn : m ≤ n) : Grows (T m) (T n) := by
  induction n, hmn using Nat.le_induction with
  | base => exact .refl _
  | succ n _ ih => exact ih.trans (h.grows n)

theorem le_of_pending?_eq {n : ℕ} (hi : (T n).pending? = some i) : n ≤ i := by
  induction n generalizing i with
  | zero => exact Nat.zero_le i
  | succ n ih =>
      obtain ⟨k, hk, hdone⟩ := h.pending n
      obtain ⟨hci, hinc⟩ := pending?_eq_some hi
      have hki : k < i := Nat.not_le.1 fun hik => hinc (hdone i hik hci)
      have := ih hk
      omega

/-- Every node is completed or dropped some day. -/
theorem eventually_complete (i : ℕ) :
    ∀ᶠ n in atTop, (T n).contains i → ((T n).row i).complete := by
  filter_upwards [eventually_gt_atTop i] with n hn hi
  obtain ⟨k, hk, -⟩ := h.pending n
  exact (h.settled n).wellFormed.complete_of_lt_pending? hk hi (hn.trans_le (h.le_of_pending?_eq hk))

theorem exists_root {n : ℕ} (hi : i < (T n).forest.size) :
    ∃ j ∈ survivors T, ∀ᶠ m in atTop, (T m).root i = j := by
  -- Roots only become smaller, so from the time of the least one on they stay the same.
  obtain ⟨m, hm⟩ : ∃ m, ∀ k, (T m).root i ≤ (T k).root i :=
    ⟨Function.argmin fun m => (T m).root i, fun k => Function.argmin_le (fun m => (T m).root i) k⟩
  have hconst : ∀ᶠ k in atTop, (T k).root i = (T m).root i := by
    filter_upwards [eventually_ge_atTop m] with k hk
    exact Nat.le_antisymm ((h.grows_of_le hk).root_le i) (hm k)
  refine ⟨(T m).root i, ?_, hconst⟩
  have hlive : ∀ᶠ k in atTop, (T k).contains ((T m).root i) := by
    filter_upwards [hconst, eventually_ge_atTop n] with k hk hnk
    rw [← hk]
    exact (h.settled k).wellFormed.contains_root ((h.grows_of_le hnk).lt_size hi)
  exact hlive

/-- What leads to a node leads, from some time on, to the one that stands for it. -/
theorem exists_leadsFinally (hi : i ∈ survivors T) (hx : x.gen ∈ p.generators) :
    ∃ j ∈ survivors T, LeadsFinally T i x j := by
  have hi : ∀ᶠ n in atTop, (T n).contains i := hi
  obtain ⟨n, hcn, hdone⟩ := (hi.and (h.eventually_complete i)).exists
  obtain ⟨k, hk⟩ := (h.settled n).leads i hcn (hdone hcn) x hx
  have hklt := (h.settled n).wellFormed.lt_of_contains
    ((h.settled n).wellFormed.contains_of_leads hk).2
  obtain ⟨j, hj, hroot⟩ := h.exists_root hklt
  refine ⟨j, hj, ?_⟩
  filter_upwards [hroot, hi, eventually_ge_atTop n] with m hm hcm hnm
  exact hm ▸ (h.grows_of_le hnm).leads_of_contains (h.settled m).wellFormed hcm hk

theorem acts : p.Acts (survivors T) (LeadsFinally T) := by
  refine ⟨fun i x j _ hx => ?_, fun i x j hx => ?_, fun i x hx j k hj hk => ?_, fun i hi x hx => ?_⟩
  · have hlive : ∀ᶠ n in atTop, (T n).contains j := hx.mono fun n hn =>
      ((h.settled n).wellFormed.contains_of_leads hn).2
    exact hlive
  · exact hx.mono fun n => Leads.inverse
  · obtain ⟨n, hj, hk⟩ := (hj.and hk).exists
    exact (h.settled n).singleValued i x hx j k hj hk
  · obtain ⟨j, -, hj⟩ := h.exists_leadsFinally hi hx
    exact ⟨j, hj⟩

omit h in
theorem eventually_path (hw : Path (LeadsFinally T) i w j) :
    ∀ᶠ n in atTop, Path (T n).Leads i w j := by
  induction w generalizing i with
  | nil => exact .of_forall fun _ => hw
  | cons x w ih =>
      obtain ⟨k, hk, hj⟩ := hw
      exact (hk.and (ih hj)).mono fun n hn => ⟨k, hn⟩

theorem zero_mem : 0 ∈ survivors T :=
  Eventually.of_forall fun n => (h.settled n).wellFormed.contains_zero

/-- Letters act on the surviving nodes, and relators act trivially. -/
theorem covers (hp : p.Valid) : p.Covers (survivors T) (LeadsFinally T) := by
  refine ⟨h.acts, fun i hi r hr => ?_⟩
  have hr' := hp.allows_relators r hr
  obtain ⟨j, hj⟩ := h.acts.exists_path hi hr'
  have hi : ∀ᶠ n in atTop, (T n).contains i := hi
  obtain ⟨n, ⟨hcn, hdone⟩, hpath⟩ := ((hi.and (h.eventually_complete i)).and (eventually_path hj)).exists
  have hback := (h.settled n).closes i hcn (hdone hcn) r hr
  rwa [Path.unique (h.settled n).singleValued hr' hpath hback] at hj

theorem exists_path (hi : i ∈ survivors T) : ∃ w, p.Allows w ∧ Path (LeadsFinally T) 0 w i := by
  have hi : ∀ᶠ n in atTop, (T n).contains i := hi
  obtain ⟨n, hcn⟩ := hi.exists
  obtain ⟨w, hw, hpath⟩ := (h.settled n).exists_path hcn
  obtain ⟨j, hj⟩ := h.acts.exists_path h.zero_mem hw
  obtain ⟨m, ⟨hcm, hjm⟩, hnm⟩ :=
    ((hi.and (eventually_path hj)).and (eventually_ge_atTop n)).exists
  have hs' := (h.settled m).wellFormed
  have hpath' := (h.grows_of_le hnm).path_of_contains hs' hs'.contains_zero hcm hpath
  rw [Path.unique (h.settled m).singleValued hw hjm hpath'] at hj
  exact ⟨w, hw, hj⟩

/-- If finitely many nodes survive, then at some time all live nodes have been completed. -/
theorem not_finite_survivors : ¬ (survivors T).Finite := by
  intro hfin
  have hdone : ∀ᶠ n in atTop, ∀ i ∈ survivors T, ((T n).row i).complete := by
    refine (eventually_all_finite hfin).2 fun i hi => ?_
    have hi : ∀ᶠ n in atTop, (T n).contains i := hi
    exact (hi.and (h.eventually_complete i)).mono fun n hn => hn.2 hn.1
  have hleads : ∀ᶠ n in atTop, ∀ i ∈ survivors T, ∀ x ∈ {x | x ∈ p.letters},
      ∃ j ∈ survivors T, (T n).Leads i x j := by
    refine (eventually_all_finite hfin).2 fun i hi => ?_
    refine (eventually_all_finite (List.finite_toSet p.letters)).2 fun x hx => ?_
    obtain ⟨j, hj, hlead⟩ := h.exists_leadsFinally hi (Letter.mem_signed.1 hx)
    exact hlead.mono fun n hn => ⟨j, hj, hn⟩
  obtain ⟨n, hdone, hleads⟩ := (hdone.and hleads).exists
  have hs := h.settled n
  obtain ⟨q, hq, -⟩ := h.pending n
  obtain ⟨hcq, hinc⟩ := pending?_eq_some hq
  obtain ⟨w, hw, hpath⟩ := hs.exists_path hcq
  refine hinc (hdone q (hpath.mem (fun i hi x hx k hk => ?_) h.zero_mem))
  obtain ⟨j, hj, hlead⟩ := hleads i hi x (Letter.mem_signed.2 (hw x hx))
  rwa [hs.singleValued i x (hw x hx) k j hk hlead]

/-- An enumeration that goes on for ever enumerates an infinite group. -/
theorem infinite_element (hp : p.Valid) : ¬ Finite p.Element := by
  intro hfin
  obtain ⟨f, hinj, -⟩ := (h.covers hp).exists_injective hp h.zero_mem fun i hi => h.exists_path hi
  exact h.not_finite_survivors (Set.finite_coe_iff.1 (Finite.of_injective f hinj))

end Chain

end ToddCoxeter.Table
