import ToddCoxeter.Proofs.Enumeration.LoopInvariant

/-! # Every round makes a table smaller

Read the live nodes of a table in order, and for each of them the nodes to which the letters lead.  An
entry of a complete node is the number of live nodes before the one that it leads to, and every other
entry is the cap (`Table.entry`).  This sequence of digits is read as a number to the base `cap + 1`
(`Table.weight`).

A round makes this number smaller (`Table.Rounds.weight_lt`).  If no node up to the first incomplete one
is dropped, then that node becomes complete, and the entries before it do not grow.  Otherwise some
smaller node leads to the first node that is dropped, and that entry falls.  The number is less than
`2 ^ roundBits - 1` to begin with, so the loop comes to an end (`Table.Settled.exists_steps_eq`). -/

namespace ToddCoxeter

/-! ### Sequences of digits -/

/-- The number that the first `n` digits write to the base `b`. -/
def number (b : ℕ) (d : ℕ → ℕ) : ℕ → ℕ
  | 0 => 0
  | n + 1 => number b d n * b + d n

section number

variable {b m n : ℕ} {d d' : ℕ → ℕ}

theorem number_le (h : ∀ k < n, d' k ≤ d k) : number b d' n ≤ number b d n := by
  induction n with
  | zero => exact Nat.le_refl 0
  | succ n ih =>
      have hinit := Nat.mul_le_mul_right b (ih fun k hk => h k (by omega))
      have hlast := h n (by omega)
      unfold number
      omega

/-- The first digit that differs decides. -/
theorem number_lt (hd : ∀ k, d' k < b) (hle : ∀ k < m, d' k ≤ d k) (hlt : d' m < d m) (hm : m < n) :
    number b d' n < number b d n := by
  induction n with
  | zero => exact absurd hm (Nat.not_lt_zero m)
  | succ n ih =>
      unfold number
      rcases Nat.lt_succ_iff_lt_or_eq.1 hm with hm | rfl
      · have hinit := Nat.mul_le_mul_right b (Nat.succ_le_of_lt (ih hm))
        rw [Nat.succ_mul] at hinit
        have := hd n
        omega
      · have hinit := Nat.mul_le_mul_right b (number_le (b := b) hle)
        omega

theorem number_lt_pow (hd : ∀ k, d k < b) (n : ℕ) : number b d n < b ^ n := by
  induction n with
  | zero => exact Nat.one_pos
  | succ n ih =>
      have hinit := Nat.mul_le_mul_right b (Nat.succ_le_of_lt ih)
      rw [Nat.succ_mul] at hinit
      unfold number
      rw [Nat.pow_succ]
      have := hd n
      omega

end number

namespace Table

variable {p : Presentation} {t t' : Table} {i j : ℕ} {x : Letter}

/-! ### Ranks -/

/-- The number of live nodes before `i`. -/
def rank (t : Table) (i : ℕ) : ℕ := (t.ids.toFinset.filter (· < i)).card

theorem mem_filter_ids {k : ℕ} :
    k ∈ t.ids.toFinset.filter (· < i) ↔ t.contains k ∧ k < i := by
  rw [Finset.mem_filter, List.mem_toFinset, contains_iff_mem_ids]

theorem rank_le_live (t : Table) (i : ℕ) : t.rank i ≤ t.live := by
  rw [← length_ids, ← List.toFinset_card_of_nodup t.nodup_ids]
  exact Finset.card_filter_le _ _

theorem rank_lt_live (hi : t.contains i) : t.rank i < t.live := by
  rw [← length_ids, ← List.toFinset_card_of_nodup t.nodup_ids]
  refine Finset.card_lt_card (Finset.filter_ssubset.2 ⟨i, ?_, Nat.lt_irrefl i⟩)
  exact List.mem_toFinset.2 (contains_iff_mem_ids.1 hi)

/-- Ranks compare as the nodes before them do, if a node separates them. -/
theorem rank_lt (h : ∀ k < j, t'.contains k → t.contains k) (hji : j < i) (hj : t.contains j) :
    t'.rank j < t.rank i := by
  refine Finset.card_lt_card ((Finset.ssubset_iff_of_subset fun k hk => ?_).2 ⟨j, ?_, ?_⟩)
  · obtain ⟨hk, hkj⟩ := mem_filter_ids.1 hk
    exact mem_filter_ids.2 ⟨h k hkj hk, hkj.trans hji⟩
  · exact mem_filter_ids.2 ⟨hj, hji⟩
  · exact fun hmem => Nat.lt_irrefl j (mem_filter_ids.1 hmem).2

theorem rank_le (h : ∀ k < j, t'.contains k → t.contains k) (hji : j ≤ i) :
    t'.rank j ≤ t.rank i := by
  refine Finset.card_le_card fun k hk => ?_
  obtain ⟨hk, hkj⟩ := mem_filter_ids.1 hk
  exact mem_filter_ids.2 ⟨h k hkj hk, by omega⟩

theorem le_of_rank_le (hi : t.contains i) (h : t.rank j ≤ t.rank i) : j ≤ i := by
  by_contra hlt
  have hsame : ∀ k < i, t.contains k → t.contains k := fun _ _ hk => hk
  have := rank_lt hsame (Nat.not_le.1 hlt) hi
  omega

theorem eq_of_rank_eq (hi : t.contains i) (hj : t.contains j) (h : t.rank i = t.rank j) : i = j := by
  have hij := le_of_rank_le hj h.le
  have hji := le_of_rank_le hi h.ge
  omega

/-! ### Entries -/

/-- The rank of the node to which the letter leads from a complete node; the cap for other nodes. -/
def entry (t : Table) (i : ℕ) (x : Letter) : ℕ :=
  if (t.row i).complete then t.rank ((t.neighbours i x).1.headD i) else t.cap

/-- The entry at a place of the sequence, or the cap after its end. -/
def digit (t : Table) (letters : List Letter) (k : ℕ) : ℕ :=
  match t.ids.find? (t.rank · = k / letters.length), letters[k % letters.length]? with
  | some i, some x => t.entry i x
  | _, _ => t.cap

/-- The number that the entries write. -/
def weight (p : Presentation) (t : Table) : ℕ :=
  number (t.cap + 1) (t.digit p.letters) (p.letters.length * t.cap)

theorem entry_le (h : t.live ≤ t.cap) (i : ℕ) (x : Letter) : t.entry i x ≤ t.cap := by
  unfold entry
  split_ifs
  · exact (t.rank_le_live _).trans h
  · exact Nat.le_refl _

theorem digit_le (h : t.live ≤ t.cap) (letters : List Letter) (k : ℕ) :
    t.digit letters k ≤ t.cap := by
  unfold digit
  split
  · exact entry_le h _ _
  · exact Nat.le_refl _

theorem find?_rank (hi : t.contains i) : t.ids.find? (t.rank · = t.rank i) = some i := by
  cases hfind : t.ids.find? (t.rank · = t.rank i) with
  | none =>
      exact absurd (decide_eq_true rfl) (List.find?_eq_none.1 hfind i (contains_iff_mem_ids.1 hi))
  | some j =>
      have hj := contains_iff_mem_ids.2 (List.mem_of_find?_eq_some hfind)
      have hrank : t.rank j = t.rank i := by simpa using List.find?_some hfind
      rw [eq_of_rank_eq hj hi hrank]

theorem digit_eq {letters : List Letter} {k : ℕ} (hi : t.contains i)
    (hk : k / letters.length = t.rank i) (hx : letters[k % letters.length]? = some x) :
    t.digit letters k = t.entry i x := by
  unfold digit
  rw [hk, find?_rank hi, hx]

/-! ### The entries after a round -/

section Rounds

variable (h : Settled p t) (hr : Rounds p t t')
include h hr

theorem Rounds.rank_root_le (hj : t.contains j) : t'.rank (t'.root j) ≤ t.rank j := by
  have hlt := h.wellFormed.lt_of_contains hj
  have hle := t'.root_le j
  exact rank_le (fun k hk hc => hr.grows.contains k (by omega) hc) hle

theorem Rounds.entry_le (hi : t.contains i) (hi' : t'.contains i) (hx : x ∈ p.letters) :
    t'.entry i x ≤ t.entry i x := by
  by_cases hc : (t.row i).complete
  · obtain ⟨j, hj⟩ := h.leads i hi hc x (Letter.mem_signed.1 hx)
    have hnb := h.neighbours_eq hi (Letter.mem_signed.1 hx) hj
    obtain ⟨hc', hkeeps⟩ := h.persists hr.settled hr.grows hi hc hi'
    unfold entry
    rw [if_pos hc, if_pos hc', hnb, hkeeps x hx j hnb]
    exact hr.rank_root_le h (h.wellFormed.contains_of_leads hj).2
  · rw [entry.eq_1 t, if_neg hc, ← hr.cap_eq]
    exact Table.entry_le hr.settled.live_le_cap i x

theorem Rounds.rank_eq (hstay : ∀ j ≤ i, t.contains j → t'.contains j) (hji : j ≤ i)
    (hj : t.contains j) : t'.rank j = t.rank j := by
  have hlt := h.wellFormed.lt_of_contains hj
  have hle : t'.rank j ≤ t.rank j :=
    rank_le (fun k hk hc => hr.grows.contains k (by omega) hc) (Nat.le_refl j)
  have hge : t.rank j ≤ t'.rank j :=
    rank_le (fun k hk hc => hstay k (by omega) hc) (Nat.le_refl j)
  omega

theorem Rounds.digit_le (hi : t.contains i) (hstay : ∀ j ≤ i, t.contains j → t'.contains j) {k : ℕ}
    (hk : k / p.letters.length ≤ t.rank i) : t'.digit p.letters k ≤ t.digit p.letters k := by
  have hcap := Table.digit_le hr.settled.live_le_cap p.letters k
  rw [hr.cap_eq] at hcap
  rw [digit.eq_1 t]
  split
  · next j y hfind hy =>
      have hj := contains_iff_mem_ids.2 (List.mem_of_find?_eq_some hfind)
      have hkj : t.rank j = k / p.letters.length := by simpa using List.find?_some hfind
      have hji := le_of_rank_le hi (hkj.trans_le hk)
      have hrank := hr.rank_eq h hstay hji hj
      rw [digit_eq (hstay j hji hj) (hkj.symm.trans hrank.symm) hy]
      exact hr.entry_le h hj (hstay j hji hj) (List.mem_of_getElem? hy)
  · exact hcap

/-- If the nodes up to `i` stay alive and an entry of `i` falls, then the weight falls. -/
theorem Rounds.weight_lt_of_entry_lt (hi : t.contains i)
    (hstay : ∀ j ≤ i, t.contains j → t'.contains j) (hx : x ∈ p.letters)
    (hlt : t'.entry i x < t.entry i x) : weight p t' < weight p t := by
  obtain ⟨l, hl, rfl⟩ := List.getElem_of_mem hx
  have hpos : 0 < p.letters.length := Nat.zero_lt_of_lt hl
  have hdiv : (p.letters.length * t.rank i + l) / p.letters.length = t.rank i := by
    rw [Nat.mul_add_div hpos, Nat.div_eq_of_lt hl, Nat.add_zero]
  have hmod : p.letters[(p.letters.length * t.rank i + l) % p.letters.length]? =
      some p.letters[l] := by
    rw [Nat.mul_add_mod, Nat.mod_eq_of_lt hl, List.getElem?_eq_getElem hl]
  have hi' := hstay i (Nat.le_refl i) hi
  unfold weight
  rw [hr.cap_eq]
  refine number_lt (m := p.letters.length * t.rank i + l) (fun k => ?_) (fun k hk => ?_) ?_ ?_
  · rw [Nat.lt_succ_iff, ← hr.cap_eq]
    exact Table.digit_le hr.settled.live_le_cap _ k
  · refine hr.digit_le h hi hstay (Nat.lt_succ_iff.1 ((Nat.div_lt_iff_lt_mul hpos).2 ?_))
    rw [Nat.succ_mul, Nat.mul_comm (t.rank i)]
    omega
  · have hrank := hr.rank_eq h hstay (Nat.le_refl i) hi
    rw [digit_eq hi hdiv hmod, digit_eq hi' (hdiv.trans hrank.symm) hmod]
    exact hlt
  · have hlive := (rank_lt_live hi).trans_le h.live_le_cap
    have hmul := Nat.mul_le_mul_left p.letters.length (Nat.succ_le_of_lt hlive)
    rw [Nat.mul_succ] at hmul
    omega

/-- If no node up to the first incomplete one is dropped, then the row of that one falls, since it has
been completed. -/
theorem Rounds.weight_lt_of_forall_contains (hp : p.Valid) (hi : t.pending? = some i)
    (hstay : ∀ j ≤ i, t.contains j → t'.contains j) (hdone : (t'.row i).complete) :
    weight p t' < weight p t := by
  obtain ⟨hci, hinc⟩ := pending?_eq_some hi
  have hi' := hstay i (Nat.le_refl i) hci
  obtain ⟨g, hg⟩ := List.exists_mem_of_ne_nil _ hp.generators_ne_nil
  have hx : (⟨g, false⟩ : Letter) ∈ p.letters := Letter.mem_signed.2 hg
  obtain ⟨j, hj⟩ := hr.settled.leads i hi' hdone ⟨g, false⟩ hg
  apply hr.weight_lt_of_entry_lt h hci hstay hx
  unfold entry
  rw [if_pos hdone, if_neg hinc, hr.settled.neighbours_eq hi' hg hj, ← hr.cap_eq]
  exact (rank_lt_live (hr.settled.wellFormed.contains_of_leads hj).2).trans_le
    hr.settled.live_le_cap

/-- If `i` is the first node to be dropped, then a smaller node leads to it, and the entry of that one
falls. -/
theorem Rounds.weight_lt_of_not_contains (hi : t.contains i) (hi' : ¬ t'.contains i)
    (hstay : ∀ j < i, t.contains j → t'.contains j)
    (hbelow : ∀ j < i, t.contains j → (t.row j).complete) : weight p t' < weight p t := by
  have hpos : 0 < i := Nat.pos_of_ne_zero fun h0 =>
    hi' (h0 ▸ hr.settled.wellFormed.contains_zero)
  have hlt := h.wellFormed.lt_of_contains hi
  obtain ⟨e, he, b, hb, hside⟩ := h.rooted i hpos hlt
  have hx : (⟨e.label, !b⟩ : Letter).gen ∈ p.generators := h.labels e he
  have hlead : t.Leads (t.root (e.side !b)) ⟨e.label, !b⟩ i :=
    ⟨e, he, rfl, rfl, by simp [Edge.head, hb, h.wellFormed.root_of_contains hi]⟩
  have hm := (h.wellFormed.contains_of_leads hlead).1
  have hmi : t.root (e.side !b) < i := (t.root_le _).trans_lt hside
  have hcm := hbelow _ hmi hm
  have hm' := hstay _ hmi hm
  have hnb := h.neighbours_eq hm hx hlead
  obtain ⟨hcm', hkeeps⟩ := h.persists hr.settled hr.grows hm hcm hm'
  refine hr.weight_lt_of_entry_lt h hm (fun j hj => hstay j (hj.trans_lt hmi))
    (Letter.mem_signed.2 hx) ?_
  rw [entry, entry, if_pos hcm, if_pos hcm', hnb, hkeeps _ (Letter.mem_signed.2 hx) i hnb,
    List.headD_cons, List.headD_cons]
  obtain ⟨hri, hct⟩ :=
    h.wellFormed.root_lt_of_not_contains hr.settled.wellFormed hr.grows hi hi'
  exact rank_lt (fun k hk hc => hr.grows.contains k (by omega) hc) hri hct

/-- Every round makes the weight smaller. -/
theorem Rounds.weight_lt (hp : p.Valid) : weight p t' < weight p t := by
  obtain ⟨i, hi, hdone⟩ := hr.pending
  obtain ⟨hci, -⟩ := pending?_eq_some hi
  -- The first entry that changes is at the first node up to `i` that is dropped, or else at `i`.
  by_cases hdrop : ∃ q, q ≤ i ∧ t.contains q ∧ ¬ t'.contains q
  · classical
    obtain ⟨hqi, hq, hq'⟩ := Nat.find_spec hdrop
    refine hr.weight_lt_of_not_contains h hq hq' (fun j hj hcj => ?_)
      fun j hj hcj => h.wellFormed.complete_of_lt_pending? hi hcj (by omega)
    by_contra hno
    exact Nat.find_min hdrop hj ⟨by omega, hcj, hno⟩
  · have hstay : ∀ j ≤ i, t.contains j → t'.contains j := by
      intro j hj hcj
      by_contra hno
      exact hdrop ⟨j, hj, hcj, hno⟩
    exact hr.weight_lt_of_forall_contains h hp hi hstay
      (hdone i (Nat.le_refl i) (hstay i (Nat.le_refl i) hci))

end Rounds

/-! ### The loop ends -/

theorem weight_lt_two_pow (h : t.live ≤ t.cap) : weight p t < 2 ^ roundBits p t.cap - 1 := by
  have hletters : p.letters.length = 2 * p.generators.length := by
    unfold Presentation.letters Letter.signed
    induction p.generators with
    | nil => rfl
    | cons g gens ih =>
        rw [List.flatMap_cons, List.length_append, ih, List.length_cons]
        simp only [List.length_cons, List.length_nil]
        omega
  have hbase : t.cap + 1 ≤ 2 ^ ((t.cap + 1).log2 + 1) := Nat.lt_log2_self.le
  have hweight : weight p t < (t.cap + 1) ^ (p.letters.length * t.cap) :=
    number_lt_pow (fun k => Nat.lt_succ_of_le (digit_le h _ k)) _
  have hpow : (t.cap + 1) ^ (p.letters.length * t.cap) ≤
      2 ^ (2 * p.generators.length * t.cap * ((t.cap + 1).log2 + 1)) := by
    rw [hletters, Nat.mul_comm _ ((t.cap + 1).log2 + 1), Nat.pow_mul 2]
    exact Nat.pow_le_pow_left hbase _
  unfold roundBits
  rw [Nat.pow_succ]
  omega

theorem Settled.add_weight_le (h : Settled p t) (hp : p.Valid) {n : ℕ}
    (hn : Loop.steps (Table.round p) n t = .inl t') : n + weight p t' ≤ weight p t := by
  induction n generalizing t with
  | zero =>
      obtain rfl : t = t' := Sum.inl.inj hn
      omega
  | succ n ih =>
      have hround := h.round hp
      unfold Loop.steps at hn
      cases hu : t.round p with
      | inl u =>
          rw [hu] at hn hround
          have hlt := Rounds.weight_lt h hround hp
          have := ih hround.settled hn
          omega
      | inr r =>
          rw [hu] at hn
          exact absurd hn (by simp)

/-- The loop ends within its budget. -/
theorem Settled.exists_steps_eq (h : Settled p t) (hp : p.Valid) :
    ∃ r, Loop.steps (Table.round p) (2 ^ roundBits p t.cap - 1) t = .inr r := by
  cases hn : Loop.steps (Table.round p) (2 ^ roundBits p t.cap - 1) t with
  | inr r => exact ⟨r, rfl⟩
  | inl u =>
      have hle := h.add_weight_le hp hn
      have hlt := weight_lt_two_pow (p := p) h.live_le_cap
      omega

end Table

end ToddCoxeter
