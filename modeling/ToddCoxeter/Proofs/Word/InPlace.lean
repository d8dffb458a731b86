import ToddCoxeter.Proofs.Lists
import ToddCoxeter.Proofs.Word.Power
import ToddCoxeter.Word.Rows

/-! # Powers of words that change in place

Here words are objects that can be changed: a `Store` keeps each word at a place of its own, and a word can
grow where it is (`Store.appendFrom?`).  It grows by the letters of another word, which are read one after the
other, so that a word which grows by itself would never come to an end; then there is no result.

A product copies its first factor and lets the copy grow by the second one (`Store.mul?`), and a power is made
of such products (`Store.pow?`).  Hence nothing grows but what was just made: a power always comes to an end,
at a new place there is the word that `Word.pow` gives, and all words that there were are as they were
(`Store.exists_pow?_eq`). -/

namespace ToddCoxeter

/-- The row of the generator and the mark. -/
def Letter.row (x : Letter) : List Datum := [.text x.gen, .bool x.inverted]

theorem Word.ofRows_map_row (w : Word) : Word.ofRows (w.map Letter.row) = .ok w := by
  refine mapM_eq_ok_iff.2 ?_
  induction w with
  | nil => exact .nil
  | cons x w ih => exact .cons rfl ih

/-- Words, each at its place. -/
abbrev Store := Array Word

namespace Store

/-- The word at the place. -/
def read (s : Store) (i : ℕ) : Word := s[i]?.getD []

/-- Makes a new word. -/
def make (s : Store) (w : Word) : ℕ × Store := (s.size, s.push w)

/-- Lets the word at the place grow by a letter. -/
def grow (s : Store) (i : ℕ) (x : Letter) : Store := s.modify i (· ++ [x])

variable {s s' s'' : Store} {i j k : ℕ} {w : Word}

@[simp] theorem size_grow (x : Letter) : (s.grow i x).size = s.size := Array.size_modify

theorem read_grow_of_ne (h : i ≠ j) (x : Letter) : (s.grow i x).read j = s.read j := by
  unfold read grow
  rw [Array.getElem?_modify, if_neg h]

theorem read_grow (hi : i < s.size) (x : Letter) (j : ℕ) :
    (s.grow i x).read j = if j = i then s.read i ++ [x] else s.read j := by
  split_ifs with hj
  · subst hj
    rw [read, grow, Array.getElem?_modify, if_pos rfl]
    simp [read, hi]
  · exact read_grow_of_ne (Ne.symm hj) x

theorem read_push (s : Store) (w : Word) (j : ℕ) :
    read (s.push w) j = if j = s.size then w else s.read j := by
  unfold read
  rw [Array.getElem?_push]
  split_ifs <;> rfl

/-- Lets the word at `i` grow by the letters of the word at `j` from position `p` on, if that comes to an
end: a word that grows by its own letters always has more of them. -/
def appendFrom? (s : Store) (i j p : ℕ) : Option Store :=
  if hp : p < (s.read j).length then
    if hij : i = j then none else (s.grow i (s.read j)[p]).appendFrom? i j (p + 1)
  else some s
termination_by (s.read j).length - p
decreasing_by
  rw [read_grow_of_ne hij]
  omega

/-- The product of the words at two places. -/
def mul? (s : Store) (i j : ℕ) : Option (ℕ × Store) := do
  let (k, s) := s.make (s.read i)
  let s ← s.appendFrom? k j 0
  return (k, s)

/-- The inverse of the word at the place. -/
def inverse (s : Store) (i : ℕ) : ℕ × Store := s.make (s.read i).inverse

/-- The power of the word at the place: the identity, the inverse of the opposite power, or the square of
the half power, and once more the word if the exponent is odd. -/
def pow? (s : Store) (i : ℕ) (n : ℤ) : Option (ℕ × Store) :=
  if n = 0 then some (s.make [])
  else if n < 0 then do
    let (j, s) ← s.pow? i (-n)
    return s.inverse j
  else do
    let (j, s) ← s.pow? i (n / 2)
    let (k, s) ← s.mul? j j
    if n % 2 = 0 then return (k, s) else s.mul? k i
termination_by (-n).toNat + n.natAbs
decreasing_by all_goals omega

/-! ### New words -/

/-- The word has been made at the place `k`, and no word has changed. -/
structure Made (s : Store) (w : Word) (k : ℕ) (s' : Store) : Prop where
  /-- The place is a new one. -/
  size_le : s.size ≤ k
  lt_size : k < s'.size
  /-- The word is there. -/
  read_eq : s'.read k = w
  /-- The words that there were are as they were. -/
  read_old : ∀ j < s.size, s'.read j = s.read j

theorem made_make (s : Store) (w : Word) : Made s w (s.make w).1 (s.make w).2 := by
  refine ⟨Nat.le_refl _, by simp [make], ?_, fun j hj => ?_⟩
  · rw [make, read_push, if_pos rfl]
  · rw [make, read_push, if_neg (by omega)]

theorem Made.trans (h : Made s v j s') (h' : Made s' w k s'') : Made s w k s'' := by
  have hle : s.size ≤ s'.size := h.size_le.trans h.lt_size.le
  refine ⟨hle.trans h'.size_le, h'.lt_size, h'.read_eq, fun i hi => ?_⟩
  rw [h'.read_old i (by omega), h.read_old i hi]

/-- Letting a word grow by another comes to an end, and changes no word but the one that grows. -/
theorem exists_appendFrom?_eq (hi : i < s.size) (hij : i ≠ j) (p : ℕ) :
    ∃ s', s.appendFrom? i j p = some s' ∧ s'.size = s.size ∧
      ∀ k, s'.read k = if k = i then s.read i ++ (s.read j).drop p else s.read k := by
  fun_induction appendFrom? s i j p with
  | case1 s p hp heq => exact absurd heq hij
  | case2 s p hp _ ih =>
      obtain ⟨s', hs', hsize, hread⟩ := ih (by rwa [size_grow])
      refine ⟨s', hs', hsize.trans (size_grow _), fun k => ?_⟩
      rw [hread, read_grow_of_ne hij, read_grow hi, read_grow hi, if_pos rfl]
      split_ifs
      · rw [List.append_assoc, List.singleton_append, ← List.drop_eq_getElem_cons hp]
      · rfl
  | case3 s p hp =>
      refine ⟨s, rfl, rfl, fun k => ?_⟩
      rw [List.drop_eq_nil_of_le (Nat.le_of_not_lt hp), List.append_nil]
      split_ifs with hk
      · rw [hk]
      · rfl

theorem exists_mul?_eq (hj : j < s.size) (i : ℕ) :
    ∃ k s', s.mul? i j = some (k, s') ∧ Made s (s.read i ++ s.read j) k s' := by
  -- The copy is at a new place, and so the word by which it grows is another one.
  have hmade := s.made_make (s.read i)
  obtain ⟨s', hs', hsize, hread⟩ :=
    exists_appendFrom?_eq (p := 0) hmade.lt_size (Nat.ne_of_gt (hj.trans_le hmade.size_le))
  refine ⟨_, s', ?_, hmade.size_le, hsize ▸ hmade.lt_size, ?_, fun m hm => ?_⟩
  · simp [mul?, hs']
  · rw [hread, if_pos rfl, hmade.read_eq, hmade.read_old j hj, List.drop_zero]
  · rw [hread, if_neg (by have := hmade.size_le; omega), hmade.read_old m hm]

theorem made_inverse (s : Store) (i : ℕ) :
    Made s (s.read i).inverse (s.inverse i).1 (s.inverse i).2 := s.made_make _

/-- A power is made anew, for every exponent, and is the power of the word at the place. -/
theorem exists_pow?_eq (hi : i < s.size) (n : ℤ) :
    ∃ k s', s.pow? i n = some (k, s') ∧ Made s ((s.read i).pow n) k s' := by
  fun_induction pow? s i n with
  | case1 => exact ⟨_, _, rfl, by rw [Word.pow_zero]; exact s.made_make []⟩
  | case2 n hn hneg ih =>
      obtain ⟨j, s', hs', hmade⟩ := ih
      refine ⟨_, _, by rw [hs']; rfl, hmade.trans ?_⟩
      have hinverse := s'.made_inverse j
      rwa [hmade.read_eq, ← Word.pow_neg, neg_neg] at hinverse
  | case3 n hn hpos ih =>
      obtain ⟨j, s₁, hs₁, half⟩ := ih
      obtain ⟨k, s₂, hs₂, square⟩ := s₁.exists_mul?_eq half.lt_size j
      rw [half.read_eq, ← Word.pow_add _ (.inl ⟨by omega, by omega⟩)] at square
      replace square := half.trans square
      simp only [hs₁, hs₂, Option.bind_eq_bind, Option.bind_some]
      split_ifs with heven
      · have hsum : n / 2 + n / 2 = n := by omega
        rw [hsum] at square
        exact ⟨k, s₂, rfl, square⟩
      · have hsum : n / 2 + n / 2 + 1 = n := by omega
        have hi₂ : i < s₂.size := hi.trans_le (square.size_le.trans square.lt_size.le)
        obtain ⟨m, s₃, hs₃, hodd⟩ := s₂.exists_mul?_eq hi₂ k
        refine ⟨m, s₃, hs₃, square.trans ?_⟩
        rwa [square.read_eq, square.read_old i hi, ← Word.pow_succ _ (by omega), hsum] at hodd

/-! ### Powers of words and of rows -/

/-- What a power is taken of: a word, or rows that are read as one. -/
inductive Base where
  /-- The word at a place. -/
  | word (i : ℕ)
  /-- Rows of a generator and a mark. -/
  | rows (entries : List (List Datum))

/-- The word that is meant. -/
def Base.Denotes (s : Store) (w : Word) : Base → Prop
  | word i => i < s.size ∧ s.read i = w
  | rows entries => Word.ofRows entries = .ok w

/-- The power of a word, or of the word that is made of the rows. -/
def power? (s : Store) (n : ℤ) : Base → Except Fault (Option (ℕ × Store))
  | .word i => return s.pow? i n
  | .rows entries => do
    let (i, s) := s.make (← Word.ofRows entries)
    return s.pow? i n

/-- Powers of words of any letters, for every exponent: whether a word is given, or rows that are read as one,
such as the generators and marks of its letters, the power is made anew and leaves all words as they were.  It
consists of copies of the word, or of its inverse if the exponent is negative. -/
theorem power_spec (s : Store) (w : Word) (n : ℤ) :
    (∀ b : Base, b.Denotes s w →
        ∃ k s', s.power? n b = .ok (some (k, s')) ∧ Made s (w.pow n) k s') ∧
      (Base.rows (w.map Letter.row)).Denotes s w ∧
      w.pow n = (List.replicate n.natAbs (if n < 0 then w.inverse else w)).flatten ∧
      (w.pow n).length = n.natAbs * w.length := by
  refine ⟨fun b hb => ?_, w.ofRows_map_row, w.pow_eq_flatten n, w.length_pow n⟩
  cases b with
  | word i =>
      obtain ⟨hi, rfl⟩ := hb
      obtain ⟨k, s', hs', hmade⟩ := exists_pow?_eq hi n
      exact ⟨k, s', congrArg Except.ok hs', hmade⟩
  | rows entries =>
      have hnew := s.made_make w
      obtain ⟨k, s', hs', hmade⟩ := exists_pow?_eq hnew.lt_size n
      rw [hnew.read_eq] at hmade
      refine ⟨k, s', ?_, hnew.trans hmade⟩
      rw [power?, show Word.ofRows entries = .ok w from hb]
      exact congrArg Except.ok hs'

/-- The power of `ab'` to the exponent `-2`, of the word itself and of its rows. -/
theorem power_spec_inverse :
    (Base.word 0).Denotes #[[⟨"a", false⟩, ⟨"b", true⟩]] [⟨"a", false⟩, ⟨"b", true⟩] ∧
    ∀ b ∈ [Base.word 0, .rows [[.text "a", .bool false], [.text "b", .bool true]]],
      ∃ k s', power? #[[⟨"a", false⟩, ⟨"b", true⟩]] (-2) b = .ok (some (k, s')) ∧
        s'.read k = [⟨"b", false⟩, ⟨"a", true⟩, ⟨"b", false⟩, ⟨"a", true⟩] ∧
        s'.read 0 = [⟨"a", false⟩, ⟨"b", true⟩] := by
  obtain ⟨hmade, hrows, hpow, -⟩ :=
    power_spec #[[⟨"a", false⟩, ⟨"b", true⟩]] [⟨"a", false⟩, ⟨"b", true⟩] (-2)
  have hword : (Base.word 0).Denotes #[[⟨"a", false⟩, ⟨"b", true⟩]] [⟨"a", false⟩, ⟨"b", true⟩] :=
    ⟨by decide, rfl⟩
  refine ⟨hword, fun b hb => ?_⟩
  have hb : b.Denotes #[[⟨"a", false⟩, ⟨"b", true⟩]] [⟨"a", false⟩, ⟨"b", true⟩] := by
    rcases List.mem_pair.1 hb with rfl | rfl
    · exact hword
    · exact hrows
  obtain ⟨k, s', hs', h⟩ := hmade b hb
  exact ⟨k, s', hs', h.read_eq.trans (hpow.trans rfl), h.read_old 0 (by decide)⟩

end Store

end ToddCoxeter
