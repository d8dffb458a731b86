import Mathlib.Tactic
import ToddCoxeter.Relator.Token
import ToddCoxeter.Word.Parts

/-! # Powers as repetition

`Word.repeated w k` is the power as it is read: so many copies of the word one after the other, or the
inverse of these.  The powers that are built by squaring are the same words (`Word.pow_eq_repeated`).

Words are not reduced, so that the laws of powers have to hold letter by letter.  They do if no letter
could cancel: the inverse of a power is a power of the inverse, powers of powers multiply their exponents,
and exponents add up if their signs are not opposite (`Word.pow_laws`).  Since powers of powers multiply, the
exponents behind a token may be multiplied before the word is written down. -/

namespace ToddCoxeter.Word

/-- The word written down as often as the size of the number says, and the inverse of that if the number
is negative. -/
def repeated (w : Word) (k : ℤ) : Word :=
  if k < 0 then inverse (List.replicate k.natAbs w).flatten else (List.replicate k.natAbs w).flatten

theorem powNat_eq_flatten (w : Word) (n : ℕ) : w.powNat n = (List.replicate n w).flatten := by
  induction n using Nat.strongRecOn with
  | ind n ih =>
      rw [powNat]
      split_ifs with hzero heven
      · rw [hzero, List.replicate_zero, List.flatten_nil]
      · have hn : n / 2 + n / 2 = n := by omega
        simp only [ih (n / 2) (by omega)]
        rw [← List.flatten_append, List.replicate_append_replicate, hn]
      · have hn : n / 2 + n / 2 + 1 = n := by omega
        simp only [ih (n / 2) (by omega)]
        rw [← List.flatten_append, List.replicate_append_replicate, ← List.flatten_concat,
          ← List.replicate_succ', hn]

theorem pow_eq_repeated (w : Word) (k : ℤ) : w.pow k = w.repeated k := by
  unfold pow repeated
  rw [powNat_eq_flatten]

theorem repeated_neg_one (w : Word) : w.repeated (-1) = w.inverse := by
  simp [repeated]

/-! ### Copies of a word -/

@[simp] theorem powNat_zero (w : Word) : w.powNat 0 = [] := by
  rw [powNat_eq_flatten, List.replicate_zero, List.flatten_nil]

@[simp] theorem powNat_one (w : Word) : w.powNat 1 = w := by
  rw [powNat_eq_flatten, List.replicate_one, List.flatten_singleton]

theorem powNat_add (w : Word) (m n : ℕ) : w.powNat (m + n) = w.powNat m ++ w.powNat n := by
  simp only [powNat_eq_flatten]
  rw [← List.flatten_append, List.replicate_append_replicate]

theorem powNat_succ (w : Word) (n : ℕ) : w.powNat (n + 1) = w.powNat n ++ w := by
  rw [powNat_add, powNat_one]

theorem inverse_powNat (w : Word) (n : ℕ) : (w.powNat n).inverse = w.inverse.powNat n := by
  induction n with
  | zero => simp [inverse]
  | succ n ih => rw [powNat_succ, inverse_append, ih, Nat.add_comm, powNat_add, powNat_one]

theorem powNat_powNat (w : Word) (m n : ℕ) : (w.powNat m).powNat n = w.powNat (m * n) := by
  induction n with
  | zero => simp
  | succ n ih => rw [powNat_succ, ih, Nat.mul_succ, powNat_add]

theorem length_powNat (w : Word) (n : ℕ) : (w.powNat n).length = n * w.length := by
  simp [powNat_eq_flatten]

/-! ### Powers -/

@[simp] theorem pow_zero (w : Word) : w.pow 0 = [] := w.powNat_zero

theorem pow_natCast (w : Word) (n : ℕ) : w.pow n = w.powNat n := by
  rw [pow, if_neg (by omega), Int.natAbs_natCast]

/-- The power is that of the word, or that of its inverse if the exponent is negative. -/
theorem pow_eq_powNat (w : Word) (n : ℤ) :
    w.pow n = (if n < 0 then w.inverse else w).powNat n.natAbs := by
  unfold pow
  split_ifs with hn
  · exact w.inverse_powNat n.natAbs
  · rfl

theorem pow_eq_flatten (w : Word) (n : ℤ) :
    w.pow n = (List.replicate n.natAbs (if n < 0 then w.inverse else w)).flatten := by
  rw [pow_eq_powNat, powNat_eq_flatten]

theorem length_pow (w : Word) (n : ℤ) : (w.pow n).length = n.natAbs * w.length := by
  rw [pow_eq_powNat, length_powNat]
  split_ifs
  · rw [length_inverse]
  · rfl

theorem pow_neg (w : Word) (n : ℤ) : w.pow (-n) = (w.pow n).inverse := by
  unfold pow
  rw [Int.natAbs_neg]
  rcases Int.lt_trichotomy n 0 with hn | rfl | hn
  · rw [if_neg (by omega), if_pos hn, inverse_inverse]
  · simp [inverse]
  · rw [if_pos (by omega), if_neg (by omega)]

theorem inverse_pow (w : Word) (n : ℤ) : w.inverse.pow n = (w.pow n).inverse := by
  unfold pow
  split_ifs
  · rw [← inverse_powNat]
  · exact (w.inverse_powNat _).symm

theorem pow_pow (w : Word) (m n : ℤ) : (w.pow m).pow n = w.pow (m * n) := by
  have hnat : ∀ (v : Word) (a b : ℕ), (v.pow a).pow b = v.pow (a * b : ℤ) := by
    intro v a b
    rw [← Int.natCast_mul]
    simp only [pow_natCast, powNat_powNat]
  obtain ⟨a, rfl | rfl⟩ := Int.eq_nat_or_neg m <;> obtain ⟨b, rfl | rfl⟩ := Int.eq_nat_or_neg n
  · exact hnat w a b
  · rw [pow_neg, hnat, mul_neg, pow_neg]
  · rw [pow_neg, inverse_pow, hnat, neg_mul, pow_neg]
  · rw [pow_neg, pow_neg, inverse_pow, inverse_inverse, hnat, neg_mul_neg]

/-- Exponents add up, unless letters of one power could cancel with letters of the other. -/
theorem pow_add (w : Word) {m n : ℤ} (h : 0 ≤ m ∧ 0 ≤ n ∨ m ≤ 0 ∧ n ≤ 0) :
    w.pow (m + n) = w.pow m ++ w.pow n := by
  have hnat : ∀ (v : Word) (a b : ℕ), v.pow (a + b : ℤ) = v.pow a ++ v.pow b := by
    intro v a b
    rw [← Int.natCast_add]
    simp only [pow_natCast, powNat_add]
  rcases h with ⟨hm, hn⟩ | ⟨hm, hn⟩
  · lift m to ℕ using hm
    lift n to ℕ using hn
    exact hnat w m n
  · obtain ⟨a, rfl⟩ := Int.exists_eq_neg_ofNat hm
    obtain ⟨b, rfl⟩ := Int.exists_eq_neg_ofNat hn
    rw [← neg_add]
    simp only [pow_neg, ← inverse_pow]
    exact hnat w.inverse a b

theorem pow_succ (w : Word) {n : ℤ} (hn : 0 ≤ n) : w.pow (n + 1) = w.pow n ++ w := by
  lift n to ℕ using hn
  exact w.powNat_succ n

theorem foldl_pow (w : Word) (es : List Exponent) (n : ℤ) :
    es.foldl (fun v e => v.pow e.value) (w.pow n) = w.pow (es.foldl (fun k e => k * e.value) n) := by
  induction es generalizing n with
  | nil => rfl
  | cons e es ih =>
      rw [List.foldl_cons, List.foldl_cons, pow_pow]
      exact ih (n * e.value)

/-- The laws of powers and inverses of words that are not reduced; exponents add up if their signs are not
opposite, and the exponents of a token may be multiplied before the power is taken. -/
theorem pow_laws (u w : Word) (m n : ℤ) :
    (w.pow m).pow n = w.pow (m * n) ∧
      ((w.pow n).inverse = w.inverse.pow n ∧ w.inverse.pow n = w.pow (-n)) ∧
      (u ++ w).inverse = w.inverse ++ u.inverse ∧
      w.inverse.inverse = w ∧
      (0 ≤ m * n → w.pow (m + n) = w.pow m ++ w.pow n) ∧
      ∀ t : Token, t.exponents.foldl (fun v e => v.pow e.value) w = w.pow t.exponent := by
  refine ⟨w.pow_pow m n, ⟨(w.inverse_pow n).symm, ?_⟩, inverse_append u w, w.inverse_inverse, ?_, ?_⟩
  · rw [inverse_pow, pow_neg]
  · exact fun h => w.pow_add (mul_nonneg_iff.1 h)
  · intro t
    have hone : w.pow (1 : ℕ) = w := by rw [pow_natCast, powNat_one]
    have hfold := w.foldl_pow t.exponents (1 : ℕ)
    rwa [hone] at hfold

/-- Two powers of `ab'` with negative exponents. -/
theorem pow_laws_neg : (0 : ℤ) ≤ -2 * -1 ∧
    Word.pow [⟨"a", false⟩, ⟨"b", true⟩] (-2) ++ Word.pow [⟨"a", false⟩, ⟨"b", true⟩] (-1) =
      [⟨"b", false⟩, ⟨"a", true⟩, ⟨"b", false⟩, ⟨"a", true⟩, ⟨"b", false⟩, ⟨"a", true⟩] := by
  have hsum := (pow_laws [] [⟨"a", false⟩, ⟨"b", true⟩] (-2) (-1)).2.2.2.2.1 (by decide)
  exact ⟨by decide, hsum.symm.trans (by cbv)⟩

end ToddCoxeter.Word
