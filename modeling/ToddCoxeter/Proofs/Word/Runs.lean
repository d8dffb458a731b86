import Mathlib.Data.List.Chain
import Mathlib.Tactic
import ToddCoxeter.Word.Runs

/-! # Runs and how they are written

The runs of a word are powers of letters, none of them empty, and they are as long as possible: neighbouring
runs are runs of different letters (`Word.isChain_runs`).

`Word.print` writes a word letter by letter: it counts the letters of the run that it is in, and writes the
run when another letter follows, and at the end.  The count has the sign of the letters, so that a letter
goes on with the run if it has the generator and the sign of the run.  That never fails and gives the text
of `Word.render` (`Word.print_eq`). -/

namespace ToddCoxeter

namespace Word

variable {w : Word} {x : Letter} {r : Run} {rs : List Run} {k : ℕ}

/-! ### Runs -/

/-- A letter before a word makes a run of its own, or the first run longer. -/
theorem runs_cons_cases (x : Letter) (w : Word) :
    ((∀ r ∈ w.runs.head?, r.letter ≠ x) ∧ runs (x :: w) = ⟨x, 1⟩ :: w.runs) ∨
      ∃ k rest, w.runs = ⟨x, k⟩ :: rest ∧ runs (x :: w) = ⟨x, k + 1⟩ :: rest := by
  rw [runs]
  cases w.runs with
  | nil => exact .inl ⟨by simp, rfl⟩
  | cons r rest =>
      obtain ⟨y, k⟩ := r
      by_cases hx : y = x
      · subst hx
        exact .inr ⟨k, rest, rfl, if_pos rfl⟩
      · exact .inl ⟨by simpa using hx, if_neg hx⟩

theorem map_letter_head?_runs (w : Word) : w.runs.head?.map Run.letter = w.head? := by
  cases w with
  | nil => rfl
  | cons x w =>
      rcases runs_cons_cases x w with ⟨-, h⟩ | ⟨k, rest, -, h⟩ <;> rw [h] <;> rfl

theorem count_pos_of_mem_runs (h : r ∈ w.runs) : 0 < r.count := by
  induction w generalizing r with
  | nil => exact absurd h List.not_mem_nil
  | cons x w ih =>
      rcases runs_cons_cases x w with ⟨-, hw⟩ | ⟨k, rest, hrest, hw⟩
      · rw [hw] at h
        rcases List.mem_cons.1 h with rfl | h
        · exact Nat.one_pos
        · exact ih h
      · rw [hw] at h
        rcases List.mem_cons.1 h with rfl | h
        · exact Nat.succ_pos k
        · exact ih (hrest ▸ List.mem_cons_of_mem _ h)

/-- Neighbouring runs are runs of different letters. -/
theorem isChain_runs (w : Word) : w.runs.IsChain (·.letter ≠ ·.letter) := by
  induction w with
  | nil => exact .nil
  | cons x w ih =>
      rcases runs_cons_cases x w with ⟨hx, hw⟩ | ⟨k, rest, hrest, hw⟩
      · rw [hw]
        exact List.isChain_cons.2 ⟨fun r hr => (hx r hr).symm, ih⟩
      · rw [hrest] at ih
        rw [hw]
        exact List.isChain_cons.2 ⟨(List.isChain_cons.1 ih).1, (List.isChain_cons.1 ih).2⟩

theorem runs_replicate_append (hk : 0 < k) (h : x ∉ w.head?) :
    runs (List.replicate k x ++ w) = ⟨x, k⟩ :: w.runs := by
  induction k, hk using Nat.le_induction with
  | base =>
      rcases runs_cons_cases x w with ⟨-, hw⟩ | ⟨k, rest, hrest, -⟩
      · exact hw
      · rw [← map_letter_head?_runs, hrest] at h
        exact absurd rfl h
  | succ k _ ih =>
      rw [List.replicate_succ, List.cons_append, runs, ih]
      exact if_pos rfl

theorem letter_mem_of_mem_runs (h : r ∈ w.runs) : r.letter ∈ w := by
  have hmem : r.letter ∈ w.runs.flatMap Run.toWord :=
    List.mem_flatMap.2 ⟨r, h, List.mem_replicate.2 ⟨(count_pos_of_mem_runs h).ne', rfl⟩⟩
  rwa [flatMap_toWord_runs] at hmem

theorem count_le_of_mem_runs (h : r ∈ w.runs) : r.count ≤ w.length := by
  have hsum : w.length = (w.runs.map Run.count).sum := by
    conv_lhs => rw [← w.flatMap_toWord_runs]
    simp [List.length_flatMap, Run.toWord]
  rw [hsum]
  exact List.le_sum_of_mem (List.mem_map_of_mem h)

end Word

/-! ### Writing a word letter by letter -/

/-- One for a generator, and minus one for the inverse of one. -/
def Letter.sign (x : Letter) : ℤ := if x.inverted then -1 else 1

/-- A generator with an exponent, which is left out if it is one. -/
def powerText (gen : String) (n : ℤ) : String := gen ++ if n = 1 then "" else "^" ++ toString n

/-- What is carried from letter to letter while a word is written. -/
structure Printer where
  /-- The runs that are written. -/
  parts : List String
  /-- The generator of the run that goes on, if there is one, and its exponent so far. -/
  run : Option (String × ℤ)
deriving DecidableEq, Repr

namespace Printer

/-- Does the letter go on with the run?  The exponent is asked for its sign if the generators are the same. -/
def goesOn (gen : String) (n : ℤ) (x : Letter) : Except Fault Bool :=
  if x.gen = gen then do return (← signOf n) = x.sign else .ok false

/-- Reads the next letter. -/
def add (p : Printer) (x : Letter) : Except Fault Printer :=
  match p.run with
  | none => return ⟨p.parts, some (x.gen, x.sign)⟩
  | some (gen, n) => do
    if ← goesOn gen n x then return ⟨p.parts, some (gen, n + x.sign)⟩
    else return ⟨p.parts ++ [powerText gen n], some (x.gen, x.sign)⟩

/-- Writes the last run. -/
def finish (p : Printer) : Except Fault String :=
  match p.run with
  | some (gen, n) => .ok (String.join (p.parts ++ [powerText gen n]))
  | none => .error .absent

end Printer

/-- Writes the word letter by letter. -/
def Word.print (w : Word) : Except Fault String :=
  if w.isEmpty then .ok "identity" else do (← w.foldlM Printer.add ⟨[], none⟩).finish

theorem Run.exponent_eq (r : Run) : r.exponent = r.count * r.letter.sign := by
  unfold exponent Letter.sign
  split_ifs <;> ring

namespace Printer

variable {parts : List String} {r : Run} {w : Word}

/-- The printer in the middle of a run. -/
def inside (parts : List String) (r : Run) : Printer := ⟨parts, some (r.letter.gen, r.exponent)⟩

theorem signOf_exponent (hr : 0 < r.count) : signOf r.exponent = .ok r.letter.sign := by
  unfold signOf Run.exponent Letter.sign
  cases r.letter.inverted with
  | false => simp [hr]
  | true => simp [hr]

theorem goesOn_eq (hr : 0 < r.count) (x : Letter) :
    goesOn r.letter.gen r.exponent x = .ok (x = r.letter) := by
  obtain ⟨⟨gen, inverted⟩, k⟩ := r
  obtain ⟨gen', inverted'⟩ := x
  unfold goesOn
  rw [signOf_exponent hr]
  split_ifs with hgen
  · obtain rfl : gen' = gen := hgen
    have hsign : Letter.sign ⟨gen', inverted⟩ = Letter.sign ⟨gen', inverted'⟩ ↔
        (⟨gen', inverted'⟩ : Letter) = ⟨gen', inverted⟩ := by
      cases inverted <;> cases inverted' <;> simp [Letter.sign]
    exact congrArg Except.ok (decide_eq_decide.2 hsign)
  · have hne : (⟨gen', inverted'⟩ : Letter) ≠ ⟨gen, inverted⟩ := fun h => hgen (congrArg Letter.gen h)
    rw [decide_eq_false hne]

theorem add_inside_self (hr : 0 < r.count) :
    (inside parts r).add r.letter = .ok (inside parts ⟨r.letter, r.count + 1⟩) := by
  have hnext : r.exponent + r.letter.sign = Run.exponent ⟨r.letter, r.count + 1⟩ := by
    simp only [Run.exponent_eq]
    push_cast
    ring
  simp only [add, inside, goesOn_eq hr, decide_true, ← hnext]
  rfl

theorem add_inside_of_ne (hr : 0 < r.count) {x : Letter} (hx : x ≠ r.letter) :
    (inside parts r).add x = .ok (inside (parts ++ [r.render]) ⟨x, 1⟩) := by
  have hfirst : x.sign = Run.exponent ⟨x, 1⟩ := by
    rw [Run.exponent_eq, Nat.cast_one, one_mul]
  simp only [add, inside, goesOn_eq hr, decide_eq_false hx, ← hfirst]
  rfl

/-- The parts that are written, the run that goes on and the letters that follow make up the text. -/
theorem foldlM_add_inside (parts : List String) (hr : 0 < r.count) :
    (do (← w.foldlM add (inside parts r)).finish) =
      .ok (String.join (parts ++ (Word.runs (r.toWord ++ w)).map Run.render)) := by
  induction w generalizing parts r with
  | nil =>
      have hruns : Word.runs (r.toWord ++ []) = [r] := Word.runs_replicate_append hr (by simp)
      rw [hruns]
      rfl
  | cons x w ih =>
      rw [List.foldlM_cons]
      by_cases hx : x = r.letter
      · subst hx
        have hword : r.toWord ++ r.letter :: w = Run.toWord ⟨r.letter, r.count + 1⟩ ++ w := by
          simp [Run.toWord, List.replicate_succ']
        rw [add_inside_self hr, hword]
        exact ih parts (Nat.succ_pos _)
      · have hruns : Word.runs (r.toWord ++ x :: w) = r :: Word.runs (x :: w) :=
          Word.runs_replicate_append hr (by simpa using hx)
        have hrest := ih (parts ++ [r.render]) (r := ⟨x, 1⟩) Nat.one_pos
        rw [List.append_assoc] at hrest
        rw [add_inside_of_ne hr hx, hruns]
        exact hrest

end Printer

/-- Writing a word letter by letter gives its text. -/
theorem Word.print_eq (w : Word) : w.print = .ok w.render := by
  cases w with
  | nil => rfl
  | cons x w => exact Printer.foldlM_add_inside [] (r := ⟨x, 1⟩) Nat.one_pos

end ToddCoxeter
