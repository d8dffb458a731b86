import ToddCoxeter.Word.Basic

/-! # Words as text

A word is written as a sequence of powers.  `Word.runs` collects neighbouring equal letters into
runs as long as possible, and `Word.render` writes each run as a generator with an exponent, which
is left out when it is one.  The empty word is written `identity`. -/

namespace ToddCoxeter

/-- A letter that occurs `count` times in a row. -/
structure Run where
  /-- The letter that is repeated. -/
  letter : Letter
  /-- How often it occurs. -/
  count : Nat
deriving DecidableEq, Repr

namespace Run

/-- The letters of the run. -/
def toWord (r : Run) : Word := List.replicate r.count r.letter

/-- The exponent of the generator: the count, negative if the letter is inverted. -/
def exponent (r : Run) : Int := if r.letter.inverted then -(r.count : Int) else r.count

/-- The generator with its exponent, if that is not one. -/
def render (r : Run) : String :=
  r.letter.gen ++ if r.exponent = 1 then "" else "^" ++ toString r.exponent

end Run

namespace Word

/-- The longest runs of equal letters, in the order of the word. -/
def runs : Word → List Run
  | [] => []
  | x :: w =>
    match runs w with
    | [] => [⟨x, 1⟩]
    | r :: rest => if r.letter = x then ⟨x, r.count + 1⟩ :: rest else ⟨x, 1⟩ :: r :: rest

/-- The word as a sequence of powers. -/
def render (w : Word) : String :=
  if w.isEmpty then "identity" else String.join (w.runs.map Run.render)

theorem flatMap_toWord_runs (w : Word) : w.runs.flatMap Run.toWord = w := by
  induction w with
  | nil => rfl
  | cons x w ih =>
    cases hr : runs w with
    | nil => simp_all [runs, Run.toWord]
    | cons r rest =>
      rw [hr] at ih
      by_cases hx : r.letter = x
      · subst hx
        simp_all [runs, Run.toWord, List.replicate_succ]
      · simp_all [runs, Run.toWord]

end Word

end ToddCoxeter
