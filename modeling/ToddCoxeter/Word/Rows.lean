import ToddCoxeter.Word.Basic

/-! # Words from and against loose data

A word may be handed over as rows of two fields, a generator and a mark that says whether it is
inverted; any datum serves as a mark, through its truth.  `Word.ofRows` reads such rows.
`Word.equalsDatum` compares a word with a datum entry by entry, without reading it as a word. -/

namespace ToddCoxeter

/-- The fields of a row of two, or the failure that there are fewer or more. -/
def twoFields {α : Type} : List α → Except Fault (α × α)
  | [a, b] => .ok (a, b)
  | [] => .error (.tooFewValues 2 0)
  | [_] => .error (.tooFewValues 2 1)
  | _ :: _ :: _ :: _ => .error (.tooManyValues 2)

namespace Letter

/-- The letter that a row of two fields denotes: the generator and the truth of the mark. -/
def ofRow (row : List Datum) : Except Fault Letter := do
  match ← twoFields row with
  | (.text gen, mark) => return ⟨gen, mark.isTruthy⟩
  | (other, _) => throw (.notALetter other)

/-- Are these the two fields of the letter? -/
def equalsRow (x : Letter) : List Datum → Bool
  | [gen, mark] => gen.equalsText x.gen && mark.equalsBool x.inverted
  | _ => false

end Letter

namespace Word

/-- The word whose letters the rows denote. -/
def ofRows (rows : List (List Datum)) : Except Fault Word := rows.mapM Letter.ofRow

/-- Does the list of rows spell this word? -/
def equalsRows : Word → List (List Datum) → Bool
  | [], [] => true
  | x :: w, row :: rows => x.equalsRow row && equalsRows w rows
  | _, _ => false

/-- The entries of a datum, or the failure that it has none. -/
def entriesOf (d : Datum) : Except Fault (List Datum) :=
  match d.entries? with
  | some entries => .ok entries
  | none => .error (.notIterable d.kind)

/-- Is the datum a list whose items, each taken apart into its entries, spell the word? -/
def equalsDatum (w : Word) : Datum → Except Fault Bool
  | .list items => do return w.equalsRows (← items.mapM entriesOf)
  | _ => .ok false

end Word

end ToddCoxeter
