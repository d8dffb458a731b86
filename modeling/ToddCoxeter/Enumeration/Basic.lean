import ToddCoxeter.Memo
import ToddCoxeter.Relator.Parser
import ToddCoxeter.Presentation
import ToddCoxeter.Table.Closing

/-! # Enumerations

An `Enumeration` holds the presentation of a group, the cap on the nodes that may be alive at once,
the coset table as it is at the moment, and the Cayley graph once it is known.  It is made from
generators and the texts of relations (`Enumeration.ofRelations`) or from the text of a presentation
(`Enumeration.ofText`); both check that the generators are different single letters and that the
relations use no others, and both take a limit on the digits of an exponent. -/

namespace ToddCoxeter

/-- The enumeration of a presented group. -/
structure Enumeration where
  /-- The generators and relators of the group. -/
  presentation : Presentation
  /-- The largest number of nodes that may be alive at once. -/
  cap : Nat
  /-- The coset table. -/
  table : Table
  /-- The graph of the last run that finished; before that it is empty. -/
  graph : Graph := .empty
  /-- The graph, remembered from the time when a run finished until it is forgotten. -/
  memo : Memo Graph := .empty

namespace Enumeration

/-- The cap of an enumeration for which none is given. -/
def defaultCap : Int := 1024

/-- The name of a generator that is a single letter. -/
def generatorName (d : Datum) : Except Fault String :=
  match d with
  | .text s => if s.length = 1 ∧ s.toList.all Text.isAlphabetic then .ok s else .error (.notALetter d)
  | _ => .error (.notALetter d)

/-- The names of the generators, which have to be different single letters, at least one. -/
def generatorNames (ds : List Datum) : Except Fault (List String) := do
  if ds.isEmpty then throw .noGenerators
  let names ← ds.mapM generatorName
  if names.eraseDups.length ≠ names.length then throw (.duplicateGenerators ds)
  return names

/-- The words that the texts of the relations denote. -/
def parseRelations (limit : DigitLimit) (texts : List String) : Except Fault (List Word) :=
  texts.mapM (Relator.parse limit)

/-- Fails at the first relation with a letter that is none of the generators. -/
def checkLetters (gens : List String) : List (String × Word) → Except Fault Unit
  | [] => .ok ()
  | (text, w) :: rest =>
    match w.generators.find? fun g => !gens.contains g with
    | some g => .error (.foreignGenerator text g)
    | none => checkLetters gens rest

/-- The enumeration of the group with the given generators and relations. -/
def ofRelations (limit : DigitLimit) (generators : List Datum) (relations : List String)
    (cap : Int) : Except Fault Enumeration := do
  let gens ← generatorNames generators
  let words ← parseRelations limit relations
  checkLetters gens (relations.zip words)
  let table ← Table.withCap cap
  return { presentation := ⟨gens, words⟩, cap := table.cap, table }

/-- The enumeration of the group that the text presents. -/
def ofText (limit : DigitLimit) (text : String) (cap : Int) : Except Fault Enumeration := do
  let p ← (PresentationText.read text).mapError .malformed
  ofRelations limit (p.generators.map .text) p.relations cap

/-- The name of the graph that is enumerated. -/
def render (e : Enumeration) : String := e.presentation.graphName

end Enumeration

end ToddCoxeter
