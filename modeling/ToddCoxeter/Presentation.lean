import ToddCoxeter.Fault
import ToddCoxeter.Text.Alphabetic
import ToddCoxeter.Word.Runs

/-! # Presentations of groups

A `Presentation` lists generators and relators, words that are the identity in the presented group.
`Presentation.render` writes it between angle brackets.

As a text, a presentation such as `<a, b | a^2, ab = ba>` stands between angle brackets: generators, a
bar, and relations, both lists separated by commas.  `PresentationText.read` cuts it into the names of
its generators and the texts of its relations, which are not looked into any further here.  An equation
`lhs = rhs` becomes the relator `lhs(rhs)^-1`, and `1` stands for the identity. -/

namespace ToddCoxeter

/-- Generators, and words in them that are to be the identity. -/
structure Presentation where
  /-- The names of the generators. -/
  generators : List String
  /-- The words that are to be the identity. -/
  relators : List Word
deriving DecidableEq, Repr

namespace Presentation

/-- Every generator followed by its inverse. -/
def letters (p : Presentation) : List Letter := Letter.signed p.generators

/-- The presentation between angle brackets. -/
def render (p : Presentation) : String :=
  "<" ++ ", ".intercalate p.generators ++ " | " ++ ", ".intercalate (p.relators.map Word.render)
    ++ ">"

end Presentation

/-! ### Reading a presentation -/

/-- A presentation whose relations are still text. -/
structure PresentationText where
  /-- The names of the generators. -/
  generators : List String
  /-- The relations as they are written. -/
  relations : List String
deriving DecidableEq, Repr

namespace PresentationText

open ToddCoxeter.Text

/-- The text of the relator that says that two sides are equal; either side may be empty. -/
def equate (lhs rhs : List Char) : List Char :=
  if rhs.isEmpty then lhs
  else if lhs.isEmpty then '(' :: rhs ++ ")^-1".toList
  else lhs ++ '(' :: rhs ++ ")^-1".toList

/-- The side of an equation, where `1` is the empty word. -/
def sideText (side : List Char) : List Char := if side = ['1'] then [] else side

/-- The text of the relator for one entry of the list of relations. -/
def relatorText (text : String) (entry : List Char) : Except SyntaxFault (List Char) :=
  match (fields '=' entry).map trim with
  | [side] =>
    if side.isEmpty then .error ⟨.emptySide (String.ofList entry), text, none⟩
    else .ok (sideText side)
  | [lhs, rhs] =>
    if lhs.isEmpty || rhs.isEmpty then .error ⟨.emptySide (String.ofList entry), text, none⟩
    else .ok (equate (sideText lhs) (sideText rhs))
  | _ => .error ⟨.chainedEquation (String.ofList entry), text, none⟩

/-- What stands between the angle brackets of a presentation. -/
def body? (cs : List Char) : Option (List Char) :=
  match trim cs with
  | '<' :: rest => if rest.getLast? = some '>' then some rest.dropLast else none
  | _ => none

/-- Is the text a single ASCII letter? -/
def isGenerator : List Char → Bool
  | [c] => isLatinLetter c
  | _ => false

theorem isGenerator_iff {cs : List Char} : isGenerator cs ↔ ∃ c, cs = [c] ∧ isLatinLetter c := by
  unfold isGenerator
  split
  · simp
  · rename_i hno
    refine iff_of_false Bool.false_ne_true ?_
    rintro ⟨c, hc, -⟩
    exact hno c hc

/-- The presentation that the text describes. -/
def read (text : String) : Except SyntaxFault PresentationText := do
  let fault (cause : SyntaxCause) : SyntaxFault := ⟨cause, text, none⟩
  let some body := body? text.toList | throw (fault .notEnclosed)
  let (left, right) := cutAt '|' body
  let right := right.getD []
  if right.contains '|' then throw (fault .secondBar)
  let generators := (fields ',' left).map trim
  if generators = [[]] then throw (fault .noGenerators)
  if let some bad := generators.find? (fun g => !isGenerator g) then
    throw (fault (.badGenerator (String.ofList bad)))
  let entries := ((fields ',' right).map trim).filter (fun e => !e.isEmpty)
  let relations ← entries.mapM (relatorText text)
  return ⟨generators.map String.ofList, relations.map String.ofList⟩

end PresentationText

end ToddCoxeter
