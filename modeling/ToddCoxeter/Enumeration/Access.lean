import ToddCoxeter.Enumeration.Run
import ToddCoxeter.Permutation

/-! # Questions about an enumerated group

Once a run has finished, the order of the group, the node of a word and the permutations by which the
generators act on the nodes can be asked for.  All of these fail as long as no graph is known. -/

namespace ToddCoxeter

/-- The columns of a closed table, as permutations of its nodes. -/
def Table.permutations (t : Table) : List (String × Permutation) :=
  t.columns.map fun column => (column.1, ⟨column.2⟩)

/-- The node of a graph with the given number. -/
def Graph.nodeAt (g : Graph) (i : Nat) : Except Fault Node :=
  match g.nodes[i]? with
  | some n => .ok n
  | none => .error .indexOutOfRange

namespace Enumeration

/-- Fails as long as no graph is known. -/
def checkComputed (e : Enumeration) : Except Fault Unit :=
  if e.isComputed then .ok () else .error .notComputed

/-- The number of elements of the group. -/
def order (e : Enumeration) : Except Fault Nat := do
  e.checkComputed
  return e.graph.nodes.length

/-- The node of the element that the word denotes. -/
def nodeOf (e : Enumeration) (w : Word) : Except Fault Node := do
  e.checkComputed
  e.graph.nodeAt (← e.table.actWord 0 w)

/-- The node of the element that the text of a word denotes. -/
def nodeOfText (e : Enumeration) (limit : DigitLimit) (text : String) : Except Fault Node := do
  e.checkComputed
  e.nodeOf (← Relator.parse limit text)

/-- The permutations of the nodes by which the generators act. -/
def permutations (e : Enumeration) : Except Fault (List (String × Permutation)) := do
  e.checkComputed
  return e.table.permutations

/-- The group that these permutations generate. -/
def group (e : Enumeration) : Except Fault PermutationGroup := do
  let ps ← e.permutations
  return .generatedBy (ps.map (·.2))

/-! ### What an enumeration refuses

Reading relations, powers of words and making enumerations are functions of the library.  Asked of an
enumeration, which stands for one group only, they fail whatever their arguments are. -/

/-- Reading a relation is not a matter of one enumeration. -/
def readRelation (_ : Enumeration) (_ : String) : Except Fault Word := .error .libraryFunction

/-- Taking a power of a word is not a matter of one enumeration. -/
def power (_ : Enumeration) (_ : Word) (_ : Int) : Except Fault Word := .error .libraryFunction

/-- An enumeration does not make other enumerations. -/
def readPresentation (_ : Enumeration) (_ : String) : Except Fault Enumeration :=
  .error .libraryConstructor

end Enumeration

end ToddCoxeter
