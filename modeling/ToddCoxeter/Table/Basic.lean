import ToddCoxeter.Graph
import ToddCoxeter.Event
import ToddCoxeter.Fault
import ToddCoxeter.Position
import ToddCoxeter.Register
import ToddCoxeter.Table.Forest

/-! # Coset tables

A `Table` holds the nodes and edges known so far in an enumeration.  Nodes are numbered in the order
in which they are made, and numbers are never used twice.  A live node has a `Row`: its word, whether
it is complete, and the edges at it.  Rows are listed in the order in which they were entered, so that
the table names its live nodes in the order in which they were made.  A node that was merged away has
no row any more, but the forest leads from it to the node that took its place; edges keep the ends
that they were made with, and the ends are looked up in the forest whenever an edge is followed.

This module has the parts of a table, the start of an enumeration (`Table.start`), and the questions
that change nothing but the forest's shape: `Table.find` and `Table.neighbours`. -/

namespace ToddCoxeter

/-- What a table knows about a live node. -/
structure Row where
  /-- A word that leads from the first node to this one. -/
  label : Word
  /-- Are all edges of the node known? -/
  complete : Bool := false
  /-- The edges that begin at the node or at one merged into it. -/
  outgoing : List (Edge Nat) := []
  /-- The edges that end at the node or at one merged into it. -/
  incoming : List (Edge Nat) := []
deriving DecidableEq, Repr

namespace Row

/-- The other ends, as stored, of the edges along which the letter leads from the node. -/
def farEnds (row : Row) (x : Letter) : List Nat :=
  if x.inverted then (row.incoming.filter (·.label = x.gen)).map Edge.source
  else (row.outgoing.filter (·.label = x.gen)).map Edge.target

/-- The row with the edges of a merged node behind its own. -/
def absorb (row dropped : Row) : Row :=
  { row with
    outgoing := row.outgoing ++ dropped.outgoing
    incoming := row.incoming ++ dropped.incoming }

end Row

/-- The nodes and edges known so far in an enumeration. -/
structure Table where
  /-- The largest number of nodes that may be alive at once. -/
  cap : Nat
  /-- The node that stands for each node ever made. -/
  forest : Forest
  /-- The rows of the live nodes in the order in which they were entered. -/
  rows : Register Row
  /-- All edges in the order in which they were made. -/
  edges : Array (Edge Nat) := #[]
  /-- For some generators, the nodes to which they lead from each node in order. -/
  columns : List (String × Array Nat) := []
  /-- Is the table closed, so that its nodes are numbered without gaps? -/
  closed : Bool := false
  /-- What has happened to the table. -/
  log : Array Event := #[]

/-- The outcome of an operation that may fail, and the table that it leaves behind in either case. -/
abbrev Attempt (ε α : Type) := Except ε α × Table

namespace Table

/-- The table with the first node alone. -/
def start (cap : Nat) : Table :=
  { cap, forest := .discrete 1, rows := Register.empty.insert 0 { label := [] } }

/-- The first table of an enumeration with the given cap, which has to be positive. -/
def withCap (cap : Int) : Except Fault Table :=
  if cap < 1 then .error .capNotPositive else .ok (start cap.toNat)

/-- The numbers of the live nodes in the order in which their rows were entered. -/
def ids (t : Table) : List Nat := t.rows.keys

/-- The number of live nodes. -/
def live (t : Table) : Nat := t.rows.size

/-- Is the node alive? -/
def contains (t : Table) (i : Nat) : Bool := t.rows.contains i

/-- The node that stands for the given one. -/
def root (t : Table) (i : Nat) : Nat := t.forest.root i

/-- The node that stands for the given one, found with compression of the way. -/
def find (t : Table) (i : Nat) : Nat × Table :=
  let (r, forest) := t.forest.find i
  (r, { t with forest })

/-- The row of a live node; a node without a row has no edges. -/
def row (t : Table) (i : Nat) : Row := t.rows.getD i { label := [] }

/-- The node that stands for the given one, with its word. -/
def node (t : Table) (i : Nat) : Node :=
  let r := t.root i
  let row := t.row r
  ⟨r, row.label, row.complete⟩

/-- The live nodes in the order in which their rows were entered. -/
def nodes (t : Table) : List Node := t.ids.map t.node

/-- The live nodes to which the letter leads from the node, each once. -/
def neighbours (t : Table) (i : Nat) (x : Letter) : List Nat × Table :=
  let (r, t) := t.find i
  let (ends, forest) := t.forest.findAll ((t.row r).farEnds x)
  (ends.eraseDups, { t with forest })

/-- The first live node, in the order in which their rows were entered, that is not complete. -/
def pending? (t : Table) : Option Nat :=
  (t.rows.toList.find? fun entry => !entry.2.complete).map (·.1)

/-- Notes that all edges of the node are known. -/
def markComplete (t : Table) (i : Nat) : Table :=
  { t with rows := t.rows.modify (t.root i) fun row => { row with complete := true } }

/-- Records an event. -/
def record (t : Table) (e : Event) : Table := { t with log := t.log.push e }

/-- The node that an integer names among all nodes ever made, `-1` being the last one. -/
def locate (t : Table) (i : Int) : Except Fault Nat := Position.locate t.forest.size i

/-! ### What finding changes -/

@[simp] theorem fst_find (t : Table) (i : Nat) : (t.find i).1 = t.root i := rfl

theorem snd_find (t : Table) (i : Nat) :
    (t.find i).2 = { t with forest := (t.forest.find i).2 } := rfl

@[simp] theorem root_snd_find (t : Table) (i j : Nat) : (t.find i).2.root j = t.root j :=
  t.forest.root_snd_find i j

theorem fst_neighbours (t : Table) (i : Nat) (x : Letter) :
    (t.neighbours i x).1 = (((t.row (t.root i)).farEnds x).map t.root).eraseDups := by
  simp only [neighbours, snd_find, fst_find, Forest.fst_findAll]
  congr 2
  funext j
  exact t.forest.root_snd_find i j

@[simp] theorem root_snd_neighbours (t : Table) (i j : Nat) (x : Letter) :
    (t.neighbours i x).2.root j = t.root j := by
  simp only [neighbours, snd_find, root, Forest.root_snd_findAll, Forest.root_snd_find]

end Table

end ToddCoxeter
