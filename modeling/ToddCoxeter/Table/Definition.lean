import ToddCoxeter.Table.Basic

/-! # Definition of nodes

Where a letter does not lead anywhere yet, a new node is defined for it to lead to.  `Table.step`
goes along one letter and `Table.trace` along a word, and both define the nodes that are missing.
They fail when a definition would keep more nodes alive than the cap allows; the node that was one
too many then stays in the table without an edge. -/

namespace ToddCoxeter.Table

/-- The table with one more node, which bears the given word and has no edges. -/
def addNode (t : Table) (label : Word) : Table :=
  { t with
    forest := t.forest.push
    rows := t.rows.insert t.forest.size { label } }

/-- The table with one more edge between two live nodes. -/
def addEdge (t : Table) (e : Edge Nat) : Table :=
  { t with
    edges := t.edges.push e
    rows :=
      (t.rows.modify e.source fun row => { row with outgoing := row.outgoing ++ [e] }).modify
        e.target fun row => { row with incoming := row.incoming ++ [e] } }

/-- Defines the node to which the letter leads from the live node `i`. -/
def define (t : Table) (i : Nat) (x : Letter) : Attempt CapacityFault Nat :=
  let new := t.forest.size
  let t := t.addNode ((t.row i).label ++ [x])
  if t.cap < t.live then (.error ⟨t.cap⟩, t)
  else (.ok new, t.addEdge (if x.inverted then ⟨new, i, x.gen⟩ else ⟨i, new, x.gen⟩))

/-- The node to which the letter leads from the node along the first edge for it. -/
def step (t : Table) (i : Nat) (x : Letter) : Attempt CapacityFault Nat :=
  let (r, t) := t.find i
  match (t.row r).farEnds x with
  | [] => t.define r x
  | j :: _ =>
    let (s, t) := t.find j
    (.ok s, t)

/-- Follows several letters from the same node. -/
def stepAll (t : Table) (i : Nat) : List Letter → Attempt CapacityFault Unit
  | [] => (.ok (), t)
  | x :: xs =>
    match t.step i x with
    | (.error fault, t) => (.error fault, t)
    | (.ok _, t) => t.stepAll i xs

/-- The node to which the word leads from the node. -/
def trace (t : Table) (i : Nat) : Word → Attempt CapacityFault Nat
  | [] =>
    let (r, t) := t.find i
    (.ok r, t)
  | x :: w =>
    match t.step i x with
    | (.error fault, t) => (.error fault, t)
    | (.ok j, t) => t.trace j w

end ToddCoxeter.Table
