import ToddCoxeter.Table.Basic

/-! # Coincidences

Two nodes that are found to be the same are identified: the one with the smaller number is kept and
takes over the edges of the other (`Table.identify`).  A letter that leads from a node to several
others shows a coincidence of those.  `Table.sweep` identifies them in one pass over the live nodes,
and `Table.collapse` repeats such passes until one of them drops no node. -/

namespace ToddCoxeter.Table

/-- The table in which the live node `dropped` has become a part of the smaller live node `kept`. -/
def absorb (t : Table) (kept dropped : Nat) : Table :=
  let row := t.row dropped
  { t with
    forest := t.forest.link dropped kept
    rows := (t.rows.erase dropped).modify kept fun r => r.absorb row
    log := t.log.push (.identified kept dropped) }

/-- Makes two nodes one; the first component is the node that stands for both. -/
def identify (t : Table) (a b : Nat) : Nat × Table :=
  let (ra, t) := t.find a
  let (rb, t) := t.find b
  if ra = rb then (ra, t) else (min ra rb, t.absorb (min ra rb) (max ra rb))

/-- Identifies each of the nodes that is not `kept` with `kept`, and counts them. -/
def identifyAll (t : Table) (kept : Nat) : List Nat → Nat × Table
  | [] => (0, t)
  | i :: is =>
    if i = kept then t.identifyAll kept is
    else
      let (_, t) := t.identify kept i
      let (n, t) := t.identifyAll kept is
      (n + 1, t)

/-- Identifies the nodes to which the letter leads from a node, if that is alive, and counts the
nodes that are dropped. -/
def sweepLetter (t : Table) (i : Nat) (x : Letter) : Nat × Table :=
  if t.contains i then
    match t.neighbours i x with
    | ([], t) => (0, t)
    | (j :: js, t) => t.identifyAll (js.foldl min j) (j :: js)
  else (0, t)

/-- Does the same for several letters at a node. -/
def sweepNode (t : Table) (i : Nat) : List Letter → Nat × Table
  | [] => (0, t)
  | x :: xs =>
    let (m, t) := t.sweepLetter i x
    let (n, t) := t.sweepNode i xs
    (m + n, t)

/-- Does the same for several nodes. -/
def sweepNodes (t : Table) (letters : List Letter) : List Nat → Nat × Table
  | [] => (0, t)
  | i :: is =>
    let (m, t) := t.sweepNode i letters
    let (n, t) := t.sweepNodes letters is
    (m + n, t)

/-- One pass over the nodes that are alive at its start; the number of nodes that it drops. -/
def sweep (t : Table) (gens : List String) : Nat × Table :=
  t.sweepNodes (Letter.signed gens) t.ids

/-- Passes over the live nodes until one of them drops no node. -/
def collapse (t : Table) (gens : List String) : Table :=
  let after := (t.sweep gens).2
  if after.live < t.live then after.collapse gens else after
termination_by t.live

end ToddCoxeter.Table
