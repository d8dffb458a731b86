import ToddCoxeter.Table.Basic

/-! # Closing a table

When every node is complete, `Table.close` ends the enumeration: it records a column for each
generator, the list of the nodes to which the generator leads, keeps of parallel edges the first, and
numbers the live nodes without gaps.  From then on `Table.act` reads off the columns how letters act
on nodes. -/

namespace ToddCoxeter

namespace Edge

variable {ν : Type} [DecidableEq ν]

/-- The list with the edge at its end, unless a parallel edge is in it. -/
def addIfNew (kept : Array (Edge ν)) (e : Edge ν) : Array (Edge ν) :=
  if kept.any (·.parallel e) then kept else kept.push e

/-- Of parallel edges the first, in the order of the list. -/
def firsts (es : List (Edge ν)) : List (Edge ν) := (es.foldl addIfNew #[]).toList

end Edge

/-- The entries with the value of a key replaced, or with a new entry at the end. -/
def setEntry {α : Type} (key : String) (value : α) : List (String × α) → List (String × α)
  | [] => [(key, value)]
  | (k, v) :: rest => if k = key then (k, value) :: rest else (k, v) :: setEntry key value rest

/-- The only value of a list, or the failure that there is none or more than one. -/
def onlyValue {α : Type} : List α → Except Fault α
  | [a] => .ok a
  | [] => .error (.tooFewValues 1 0)
  | _ :: _ :: _ => .error (.tooManyValues 1)

namespace Table

/-- For each of the given nodes the place, in the list `order`, of the node to which the letter
leads; fails when it leads from one of them nowhere or to several nodes. -/
def column (t : Table) (order : List Nat) (x : Letter) : List Nat → Attempt Fault (List Nat)
  | [] => (.ok [], t)
  | i :: is =>
    let (targets, t) := t.neighbours i x
    match onlyValue targets with
    | .error fault => (.error fault, t)
    | .ok j =>
      match t.column order x is with
      | (.error fault, t) => (.error fault, t)
      | (.ok places, t) => (.ok (order.idxOf j :: places), t)

/-- Records the columns of the generators, up to the first that does not lead from every node to one
node. -/
def recordColumns (t : Table) : List String → Attempt Fault Unit
  | [] => (.ok (), t)
  | g :: gens =>
    match t.column t.ids ⟨g, false⟩ t.ids with
    | (.error fault, t) => (.error fault, t)
    | (.ok places, t) =>
      { t with columns := setEntry g places.toArray t.columns }.recordColumns gens

/-- The edges between live nodes, the first of parallel ones. -/
def liveEdges (t : Table) : List (Edge Nat) := Edge.firsts (t.edges.toList.map (Edge.map t.root))

/-- The rows of the live nodes in their order, without their edges. -/
def bareRows (t : Table) : List Row :=
  t.rows.values.map fun row => { label := row.label, complete := row.complete }

/-- The closed table: live nodes numbered without gaps and no edges at them. -/
def renumber (t : Table) : Table :=
  let order := t.ids
  let rows := t.bareRows
  { t with
    forest := .discrete rows.length
    rows := .ofList (rows.zipIdx.map fun entry => (entry.2, entry.1))
    edges := (t.liveEdges.map (Edge.map order.idxOf)).toArray
    closed := true }

/-- The graph of a closed table. -/
def graph (t : Table) : Graph := ⟨t.nodes, t.edges.toList⟩

/-- Closes the table, if it is open and each of the generators leads from every node to one node. -/
def close (t : Table) (gens : List String) : Attempt Fault Graph :=
  if t.closed then (.error .alreadyClosed, t)
  else
    match t.recordColumns gens with
    | (.error fault, t) => (.error fault, t)
    | (.ok _, t) =>
      let t := t.renumber
      (.ok t.graph, t)

/-- The node to which a letter leads from a node of a closed table, read off the columns.  Against
its direction a generator is followed by looking the node up in the column. -/
def act (t : Table) (i : Int) (x : Letter) : Except Fault Nat := do
  unless t.closed do throw .notClosed
  let some places := t.columns.lookup x.gen | throw (.unknownGenerator x.gen)
  if x.inverted then
    require (places.findIdx? fun (j : Nat) => (j : Int) = i)
  else
    let p ← Position.locate places.size i
    match places[p]? with
    | some j => return j
    | none => throw .indexOutOfRange

/-- The node to which all letters of a word lead, one after the other. -/
def actWord (t : Table) (i : Nat) : Word → Except Fault Nat
  | [] => .ok i
  | x :: w => do t.actWord (← t.act i x) w

end Table

end ToddCoxeter
