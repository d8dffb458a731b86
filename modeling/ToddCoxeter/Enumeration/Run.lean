import ToddCoxeter.Enumeration.Basic
import ToddCoxeter.Loop
import ToddCoxeter.Table.Coincidence
import ToddCoxeter.Table.Definition

/-! # Running an enumeration

As long as there is a node that is not complete, the first such node is completed
(`Table.completeNode`): every letter is followed from it, so that nodes are defined where some are
missing; every relator is traced from it and has to lead back to it; and the coincidences that show
collapse the table.  `Enumeration.run` repeats this and closes the table.  It fails if the cap is passed,
and then leaves a table with the first node alone.

The number of rounds is bounded by `roundBits`, more than a run can take: read `cap` rows, those of the
live nodes in the order of the nodes.  An entry of a complete node is the number of live nodes before
the one that it leads to, every other entry is `cap`.  Every round makes this sequence lexicographically
smaller: it completes one more node, or the first entry that it changes leads to a smaller node.  The
sequence has `2 * gens * cap` entries, each at most `cap`. -/

namespace ToddCoxeter

namespace Table

/-- Traces the relators from the node, and identifies it with the node to which each of them
leads. -/
def closeRelators (t : Table) (i : Nat) : List Word → Attempt CapacityFault Unit
  | [] => (.ok (), t)
  | w :: ws =>
    let (start, t) := t.find i
    match t.trace start w with
    | (.error fault, t) => (.error fault, t)
    | (.ok stop, t) =>
      let (_, t) := t.identify start stop
      t.closeRelators i ws

/-- Notes that all edges of the node are known, if it is still alive. -/
def markCompleteIfLive (t : Table) (i : Nat) : Table :=
  if t.contains i then t.markComplete i else t

/-- Completes the live node `i`, unless it turns out to be a smaller node. -/
def completeNode (t : Table) (p : Presentation) (i : Nat) : Attempt CapacityFault Unit :=
  let label := (t.row i).label
  match t.stepAll i p.letters with
  | (.error fault, t) => (.error fault, t)
  | (.ok _, t) =>
    match t.closeRelators i p.relators with
    | (.error fault, t) => (.error fault, t)
    | (.ok _, t) =>
      let t := (t.collapse p.generators).markCompleteIfLive i
      (.ok (), t.record (.completed i label t.live t.edges.size))

/-- One round: completes the first node that is not complete, if there is one. -/
def round (p : Presentation) (t : Table) : Table ⊕ Attempt CapacityFault Unit :=
  match t.pending? with
  | none => .inr (.ok (), t)
  | some i =>
    match t.completeNode p i with
    | (.error fault, t) => .inr (.error fault, t)
    | (.ok _, t) => .inl t

/-- A number of bits that counts more rounds than an enumeration can take. -/
def roundBits (p : Presentation) (cap : Nat) : Nat :=
  2 * p.generators.length * cap * ((cap + 1).log2 + 1) + 1

/-- Completes one node after the other until all are complete or the cap is passed. -/
def enumerate (t : Table) (p : Presentation) : Attempt Fault Unit :=
  match Loop.run (round p) (roundBits p t.cap) t with
  | .inl t => (.error .unfinished, t)
  | .inr (.error fault, t) => (.error (.overflow fault), t)
  | .inr (.ok _, t) => (.ok (), t)

end Table

namespace Enumeration

/-- The name under which the graph of a finished run is remembered. -/
def runKey : String := "run"

/-- Is the graph known? -/
def isComputed (e : Enumeration) : Bool := e.memo.contains runKey

/-- What a run gives, and what happened to the table in the course of it. -/
structure Report where
  /-- The events of this run. -/
  log : List Event
  /-- The graph, or the cause of failure. -/
  outcome : Except Fault Graph

/-- Enumerates the group and closes the table.  If the cap is passed, the table is given up for one
with the first node alone.  The log is handed over and not kept. -/
def compute (e : Enumeration) : Report × Enumeration :=
  match e.table.enumerate e.presentation with
  | (.error fault, t) => (⟨t.log.toList, .error fault⟩, { e with table := .start e.cap })
  | (.ok _, t) =>
    match t.close e.presentation.generators with
    | (.error fault, t) =>
      (⟨t.log.toList, .error fault⟩, { e with table := { t with log := #[] } })
    | (.ok graph, t) =>
      let t := t.record (.enumerated e.presentation graph.nodes.length graph.edges.length)
      (⟨t.log.toList, .ok graph⟩, { e with table := { t with log := #[] }, graph })

/-- The remembered graph, or else the outcome of computing it, which is remembered if it is a
graph. -/
def run (e : Enumeration) : Report × Enumeration :=
  match e.memo.get? runKey with
  | some graph => (⟨[], .ok graph⟩, e)
  | none =>
    let (report, e) := e.compute
    match report.outcome with
    | .ok graph => (report, { e with memo := e.memo.insert runKey (some graph) })
    | .error _ => (report, e)

/-- Forgets the graph; the table stays as it is. -/
def forget (e : Enumeration) : Enumeration := { e with memo := e.memo.clear }

end Enumeration

end ToddCoxeter
