import ToddCoxeter.Presentation

/-! # The log of an enumeration

While a group is enumerated, `Event`s are recorded: two nodes were found to be the same, a node was
completed, the graph was finished.  `Event.message` puts an event into words. -/

namespace ToddCoxeter

/-- What is worth recording during an enumeration. -/
inductive Event where
  /-- The node `dropped` was found to be the node `kept`. -/
  | identified (kept dropped : Nat)
  /-- All edges of a node are known; so many nodes are alive and so many edges are stored. -/
  | completed (id : Nat) (label : Word) (nodes edges : Nat)
  /-- The graph of the presented group is finished. -/
  | enumerated (presentation : Presentation) (elements edges : Nat)
deriving DecidableEq, Repr

/-- The part of the library that records an event. -/
inductive Recorder where
  /-- The coset table. -/
  | table
  /-- The enumeration that fills the table. -/
  | enumeration
deriving DecidableEq, Repr

/-- How much an event matters. -/
inductive Severity where
  /-- A detail of the course of the enumeration. -/
  | detail
  /-- A result. -/
  | result
deriving DecidableEq, Repr

/-- The presented group's graph in words. -/
def Presentation.graphName (p : Presentation) : String := "Cayley graph of " ++ p.render

namespace Event

/-- Who records the event. -/
def recorder : Event → Recorder
  | identified .. => .table
  | completed .. => .enumeration
  | enumerated .. => .enumeration

/-- How much the event matters. -/
def severity : Event → Severity
  | identified .. => .detail
  | completed .. => .detail
  | enumerated .. => .result

/-- The event in words. -/
def message : Event → String
  | identified kept dropped =>
    "Identifying node " ++ toString kept ++ " with " ++ toString dropped
  | completed id label nodes edges =>
    "Completed node " ++ toString id ++ " (" ++ label.render ++ "), " ++ toString nodes ++
      " nodes, " ++ toString edges ++ " edges"
  | enumerated p elements edges =>
    "Enumerated " ++ p.graphName ++ ": " ++ toString elements ++ " elements, " ++
      toString edges ++ " edges"

end Event

end ToddCoxeter
