import ToddCoxeter.Word.Runs

/-! # Cayley graphs

A `Node` of a Cayley graph is numbered, carries a word that leads to it from the first node, and is
complete once all its edges are known.  An `Edge` is labelled by a generator and stands for the
generator in one direction and for its inverse in the other. -/

namespace ToddCoxeter

/-- A group element, or a coset that may still turn out to be another one. -/
structure Node where
  /-- The number of the node. -/
  id : Nat
  /-- A word that leads from the first node to this one. -/
  label : Word
  /-- Are all edges of the node known? -/
  complete : Bool
deriving DecidableEq, Repr

/-- The number of the node and its word. -/
def Node.render (n : Node) : String := "Node(" ++ toString n.id ++ ", " ++ n.label.render ++ ")"

/-- A directed edge between two nodes that are named by values of `ν`. -/
structure Edge (ν : Type) where
  /-- The node where the edge begins. -/
  source : ν
  /-- The node where the edge ends. -/
  target : ν
  /-- The generator that leads from the source to the target. -/
  label : String
deriving DecidableEq, Repr

namespace Edge

variable {ν μ : Type}

/-- The edge between the nodes that `f` makes of its ends. -/
def map (f : ν → μ) (e : Edge ν) : Edge μ := ⟨f e.source, f e.target, e.label⟩

/-- Do the two edges lead from the same node to the same node? -/
def parallel [DecidableEq ν] (e f : Edge ν) : Bool := e.source = f.source && e.target = f.target

/-- The ends of the edge around its label. -/
def render [ToString ν] (e : Edge ν) : String :=
  toString e.source ++ " -- " ++ e.label ++ " --> " ++ toString e.target

end Edge

/-- The nodes of a Cayley graph in the order of their numbers, and its edges in the order in which
they were found. -/
structure Graph where
  /-- One node for each group element. -/
  nodes : List Node
  /-- One edge for each pair of neighbours. -/
  edges : List (Edge Nat)
deriving DecidableEq, Repr

/-- The graph without nodes. -/
def Graph.empty : Graph := ⟨[], []⟩

end ToddCoxeter
