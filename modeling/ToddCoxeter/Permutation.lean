import ToddCoxeter.Loop

/-! # Permutations

A `Permutation` of the points `0` to `degree - 1` is given by the list of their images.  Its order is
the least common multiple of the lengths of its cycles.

The elements of the group that some permutations generate are found by multiplying each element found
so far by each generator (`PermutationGroup.elements`).  The order of the group is the number of its
elements, and the group is abelian if and only if its generators commute with each other. -/

namespace ToddCoxeter

/-- A permutation, given by the images of the points in order. -/
structure Permutation where
  /-- The image of each point. -/
  images : Array Nat
deriving DecidableEq, Repr

namespace Permutation

/-- The number of points. -/
def degree (p : Permutation) : Nat := p.images.size

/-- The image of a point. -/
def apply (p : Permutation) (i : Nat) : Nat := p.images.getD i i

/-- The permutation of `n` points that moves none. -/
def identity (n : Nat) : Permutation := ⟨Array.range n⟩

/-- First `p`, then `q`. -/
def andThen (p q : Permutation) : Permutation := ⟨p.images.map q.apply⟩

/-- How often `p` has to be applied to get from `j` to `i`, if that is less than the bound. -/
def distance (p : Permutation) (i : Nat) : Nat → Nat → Nat
  | 0, _ => 0
  | bound + 1, j => if j = i then 0 else p.distance i bound (p.apply j) + 1

/-- The length of the cycle on which the point lies. -/
def cycleLength (p : Permutation) (i : Nat) : Nat := p.distance i p.degree (p.apply i) + 1

/-- The least positive number of repetitions that moves no point. -/
def order (p : Permutation) : Nat :=
  (List.range p.degree).foldl (fun n i => n.lcm (p.cycleLength i)) 1

end Permutation

/-! ### Groups generated by permutations -/

/-- The group that some permutations of the same points generate. -/
structure PermutationGroup where
  /-- The number of points. -/
  degree : Nat
  /-- The permutations that generate the group. -/
  generators : List Permutation
deriving DecidableEq, Repr

namespace PermutationGroup

/-- The group that the permutations generate, on as many points as the largest of them has. -/
def generatedBy (ps : List Permutation) : PermutationGroup :=
  ⟨ps.foldr (fun p n => max p.degree n) 0, ps⟩

/-- The elements found so far, and those of them that are not yet multiplied by the generators. -/
structure Search where
  /-- The elements found so far. -/
  found : List Permutation
  /-- The elements that are still to be multiplied by the generators. -/
  todo : List Permutation
deriving DecidableEq, Repr

/-- Multiplies one element by all generators; without such an element the search is over. -/
def Search.step (gens : List Permutation) (s : Search) : Search ⊕ List Permutation :=
  match s.todo with
  | [] => .inr s.found
  | p :: rest =>
    let fresh := ((gens.map p.andThen).filter fun q => !s.found.contains q).eraseDups
    .inl ⟨fresh ++ s.found, fresh ++ rest⟩

/-- A number of bits that counts more than all permutations of `n` points. -/
def searchBits (n : Nat) : Nat := n * (n.log2 + 1) + 1

/-- The elements of the group. -/
def elements (g : PermutationGroup) : List Permutation :=
  let one := Permutation.identity g.degree
  match Loop.run (Search.step g.generators) (searchBits g.degree) ⟨[one], [one]⟩ with
  | .inl s => s.found
  | .inr found => found

/-- The number of elements. -/
def order (g : PermutationGroup) : Nat := g.elements.length

/-- Do all generators commute with each other? -/
def isAbelian (g : PermutationGroup) : Bool :=
  g.generators.all fun p => g.generators.all fun q => p.andThen q == q.andThen p

end PermutationGroup

end ToddCoxeter
