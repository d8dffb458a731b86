import ToddCoxeter.Fault

/-! # Words in generators and their inverses

A `Letter` is a generator or the inverse of one, and a `Word` is a list of letters.  Words are never
reduced: a letter next to its inverse stays where it is, since tracing a relation in a coset table
depends on every letter.  The product of words is the concatenation of lists, the empty word is the
identity, and `Word.inverse` turns a word round and inverts each letter. -/

namespace ToddCoxeter

/-- A generator, or its inverse if `inverted` is set. -/
structure Letter where
  /-- The name of the generator. -/
  gen : String
  /-- Does the letter stand for the inverse of the generator? -/
  inverted : Bool := false
deriving DecidableEq, Repr

namespace Letter

/-- The letter that undoes this one. -/
def inverse (x : Letter) : Letter := { x with inverted := !x.inverted }

@[simp] theorem inverse_inverse (x : Letter) : x.inverse.inverse = x := by
  simp [inverse]

@[simp] theorem gen_inverse (x : Letter) : x.inverse.gen = x.gen := rfl

@[simp] theorem inverted_inverse (x : Letter) : x.inverse.inverted = !x.inverted := rfl

/-- The generator, with a prime if it is inverted. -/
def render (x : Letter) : String := x.gen ++ if x.inverted then "'" else ""

/-- Every generator followed by its inverse, in the order of the generators. -/
def signed (gens : List String) : List Letter :=
  gens.flatMap fun g => [⟨g, false⟩, ⟨g, true⟩]

theorem mem_signed {gens : List String} {x : Letter} : x ∈ signed gens ↔ x.gen ∈ gens := by
  obtain ⟨g, b⟩ := x
  cases b <;> simp [signed]

end Letter

/-- A word in generators and their inverses, which is never reduced. -/
abbrev Word := List Letter

namespace Word

/-- The word read backwards with every letter inverted. -/
def inverse (w : Word) : Word := w.reverse.map Letter.inverse

theorem inverse_append (u v : Word) : inverse (u ++ v) = inverse v ++ inverse u := by
  simp [inverse]

theorem inverse_cons (x : Letter) (w : Word) : inverse (x :: w) = inverse w ++ [x.inverse] := by
  simp [inverse]

@[simp] theorem inverse_inverse (w : Word) : inverse (inverse w) = w := by
  simp only [inverse, ← List.map_reverse, List.reverse_reverse, List.map_map]
  exact List.map_id'' Letter.inverse_inverse w

@[simp] theorem length_inverse (w : Word) : (inverse w).length = w.length := by
  rw [inverse, List.length_map, List.length_reverse]

/-- The generators of the word in the order of their first occurrence. -/
def generators (w : Word) : List String := (w.map Letter.gen).eraseDups

end Word

end ToddCoxeter
