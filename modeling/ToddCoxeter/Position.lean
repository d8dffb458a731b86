import ToddCoxeter.Fault

/-! # Positions counted from either end

A list of length `n` has the positions `0` to `n - 1`; the negative numbers `-1` to `-n` count from
its end.  `Position.resolve? n i` is the position that `i` names, if any, and `Position.locate n i`
fails if there is none, with a failure of its own for numbers that take more than 64 bits and so lie
outside of any list.

A `Slice` names every `step`-th position from `start` on and before `stop`, with either bound cut
back to the list and a negative step going towards its front. -/

namespace ToddCoxeter

namespace Position

/-- The position that `i` names in a list of the given length. -/
def resolve? (length : Nat) (i : Int) : Option Nat :=
  if 0 ≤ i then
    if i < length then some i.toNat else none
  else if 0 ≤ i + length then some (i + length).toNat
  else none

theorem lt_of_resolve? {n p : Nat} {i : Int} (h : resolve? n i = some p) : p < n := by
  unfold resolve? at h
  split at h <;> split at h <;> simp at h <;> omega

theorem resolve?_natCast {n i : Nat} (h : i < n) : resolve? n (i : Int) = some i := by
  simp [resolve?, h]

/-- Does the number fit into 64 bits, one of them for the sign? -/
def fits (i : Int) : Bool := -0x8000000000000000 ≤ i && i < 0x8000000000000000

/-- The position that `i` names in a list of the given length, or the failure that it names none. -/
def locate (length : Nat) (i : Int) : Except Fault Nat :=
  match resolve? length i with
  | some p => .ok p
  | none => .error (if fits i then .indexOutOfRange else .indexTooWide)

theorem locate_eq_ok_iff {n p : Nat} {i : Int} : locate n i = .ok p ↔ resolve? n i = some p := by
  unfold locate
  split <;> simp [*]

end Position

/-- A range of positions; a missing bound stands for the end of the list, a missing step for one. -/
structure Slice where
  /-- The first position, if given. -/
  start : Option Int
  /-- The position before which the range ends, if given. -/
  stop : Option Int
  /-- The distance of two neighbours, if given. -/
  step : Option Int
deriving DecidableEq, Repr

namespace Slice

/-- The bound moved into a list of the given length: a negative bound counts from the end, and what
still lies outside is cut back to `lowest` or `highest`. -/
def clamp (length lowest highest bound : Int) : Int :=
  let fromFront := if bound < 0 then bound + length else bound
  max lowest (min highest fromFront)

/-- The positions `first`, `first + step`, … of the given number. -/
def progression (first step : Int) : Nat → List Nat
  | 0 => []
  | n + 1 => first.toNat :: progression (first + step) step n

/-- The positions that the slice names in a list of the given length; none for a step of zero. -/
def positions? (s : Slice) (length : Nat) : Option (List Nat) :=
  let n : Int := length
  let step := s.step.getD 1
  if step = 0 then none
  else if 0 < step then
    let first := s.start.elim 0 (clamp n 0 n)
    let stop := s.stop.elim n (clamp n 0 n)
    some (progression first step ((stop - first + step - 1) / step).toNat)
  else
    let first := s.start.elim (n - 1) (clamp n (-1) (n - 1))
    let stop := s.stop.elim (-1) (clamp n (-1) (n - 1))
    some (progression first step ((first - stop - step - 1) / (-step)).toNat)

/-- The entries at the positions that the slice names. -/
def of? {α : Type} (s : Slice) (entries : List α) : Option (List α) :=
  (s.positions? entries.length).map fun ps => ps.filterMap (entries[·]?)

end Slice

end ToddCoxeter
