import ToddCoxeter.Position
import ToddCoxeter.Word.Basic

/-! # Parts and powers of words

`Word.letterAt` gives the letter at a position, which may be counted from either end, and
`Word.slice` the word of the letters at the positions of a slice.

`Word.pow w n` repeats a word `n` times, or its inverse `-n` times if `n` is negative.  The power is
built by squaring (`Word.powNat`), so that an exponent of many digits is no obstacle as long as the
word itself stays short. -/

namespace ToddCoxeter.Word

/-- The letter at a position, which may be counted from either end. -/
def letterAt (w : Word) (i : Int) : Except Fault Letter := do
  let p ← Position.locate w.length i
  match w[p]? with
  | some x => return x
  | none => throw .indexOutOfRange

/-- The letters at the positions that the slice names. -/
def slice (w : Word) (s : Slice) : Except Fault Word :=
  match s.of? w with
  | some v => .ok v
  | none => .error .zeroStep

/-- The word repeated `n` times: the square of the half power, and once more the word if `n` is
odd. -/
def powNat (w : Word) (n : Nat) : Word :=
  if n = 0 then []
  else
    let half := powNat w (n / 2)
    if n % 2 = 0 then half ++ half else half ++ half ++ w
termination_by n
decreasing_by omega

/-- The power of a word; a negative exponent inverts the power of the opposite exponent. -/
def pow (w : Word) (n : Int) : Word :=
  if n < 0 then inverse (powNat w n.natAbs) else powNat w n.natAbs

end ToddCoxeter.Word
