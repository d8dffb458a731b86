import ToddCoxeter.Fault
import ToddCoxeter.Text.Character

/-! # Integers written in decimal

`Numeral.read` reads an integer from a text: spacing around it is skipped, a sign may stand in
front, and what follows are decimal digits of any script, with single underscores allowed between
two digits.  Everything else is no numeral.  `Numeral.write` is the way back.

Converting long numerals is slow, so both take a `DigitLimit`, a bound on the number of digits; a
limit of `none` admits integers of any size. -/

namespace ToddCoxeter

/-- The largest number of digits with which integers are read and written, if there is one. -/
abbrev DigitLimit := Option Nat

namespace DigitLimit

/-- The limit that is in force where no other is asked for. -/
def standard : DigitLimit := some 4300

/-- The limit, if the number of digits is above it. -/
def exceeded? (limit : DigitLimit) (digits : Nat) : Option Nat := limit.filter (· < digits)

/-- Fails for a numeral with more digits than the limit allows. -/
def check (limit : DigitLimit) (digits : Nat) : Except Fault Unit :=
  match limit.exceeded? digits with
  | some most => .error (.tooManyDigits most digits)
  | none => .ok ()

@[simp]
theorem check_none (digits : Nat) : check none digits = .ok () := rfl

@[simp]
theorem check_some (most digits : Nat) :
    check (some most) digits =
      if most < digits then .error (.tooManyDigits most digits) else .ok () := by
  by_cases h : most < digits <;> simp [check, exceeded?, Option.filter, h]

end DigitLimit

namespace Numeral

open ToddCoxeter.Text

/-- The digits of an unsigned numeral, without the underscores between them. -/
def digits? (cs : List Char) : Option (List Char) :=
  let groups := fields '_' cs
  if groups.all fun group => !group.isEmpty && group.all isDigit then some groups.flatten else none

/-- Splits a sign off: the sign, if there is one, and what follows it. -/
def splitSign : List Char → Option Char × List Char
  | '-' :: cs => (some '-', cs)
  | '+' :: cs => (some '+', cs)
  | cs => (none, cs)

theorem toList_append_splitSign (cs : List Char) :
    (splitSign cs).1.toList ++ (splitSign cs).2 = cs := by
  unfold splitSign
  split <;> rfl

/-- The number with the given sign and size. -/
def signed (sign : Option Char) (n : Nat) : Int := if sign = some '-' then -(n : Int) else n

/-- May the character stand behind the sign of a numeral? -/
def isDigitOrUnderscore (c : Char) : Bool := isDigit c || c = '_'

/-- The integer that the text denotes.  The digits are counted before it is known what follows them,
so a numeral that is too long is too long even if it turns out to be none. -/
def read (limit : DigitLimit) (cs : List Char) : Except Fault Int := do
  let (sign, rest) := splitSign (cs.dropWhile isSpacing)
  let some ds := digits? (rest.takeWhile isDigitOrUnderscore) | throw (.badInteger (String.ofList cs))
  limit.check ds.length
  unless (rest.dropWhile isDigitOrUnderscore).all isSpacing do throw (.badInteger (String.ofList cs))
  return signed sign (decimalValue ds)

/-- The decimal digits of an integer behind its sign, unless they are too many. -/
def write (limit : DigitLimit) (n : Int) : Except Fault String :=
  match limit.exceeded? (Nat.toDigits 10 n.natAbs).length with
  | some most => .error (.tooLongToWrite most)
  | none => .ok (toString n)

end Numeral

end ToddCoxeter
