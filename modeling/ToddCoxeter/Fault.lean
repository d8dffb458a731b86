import ToddCoxeter.Datum

/-! # What can go wrong

`SyntaxFault` tells why a relation or a presentation cannot be read, `CapacityFault` that an
enumeration outgrew its cap, and `Fault` collects these with the other causes of failure.  Each cause
is a constructor; `Fault.message` is the only place that puts causes into words. -/

namespace ToddCoxeter

/-- Why a text is no relation or no presentation. -/
inductive SyntaxCause where
  /-- A character that belongs to no token. -/
  | badToken (c : Char)
  /-- An exponent or prime before any token. -/
  | leadingExponent
  /-- An exponent or prime right after an opening parenthesis. -/
  | exponentAfterOpening
  /-- A closing parenthesis without an opening one. -/
  | mismatchedParentheses
  /-- An opening parenthesis without a closing one. -/
  | unclosedParenthesis
  /-- A presentation that does not stand between angle brackets. -/
  | notEnclosed
  /-- A presentation with a second bar. -/
  | secondBar
  /-- A presentation that lists no generator. -/
  | noGenerators
  /-- A generator of a presentation that is not a single ASCII letter. -/
  | badGenerator (generator : String)
  /-- An entry with more than one sign of equality. -/
  | chainedEquation (entry : String)
  /-- An equation that lacks a side. -/
  | emptySide (entry : String)
deriving DecidableEq, Repr

/-- A text that cannot be read, with the cause and, where it has one, its position. -/
structure SyntaxFault where
  /-- Why the text cannot be read. -/
  cause : SyntaxCause
  /-- The text that was to be read. -/
  text : String
  /-- The index of the offending character. -/
  position : Option Nat
deriving DecidableEq, Repr

/-- More nodes are alive than the cap allows. -/
structure CapacityFault where
  /-- The largest number of nodes that may be alive at once. -/
  cap : Nat
deriving DecidableEq, Repr

/-- The causes of failure. -/
inductive Fault where
  /-- A relation or presentation cannot be read. -/
  | malformed (fault : SyntaxFault)
  /-- An enumeration outgrew its cap. -/
  | overflow (fault : CapacityFault)
  /-- A cap below one. -/
  | capNotPositive
  /-- The sign of zero was asked for. -/
  | signOfZero
  /-- A text that is no integer. -/
  | badInteger (numeral : String)
  /-- A text that writes an integer with more digits than the limit allows. -/
  | tooManyDigits (limit digits : Nat)
  /-- An integer that cannot be written with as many digits as the limit allows. -/
  | tooLongToWrite (limit : Nat)
  /-- A value that has to be there is absent. -/
  | absent
  /-- An index outside its list. -/
  | indexOutOfRange
  /-- An index that is too large for any list. -/
  | indexTooWide
  /-- Fewer values than there are places for them. -/
  | tooFewValues (expected got : Nat)
  /-- More values than there are places for them. -/
  | tooManyValues (expected : Nat)
  /-- A slice with a step of zero. -/
  | zeroStep
  /-- A value that cannot be taken apart into entries. -/
  | notIterable (kind : String)
  /-- A table is closed a second time. -/
  | alreadyClosed
  /-- A table that is still open is asked for images. -/
  | notClosed
  /-- An image under a generator that the table does not act by. -/
  | unknownGenerator (generator : String)
  /-- A presentation without generators. -/
  | noGenerators
  /-- A generator that is not a single letter. -/
  | notALetter (generator : Datum)
  /-- A list of generators with a repetition. -/
  | duplicateGenerators (generators : List Datum)
  /-- A relation in a letter that is no generator. -/
  | foreignGenerator (relation generator : String)
  /-- The graph was asked for before it was computed. -/
  | notComputed
  /-- A function that belongs to the library alone was asked of an enumeration. -/
  | libraryFunction
  /-- A constructor that belongs to the library alone was asked of an enumeration. -/
  | libraryConstructor
  /-- The step budget of an enumeration is used up. -/
  | unfinished
deriving Repr

namespace SyntaxCause

/-- The cause in words. -/
def message : SyntaxCause → String
  | badToken c => "bad token " ++ Text.quoted (String.singleton c)
  | leadingExponent => "expression begins with exponent"
  | exponentAfterOpening => "exponent follows open parenthesis"
  | mismatchedParentheses => "mismatched parentheses"
  | unclosedParenthesis => "unclosed parenthesis"
  | notEnclosed => "presentation must be enclosed in < >"
  | secondBar => "more than one '|'"
  | noGenerators => "presentation has no generators"
  | badGenerator generator => "bad generator " ++ Text.quoted generator
  | chainedEquation entry => "chained equation " ++ Text.quoted entry
  | emptySide entry => "empty side in " ++ Text.quoted entry

end SyntaxCause

/-- The cause, the position if there is one, and the text. -/
def SyntaxFault.message (fault : SyntaxFault) : String :=
  let place :=
    match fault.position with
    | none => ""
    | some p => " at position " ++ toString p
  "Syntax error: " ++ fault.cause.message ++ place ++ " in " ++ Text.quoted fault.text

/-- The cap that was passed. -/
def CapacityFault.message (fault : CapacityFault) : String :=
  "Group too large: more than " ++ toString fault.cap ++ " elements."

/-- The number of characters after which a quoted text that is no integer is broken off. -/
def quotedNumeralWidth : Nat := 200

/-- The failure in words. -/
def Fault.message : Fault → String
  | malformed fault => fault.message
  | overflow fault => fault.message
  | capNotPositive => "max_size must be positive"
  | signOfZero => "Sign of 0 is undefined"
  | badInteger numeral =>
    "invalid literal for int() with base 10: " ++ Text.quotedWithin quotedNumeralWidth numeral
  | tooManyDigits limit digits =>
    "Exceeds the limit (" ++ toString limit ++ " digits) for integer string conversion: value has "
      ++ toString digits ++ " digits; use sys.set_int_max_str_digits() to increase the limit"
  | tooLongToWrite limit =>
    "Exceeds the limit (" ++ toString limit ++ " digits) for integer string conversion; "
      ++ "use sys.set_int_max_str_digits() to increase the limit"
  | absent => ""
  | indexOutOfRange => "list index out of range"
  | indexTooWide => "cannot fit 'int' into an index-sized integer"
  | tooFewValues expected got =>
    "not enough values to unpack (expected " ++ toString expected ++ ", got " ++ toString got ++ ")"
  | tooManyValues expected => "too many values to unpack (expected " ++ toString expected ++ ")"
  | zeroStep => "slice step cannot be zero"
  | notIterable kind => "'" ++ kind ++ "' object is not iterable"
  | alreadyClosed => "Coset table has already been finalized."
  | notClosed => "Coset table has not been finalized."
  | unknownGenerator generator => "Unknown generator " ++ generator
  | noGenerators => "At least one generator is required"
  | notALetter generator => "Generator " ++ generator.quoted ++ " is not a single letter"
  | duplicateGenerators generators => "Duplicate generators in " ++ (Datum.list generators).quoted
  | foreignGenerator relation generator =>
    "Relation " ++ Text.quoted relation ++ " uses " ++ generator ++ ", which is not a generator"
  | notComputed => "The Cayley graph has not been computed; call run()"
  | libraryFunction => "Cannot call class-only static method on instance"
  | libraryConstructor => "Cannot call class-only method on instance"
  | unfinished => "The enumeration did not end within its budget"

/-- The value, or the failure that it is absent. -/
def require {α : Type} : Option α → Except Fault α
  | some a => .ok a
  | none => .error .absent

/-- The sign of an integer, `1` or `-1`; zero has none. -/
def signOf (n : Int) : Except Fault Int :=
  if n < 0 then .ok (-1)
  else if 0 < n then .ok 1
  else .error .signOfZero

end ToddCoxeter
