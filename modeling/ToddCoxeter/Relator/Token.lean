import ToddCoxeter.Numeral
import ToddCoxeter.Word.Basic

/-! # Tokens of a relation

A relation is written with single letters, parentheses, primes and exponents.  A `Token` is a letter
or a parenthesis together with all exponents that follow it; a prime counts as the exponent `-1`.
Chained exponents multiply (`Token.exponent`), and none of them may have more digits than a limit
allows (`Token.checkDigits`).  `Token.baseAndExponent` reads base and exponent off any text that is
written like a token. -/

namespace ToddCoxeter

/-- An exponent as it is written behind its caret. -/
structure Exponent where
  /-- The sign, if one is written. -/
  sign : Option Char
  /-- The decimal digits. -/
  digits : List Char
deriving DecidableEq, Repr

namespace Exponent

/-- The exponent that a prime stands for. -/
def prime : Exponent := ⟨some '-', ['1']⟩

/-- The exponent as written: sign and digits. -/
def chars (e : Exponent) : List Char := e.sign.toList ++ e.digits

/-- The integer that the exponent denotes. -/
def value (e : Exponent) : Int := Numeral.signed e.sign (Text.decimalValue e.digits)

end Exponent

/-- What an exponent may follow: a generator or a parenthesis. -/
inductive Mark where
  /-- A generator, written as a letter. -/
  | letter (c : Char)
  /-- An opening parenthesis. -/
  | opening
  /-- A closing parenthesis. -/
  | closing
deriving DecidableEq, Repr

/-- The character by which the mark is written. -/
def Mark.char : Mark → Char
  | letter c => c
  | opening => '('
  | closing => ')'

/-- A mark with the exponents behind it. -/
structure Token where
  /-- The generator or parenthesis. -/
  mark : Mark
  /-- The exponents in the order in which they are written. -/
  exponents : List Exponent := []
deriving DecidableEq, Repr

namespace Token

/-- The token as text, a prime being spelled out as an exponent. -/
def chars (t : Token) : List Char :=
  t.mark.char :: t.exponents.flatMap fun e => '^' :: e.chars

/-- The token as text. -/
def text (t : Token) : String := String.ofList t.chars

/-- The product of all exponents of the token, one if there is none. -/
def exponent (t : Token) : Int := t.exponents.foldl (fun n e => n * e.value) 1

/-- Fails at the first exponent with more digits than the limit allows. -/
def checkDigits (limit : DigitLimit) (t : Token) : Except Fault Unit :=
  t.exponents.forM fun e => limit.check e.digits.length

@[simp]
theorem checkDigits_none (t : Token) : t.checkDigits none = .ok () := by
  unfold checkDigits
  induction t.exponents with
  | nil => rfl
  | cons e es ih => simpa [bind, Except.bind] using ih

/-- The part of a text before its first caret, and the product of the integers behind the carets. -/
def baseAndExponent (limit : DigitLimit) (s : String) : Except Fault (String × Int) :=
  match Text.fields '^' s.toList with
  | [] => .ok ("", 1)
  | base :: exponents => do
    let values ← exponents.mapM (Numeral.read limit)
    return (String.ofList base, values.foldl (· * ·) 1)

end Token

end ToddCoxeter
