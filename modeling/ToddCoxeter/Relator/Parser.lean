import ToddCoxeter.Relator.Token
import ToddCoxeter.Text.Alphabetic
import ToddCoxeter.Word.Parts

/-! # Reading relations

Reading a relation starts with its lexemes: `Lexeme.scan` cuts the text into letters, parentheses,
primes and exponents, skips the blanks between them, and notes every other character as bad; each
lexeme comes with the position where it begins.  `Token.ofText` then joins every exponent to the
token before it and stops at the first lexeme that has no place.

A relation denotes a word: letters stand side by side, and an exponent raises the letter or the
parenthesis before it to a power.  `Relator.parse` reads the tokens from left to right and keeps the
words of all parentheses that are still open (`Relator.Nesting`); it fails when a parenthesis is
closed that was not opened, or is open at the end, and when an exponent has too many digits. -/

namespace ToddCoxeter

/-- The smallest parts of a relation's text. -/
inductive Lexeme where
  /-- A generator or a parenthesis. -/
  | mark (m : Mark)
  /-- An exponent or a prime. -/
  | exponent (e : Exponent)
  /-- A character that begins no other lexeme. -/
  | bad (c : Char)
deriving DecidableEq, Repr

namespace Exponent

/-- Reads what follows a caret: an optional sign and as many digits as there are, at least one.
The second component is the text behind the exponent. -/
def read? (cs : List Char) : Option (Exponent × List Char) :=
  let (sign, rest) := Numeral.splitSign cs
  let digits := rest.takeWhile Text.isDigit
  if digits.isEmpty then none else some (⟨sign, digits⟩, rest.dropWhile Text.isDigit)

theorem chars_append_of_read? {cs rest : List Char} {e : Exponent} (h : read? cs = some (e, rest)) :
    e.chars ++ rest = cs := by
  simp only [read?] at h
  split at h
  · simp at h
  · simp only [Option.some.injEq, Prod.mk.injEq] at h
    obtain ⟨rfl, rfl⟩ := h
    rw [chars, List.append_assoc, List.takeWhile_append_dropWhile, Numeral.toList_append_splitSign]

theorem length_le_of_read? {cs rest : List Char} {e : Exponent} (h : read? cs = some (e, rest)) :
    rest.length ≤ cs.length := by
  rw [← chars_append_of_read? h]
  simp

end Exponent

namespace Lexeme

/-- The lexemes of a text whose first character has the given position, each with the position of
its first character. -/
def scan (position : Nat) : List Char → List (Nat × Lexeme)
  | [] => []
  | c :: cs =>
    if Text.isBlank c then scan (position + 1) cs
    else if Text.isLatinLetter c then
      (position, mark (.letter c)) :: scan (position + 1) cs
    else if c = '\x27' then (position, exponent .prime) :: scan (position + 1) cs
    else if c = '(' then (position, mark .opening) :: scan (position + 1) cs
    else if c = ')' then (position, mark .closing) :: scan (position + 1) cs
    else if c = '^' then
      match h : Exponent.read? cs with
      | some (e, rest) =>
        (position, exponent e) :: scan (position + 1 + e.chars.length) rest
      | none => (position, bad c) :: scan (position + 1) cs
    else (position, bad c) :: scan (position + 1) cs
termination_by cs => cs.length
decreasing_by
  all_goals simp only [List.length_cons]
  all_goals first
    | omega
    | exact Nat.lt_succ_of_le (Exponent.length_le_of_read? h)

end Lexeme

namespace Token

/-- Adds one lexeme to the tokens before it, of which the last one comes first. -/
def addLexeme (text : String) (tokens : List Token) (lexeme : Nat × Lexeme) :
    Except SyntaxFault (List Token) :=
  let (position, item) := lexeme
  match item, tokens with
  | .mark m, _ => .ok (⟨m, []⟩ :: tokens)
  | .bad c, _ => .error ⟨.badToken c, text, some position⟩
  | .exponent _, [] => .error ⟨.leadingExponent, text, some position⟩
  | .exponent e, t :: rest =>
    if t.mark = .opening then .error ⟨.exponentAfterOpening, text, some position⟩
    else .ok ({ t with exponents := t.exponents ++ [e] } :: rest)

/-- The tokens of a relation in the order of the text. -/
def ofText (text : String) : Except SyntaxFault (List Token) := do
  let tokens ← (Lexeme.scan 0 text.toList).foldlM (addLexeme text) []
  return tokens.reverse

end Token

namespace Relator

/-- The word read so far in the innermost open parenthesis, and the words before each of the open
parentheses, the innermost first. -/
structure Nesting where
  /-- The word in the innermost open parenthesis. -/
  current : Word
  /-- The words that the open parentheses interrupted. -/
  outer : List Word
deriving DecidableEq, Repr

/-- Reads one token. -/
def Nesting.add (limit : DigitLimit) (text : String) (nesting : Nesting) (t : Token) :
    Except Fault Nesting := do
  t.checkDigits limit
  match t.mark, nesting.outer with
  | .opening, outer => return ⟨[], nesting.current :: outer⟩
  | .letter c, outer =>
    return ⟨nesting.current ++ Word.pow [⟨String.singleton c, false⟩] t.exponent, outer⟩
  | .closing, [] => throw (.malformed ⟨.mismatchedParentheses, text, none⟩)
  | .closing, before :: outer => return ⟨before ++ Word.pow nesting.current t.exponent, outer⟩

/-- The word that the tokens denote. -/
def ofTokens (limit : DigitLimit) (text : String) (tokens : List Token) : Except Fault Word := do
  let nesting ← tokens.foldlM (Nesting.add limit text) ⟨[], []⟩
  if nesting.outer.isEmpty then return nesting.current
  else throw (.malformed ⟨.unclosedParenthesis, text, none⟩)

/-- The word that the text of a relation denotes. -/
def parse (limit : DigitLimit) (text : String) : Except Fault Word := do
  ofTokens limit text (← (Token.ofText text).mapError .malformed)

end Relator

end ToddCoxeter
