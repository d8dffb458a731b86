/-! # Characters and fields

A character class that the Unicode standard defines by a property is kept as a table of inclusive
ranges of code points in increasing order.  `Text.inRanges` is membership in such a table.

`Text.isBlank` holds of the characters that separate words of text: those of the Unicode property
`White_Space` and the four ASCII information separators.  Neither the zero-width space nor the byte
order mark is blank.  `Text.isSpacing` leaves out the information separators.  `Text.trim` removes
blanks at both ends of a text.

The decimal digits of Unicode (general category `Nd`) come in blocks of ten consecutive code points,
zero first.  `Text.digit?` reads the value of such a character; superscripts, fractions and letters
have none.  `Text.decimalValue` is the number that a run of digits denotes.

`Text.fields sep` cuts a text at every occurrence of a separator, so that a text with `n` separators
has `n + 1` fields, some of them perhaps empty.  `Text.cutAt sep` cuts at the first occurrence only. -/

namespace ToddCoxeter.Text

/-- Does the code point of the character fall into one of the inclusive ranges? -/
def inRanges (ranges : List (Nat × Nat)) (c : Char) : Bool :=
  ranges.any fun r => r.1 ≤ c.toNat && c.toNat ≤ r.2

theorem inRanges_iff {ranges : List (Nat × Nat)} {c : Char} :
    inRanges ranges c = true ↔ ∃ r ∈ ranges, r.1 ≤ c.toNat ∧ c.toNat ≤ r.2 := by
  simp [inRanges]

/-! ### Blanks -/

/-- The ranges of blank characters. -/
def blankRanges : List (Nat × Nat) :=
  [(0x9, 0xD), (0x1C, 0x20), (0x85, 0x85), (0xA0, 0xA0), (0x1680, 0x1680), (0x2000, 0x200A),
    (0x2028, 0x2029), (0x202F, 0x202F), (0x205F, 0x205F), (0x3000, 0x3000)]

/-- Is the character blank? -/
def isBlank (c : Char) : Bool := inRanges blankRanges c

/-- Is the character blank, and none of the ASCII information separators? -/
def isSpacing (c : Char) : Bool := isBlank c && !(0x1C ≤ c.toNat && c.toNat ≤ 0x1F)

/-- The characters without the blanks at both ends. -/
def trim (cs : List Char) : List Char :=
  ((cs.dropWhile isBlank).reverse.dropWhile isBlank).reverse

/-! ### Decimal digits -/

/-- The code points of the zeros, one for each block of ten digits. -/
def digitZeros : List Nat :=
  [0x30, 0x660, 0x6F0, 0x7C0, 0x966, 0x9E6, 0xA66, 0xAE6, 0xB66, 0xBE6, 0xC66, 0xCE6, 0xD66,
   0xDE6, 0xE50, 0xED0, 0xF20, 0x1040, 0x1090, 0x17E0, 0x1810, 0x1946, 0x19D0, 0x1A80, 0x1A90,
   0x1B50, 0x1BB0, 0x1C40, 0x1C50, 0xA620, 0xA8D0, 0xA900, 0xA9D0, 0xA9F0, 0xAA50, 0xABF0,
   0xFF10, 0x104A0, 0x10D30, 0x11066, 0x110F0, 0x11136, 0x111D0, 0x112F0, 0x11450, 0x114D0,
   0x11650, 0x116C0, 0x11730, 0x118E0, 0x11950, 0x11C50, 0x11D50, 0x11DA0, 0x16A60, 0x16AC0,
   0x16B50, 0x1D7CE, 0x1D7D8, 0x1D7E2, 0x1D7EC, 0x1D7F6, 0x1E140, 0x1E2F0, 0x1E950, 0x1FBF0]

/-- The value of a decimal digit of any script. -/
def digit? (c : Char) : Option Nat :=
  (digitZeros.find? fun z => z ≤ c.toNat && c.toNat < z + 10).map fun z =>
    c.toNat - z

/-- Is the character a decimal digit of some script? -/
def isDigit (c : Char) : Bool := (digit? c).isSome

/-- The number that the digits denote, the first digit being the most significant. -/
def decimalValue (cs : List Char) : Nat :=
  cs.foldl (fun n c => 10 * n + (digit? c).getD 0) 0

/-! ### Fields -/

/-- The parts of the text between the separators. -/
def fields (sep : Char) : List Char → List (List Char)
  | [] => [[]]
  | c :: cs =>
    if c = sep then [] :: fields sep cs
    else
      match fields sep cs with
      | [] => [[c]]
      | field :: rest => (c :: field) :: rest

/-- The parts before and after the first separator; the second part is absent without one. -/
def cutAt (sep : Char) : List Char → List Char × Option (List Char)
  | [] => ([], none)
  | c :: cs =>
    if c = sep then ([], some cs)
    else
      let (before, after) := cutAt sep cs
      (c :: before, after)

theorem fields_ne_nil (sep : Char) (cs : List Char) : fields sep cs ≠ [] := by
  cases cs with
  | nil => simp [fields]
  | cons c cs =>
    by_cases h : c = sep
    · simp [fields, h]
    · cases hf : fields sep cs <;> simp [fields, h, hf]

theorem fields_of_notMem {sep : Char} {cs : List Char} (h : sep ∉ cs) : fields sep cs = [cs] := by
  induction cs with
  | nil => rfl
  | cons c cs ih =>
      simp only [List.mem_cons, not_or] at h
      simp [fields, ih h.2, Ne.symm h.1]

theorem fields_append_cons {sep : Char} {cs : List Char} (h : sep ∉ cs) (ds : List Char) :
    fields sep (cs ++ sep :: ds) = cs :: fields sep ds := by
  induction cs with
  | nil => simp [fields]
  | cons c cs ih =>
      simp only [List.mem_cons, not_or] at h
      simp [fields, ih h.2, Ne.symm h.1]

end ToddCoxeter.Text
