/-! # Decimal numbers

A `Decimal` is a sign and a size `digits * 10 ^ exponent`, so that zero, too, comes with either sign.
`Decimal.equalsNat` compares it with a natural number.  `Decimal.render` writes it with at least one
digit behind the point, and turns to powers of ten below `0.0001` and from `10 ^ 16` on. -/

namespace ToddCoxeter

/-- The number of size `digits * 10 ^ exponent` with the given sign. -/
structure Decimal where
  /-- Is there a minus in front? -/
  negative : Bool
  /-- The digits, read as one natural number. -/
  digits : Nat
  /-- The power of ten by which the digits are to be multiplied. -/
  exponent : Int
deriving DecidableEq, Repr

namespace Decimal

/-- Is the number zero, of either sign? -/
def isZero (d : Decimal) : Bool := d.digits = 0

/-- Is the number equal to the natural number `n`? -/
def equalsNat (d : Decimal) (n : Nat) : Bool :=
  (!d.negative || d.isZero) &&
    d.digits * Nat.pow 10 d.exponent.toNat = n * Nat.pow 10 (-d.exponent).toNat

/-- The digits without the zeros at the end. -/
def dropTrailingZeros (ds : List Char) : List Char := (ds.reverse.dropWhile (· = '0')).reverse

/-- An exponent with its sign and at least two digits. -/
def exponentText (e : Int) : List Char :=
  let digits := Nat.toDigits 10 e.natAbs
  (if e < 0 then '-' else '+') :: (List.replicate (2 - digits.length) '0' ++ digits)

/-- The digits with a point after the first `point` of them, or with a power of ten. -/
def placePoint (ds : List Char) (point : Int) : List Char :=
  if -4 < point && point ≤ 16 then
    if point ≤ 0 then '0' :: '.' :: (List.replicate (-point).toNat '0' ++ ds)
    else
      let n := point.toNat
      let fraction := ds.drop n
      (ds.take n ++ List.replicate (n - ds.length) '0') ++
        '.' :: (if fraction.isEmpty then ['0'] else fraction)
  else
    match ds with
    | [] => ['0']
    | d :: rest =>
      d :: ((if rest.isEmpty then [] else '.' :: rest) ++ 'e' :: exponentText (point - 1))

/-- The number as text. -/
def render (d : Decimal) : String :=
  let digits := Nat.toDigits 10 d.digits
  let size :=
    if d.isZero then ['0', '.', '0']
    else placePoint (dropTrailingZeros digits) (digits.length + d.exponent)
  String.ofList (if d.negative then '-' :: size else size)

end Decimal

end ToddCoxeter
