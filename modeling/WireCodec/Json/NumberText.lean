import WireCodec.Floating.Shortest
import WireCodec.Json.Basic

/-! # Texts of numbers

Integers are written with all their digits. A double is written with the
shortest digits that tell it from its neighbours: with a point if the place of
its leading digit is near enough to the point, and otherwise with an exponent.
-/

namespace WireCodec

/-- The decimal digits of a number. -/
def digitsOf (n : Nat) : List Char := Nat.toDigits 10 n

/-- The lowest and the highest place of a leading digit for which a double is
written without an exponent. -/
def plainPlaces : Int × Int := (-5, 15)

namespace Decimal

/-- The place of the leading digit. -/
def place (x : Decimal) : Int := x.exponent + (digitsOf x.digits).length - 1

/-- The text with a point and at least one digit on either side of it. -/
def plainText (x : Decimal) : List Char :=
  let digits := digitsOf x.digits
  if 0 ≤ x.exponent then digits ++ List.replicate x.exponent.toNat '0' ++ ['.', '0']
  else if 0 ≤ x.place then
    let whole := x.place.toNat + 1
    digits.take whole ++ '.' :: digits.drop whole
  else '0' :: '.' :: List.replicate (-x.place - 1).toNat '0' ++ digits

/-- The text with one digit before the point and the place of that digit as an
exponent. The point is left out when nothing follows it. -/
def scientificText (x : Decimal) : List Char :=
  let mantissa :=
    match digitsOf x.digits with
    | first :: second :: rest => first :: '.' :: second :: rest
    | digits => digits
  let sign := if x.place < 0 then '-' else '+'
  mantissa ++ 'e' :: sign :: digitsOf x.place.natAbs

/-- The text of a decimal that is not zero. -/
def text (x : Decimal) : List Char :=
  if plainPlaces.1 ≤ x.place ∧ x.place ≤ plainPlaces.2 then x.plainText else x.scientificText

end Decimal

/-- The text of a finite double. -/
def Binary64.text (x : Binary64) : List Char :=
  let magnitude :=
    if x.magnitude = 0 then ['0', '.', '0'] else (FloatFormat.double.shortest x.magnitude).text
  if x.isNegative then '-' :: magnitude else magnitude

/-- The text of a number. -/
def JsonNumber.text : JsonNumber → List Char
  | unsigned n => digitsOf n.toNat
  | negative n => '-' :: digitsOf n.toInt.natAbs
  | double x => x.text

end WireCodec
