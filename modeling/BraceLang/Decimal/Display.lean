import BraceLang.Decimal.Shortest

/-!
# The text of a number

A number is written with the fewest digits that read back, always positional and never with
an exponent: zeros fill the places between the digits and the point. Whole numbers have no
point. Negative numbers, zero included, have a minus sign; a number that is not a number has
no sign.

* `Decimal.positional`: digits, point and zeros.
* `displayNumber`: the text of any number.
-/

namespace BraceLang

namespace Decimal

/-- The decimal digits of a natural number. -/
def digitsOf (n : Nat) : List Char := Nat.toDigits 10 n

/-- Write a decimal without an exponent. -/
def positional (d : Decimal) : List Char :=
  let digits := digitsOf d.digits
  if 0 ≤ d.exponent then digits ++ List.replicate d.exponent.toNat '0'
  else
    let places := (-d.exponent).toNat
    if places < digits.length then
      digits.take (digits.length - places) ++ '.' :: digits.drop (digits.length - places)
    else '0' :: '.' :: List.replicate (places - digits.length) '0' ++ digits

/-- Put a minus sign in front of the text of a negative number. -/
def signed (negative : Bool) (text : List Char) : List Char :=
  if negative then '-' :: text else text

/-- The text of a number that was taken apart. -/
def Parts.display : Parts → List Char
  | .nan => ['N', 'a', 'N']
  | .infinite negative => signed negative ['i', 'n', 'f']
  | .zero negative => signed negative ['0']
  | .finite negative magnitude => signed negative magnitude.shortest.positional

end Decimal

/-- The text of a number. -/
def displayNumber (x : Float) : String :=
  String.ofList (Decimal.Parts.ofFloat x).display

end BraceLang
