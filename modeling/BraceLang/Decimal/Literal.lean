import BraceLang.Decimal.Shortest

/-!
# Number literals

A literal is an optional sign followed by a decimal or, in letters of either case, by `inf`,
`infinity` or `nan`. A decimal is a run of digits with at most one point, before, after or
between the digits, of which there is at least one, and an optional exponent: the letter `e`
of either case, an optional sign and at least one digit. Nothing else may stand in the text.

The value is the decimal rounded to the nearest number, a tie to the even mantissa.

* `Decimal.toFloat`: rounding; a magnitude out of range needs no arithmetic.
* `readNumber?`: the value of a text, if it is a literal.
-/

namespace BraceLang

namespace Decimal

/-- The digits of the decimal system. -/
def isDigit (c : Char) : Bool := '0' ≤ c && c ≤ '9'

/-- The value of a row of digits. -/
def valueOf (digits : List Char) : Nat :=
  digits.foldl (fun n c => 10 * n + (c.toNat - '0'.toNat)) 0

/-- Split off a sign; the answer says whether it is a minus sign. -/
def readSign : List Char → Bool × List Char
  | '-' :: rest => (true, rest)
  | '+' :: rest => (false, rest)
  | text => (false, text)

/-- The exponent that a text consists of. No text is the exponent zero. -/
def readExponent? : List Char → Option Int
  | [] => some 0
  | c :: rest =>
    if c = 'e' ∨ c = 'E' then
      let (negative, digits) := readSign rest
      if digits ≠ [] ∧ digits.all isDigit then
        some (if negative then -(valueOf digits : Int) else valueOf digits)
      else none
    else none

/-- Split off the digits behind a point, if there is one. -/
def readFraction : List Char → List Char × List Char
  | '.' :: rest => rest.span isDigit
  | text => ([], text)

/-- The decimal that a text without sign consists of. -/
def read? (text : List Char) : Option Decimal :=
  let (whole, rest) := text.span isDigit
  let (fraction, rest) := readFraction rest
  if whole = [] ∧ fraction = [] then none
  else (readExponent? rest).map fun exponent =>
    ⟨valueOf (whole ++ fraction), exponent - fraction.length⟩

/-- Round a decimal to the nearest number. From `10 ^ 309` on that is infinity, and below
`10 ^ -324` it is zero. -/
def toFloat (d : Decimal) : Float :=
  if d.digits = 0 then 0
  else
    let magnitude := (Nat.toDigits 10 d.digits).length + d.exponent
    if 309 < magnitude then 1 / 0
    else if magnitude < -323 then 0
    else Float.ofScientific d.digits (d.exponent < 0) d.exponent.natAbs

end Decimal

/-- The value of a word that names a number. -/
def namedNumber? (word : List Char) : Option Float :=
  let word := word.map Char.toLower
  if word = ['i', 'n', 'f'] ∨ word = ['i', 'n', 'f', 'i', 'n', 'i', 't', 'y'] then some (1 / 0)
  else if word = ['n', 'a', 'n'] then some (0 / 0)
  else none

/-- The value of a text that is a number literal. -/
def readNumber? (text : List Char) : Option Float :=
  let (negative, unsigned) := Decimal.readSign text
  let magnitude := (namedNumber? unsigned).orElse fun _ => (Decimal.read? unsigned).map (·.toFloat)
  magnitude.map fun x => if negative then -x else x

end BraceLang
