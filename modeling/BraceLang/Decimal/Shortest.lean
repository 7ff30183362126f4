/-!
# Shortest decimals of binary floating-point numbers

A finite number of the 64-bit binary format is `mantissa * 2 ^ exponent`. The reals that
round to it form an interval around it, from half way to the number below to half way to the
number above, ends included exactly when the mantissa is even. A decimal reads back as the
number when it lies in that interval.

The decimals with a given last place form a grid. On every grid the only candidates are the
two neighbours of the number itself: if any point of the grid reads back, so does one of
them. So the shortest decimal is found on the coarsest grid with such a neighbour; where both
read back, the nearer one is taken, and the upper one half way between them.

* `Parts.ofFloat`: sign, mantissa and exponent from the bits.
* `shortest`: the fewest digits that read back, and of those the nearest.
-/

namespace BraceLang

/-- The number `digits * 10 ^ exponent`. -/
structure Decimal where
  digits : Nat
  exponent : Int
deriving DecidableEq, Repr

namespace Decimal

/-- The positive number `mantissa * 2 ^ exponent`. -/
structure Binary where
  mantissa : Nat
  exponent : Int
deriving DecidableEq, Repr

/-- What the bits of a floating-point number say. -/
inductive Parts where
  | nan
  | infinite (negative : Bool)
  | zero (negative : Bool)
  | finite (negative : Bool) (magnitude : Binary)
deriving DecidableEq, Repr

/-- The exponent of the least positive number. -/
def minExponent : Int := -1074

/-- The leading bit of a mantissa of full length, which is not stored: two to the 52. -/
def leadingBit : Nat := Nat.pow 2 52

/-- Take the bits of a number apart: one bit of sign, eleven of exponent, 52 of fraction. -/
def Parts.ofFloat (x : Float) : Parts :=
  let bits : Nat := x.toBits.toNat
  let negative := bits / (leadingBit * 2048) % 2 == 1
  let biased : Nat := bits / leadingBit % 2048
  let fraction := bits % leadingBit
  if biased = 2047 then
    if fraction = 0 then .infinite negative else .nan
  else if biased = 0 then
    if fraction = 0 then .zero negative else .finite negative ⟨fraction, minExponent⟩
  else .finite negative ⟨fraction + leadingBit, biased + (minExponent - 1)⟩

/-! ## The interval of a number -/

/-- The lower end of the interval in quarters of the last binary place. Below a power of two
the numbers are twice as dense. -/
def Binary.lowest (b : Binary) : Nat :=
  if b.mantissa = leadingBit ∧ minExponent < b.exponent then 4 * b.mantissa - 1
  else 4 * b.mantissa - 2

/-- The upper end of the interval in quarters of the last binary place. -/
def Binary.highest (b : Binary) : Nat := 4 * b.mantissa + 2

/-- A quarter of the last binary place and a step of the grid with last place `10 ^ k`, both
as multiples of one unit that divides them. -/
def Binary.units (b : Binary) (k : Int) : Nat × Nat :=
  (Nat.pow 2 (b.exponent - 2).toNat * Nat.pow 10 (-k).toNat,
    Nat.pow 2 (2 - b.exponent).toNat * Nat.pow 10 k.toNat)

/-- Whether a decimal lies in the interval of a number. -/
def Binary.readsBack (b : Binary) (d : Decimal) : Bool :=
  let (quarter, step) := b.units d.exponent
  let point := d.digits * step
  if b.mantissa % 2 = 0 then
    b.lowest * quarter ≤ point && point ≤ b.highest * quarter
  else b.lowest * quarter < point && point < b.highest * quarter

/-! ## The search -/

/-- The nearer of the grid's neighbours of the number that read back. -/
def Binary.nearest? (b : Binary) (k : Int) : Option Decimal :=
  let (quarter, step) := b.units k
  let value := 4 * b.mantissa * quarter
  let below : Decimal := ⟨value / step, k⟩
  let above : Decimal := ⟨value / step + 1, k⟩
  match b.readsBack below, b.readsBack above with
  | true, true => if 2 * (value % step) < step then some below else some above
  | true, false => some below
  | false, true => some above
  | false, false => none

/-- All digits of a number. -/
def Binary.exact (b : Binary) : Decimal :=
  if 0 ≤ b.exponent then ⟨b.mantissa * Nat.pow 2 b.exponent.toNat, 0⟩
  else ⟨b.mantissa * Nat.pow 5 (-b.exponent).toNat, b.exponent⟩

/-- Try a number of grids, each ten times finer than the one before. -/
def Binary.coarsest (b : Binary) : Nat → Int → Decimal
  | 0, _ => b.exact
  | grids + 1, k =>
    match b.nearest? k with
    | some d => d
    | none => b.coarsest grids (k - 1)

/-- A last place that is too coarse for every decimal that reads back: ten to that place is
above twice the number. The factor is just above the logarithm of two to the base ten. -/
def Binary.tooCoarse (b : Binary) : Int :=
  (b.mantissa.log2 + b.exponent + 2) * 30103 / 100000 + 1

/-- The shortest decimal that reads back. Seventeen digits always do, so that a few more grids
than that are enough. -/
def Binary.shortest (b : Binary) : Decimal := b.coarsest 24 b.tooCoarse

end Decimal

end BraceLang
