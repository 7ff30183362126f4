/-!
# Rolling fingerprints of byte sequences

A fingerprint reads bytes as the digits of a number in base 257, modulo `2 ^ 64`, and is
spread by one multiplication when it is read out. Bytes may arrive in any number of pieces.

* `write_append`: only the sequence of bytes counts, not its division into pieces.
-/

namespace BraceLang

/-- The running value of the polynomial. -/
structure Fingerprint where
  state : UInt64 := 0
deriving DecidableEq, Repr

namespace Fingerprint

/-- The base of the polynomial: one more than there are bytes. -/
def base : UInt64 := 257

/-- An odd multiplier, so that spreading loses nothing. -/
def spread : UInt64 := 0x9E3779B97F4A7C15

/-- Take in one more byte as the lowest digit. -/
def push (f : Fingerprint) (byte : UInt8) : Fingerprint :=
  ⟨f.state * base + byte.toUInt64⟩

/-- Take in a piece of the sequence. -/
def write (f : Fingerprint) (bytes : List UInt8) : Fingerprint :=
  bytes.foldl push f

/-- The fingerprint of everything taken in so far. -/
def finish (f : Fingerprint) : UInt64 := f.state * spread

@[simp] theorem write_nil (f : Fingerprint) : f.write [] = f := rfl

@[simp] theorem write_cons (f : Fingerprint) (byte : UInt8) (bytes : List UInt8) :
    f.write (byte :: bytes) = (f.push byte).write bytes := rfl

theorem write_append (f : Fingerprint) (bytes more : List UInt8) :
    f.write (bytes ++ more) = (f.write bytes).write more := by
  simp [write]

end Fingerprint

end BraceLang
