import Mathlib.Algebra.BigOperators.Fin
import Mathlib.Data.Nat.Digits.Lemmas
import BraceLang.Text.Fingerprint

/-!
# Fingerprints as numbers

The running value of a fingerprint is the number that has the bytes as its digits to the base 257,
modulo `2 ^ 64`. There is no byte 256, so that the digits of a number determine it but for zeros in
front, and seven digits stay below the modulus. What spreads a value has an inverse and can be
undone.

* `Fingerprint.toNat_write`: the running value behind some bytes.
* `Fingerprint.finish_injective`: spreading loses nothing.
* `Fingerprint.eq_of_polynomial_eq`: the digits of a number.
* `Fingerprint.finish_writeAll`: fingerprints of bytes that arrive in pieces.
-/

namespace BraceLang

namespace Fingerprint

/-- Take in the pieces of a sequence, one after the other. -/
def writeAll (pieces : List (List UInt8)) : Fingerprint := pieces.foldl write {}

/-- The number that has the bytes as its digits, the first one as the highest. -/
def polynomial (bytes : List UInt8) : Nat :=
  ∑ i : Fin bytes.length, bytes[i].toNat * 257 ^ (bytes.length - 1 - i)

/-! ## The running value -/

theorem polynomial_cons (byte : UInt8) (bytes : List UInt8) :
    polynomial (byte :: bytes) = byte.toNat * 257 ^ bytes.length + polynomial bytes := by
  have hrest : ∀ i : Fin bytes.length, bytes.length + 1 - 1 - (i.succ : Nat) =
      bytes.length - 1 - i := by
    intro i
    rw [Fin.val_succ]
    omega
  calc polynomial (byte :: bytes)
    _ = byte.toNat * 257 ^ bytes.length +
          ∑ i : Fin bytes.length, bytes[i].toNat * 257 ^ (bytes.length + 1 - 1 - (i.succ : Nat)) :=
        Fin.sum_univ_succ _
    _ = byte.toNat * 257 ^ bytes.length + polynomial bytes := by
        simp only [hrest]
        rfl

theorem toNat_push (f : Fingerprint) (byte : UInt8) :
    (f.push byte).state.toNat = (f.state.toNat * 257 + byte.toNat) % 2 ^ 64 := by
  simp [push, base]

theorem toNat_write (f : Fingerprint) (bytes : List UInt8) :
    (f.write bytes).state.toNat =
      (f.state.toNat * 257 ^ bytes.length + polynomial bytes) % 2 ^ 64 := by
  induction bytes generalizing f with
  | nil => simp [polynomial, Nat.mod_eq_of_lt f.state.toNat_lt]
  | cons byte bytes ih =>
    rw [write_cons, ih, toNat_push, polynomial_cons, List.length_cons]
    rw [Nat.add_mod, Nat.mod_mul_mod, ← Nat.add_mod]
    congr 1
    ring

/-- How the bytes are divided into pieces makes no difference. -/
theorem writeAll_eq_write (pieces : List (List UInt8)) :
    writeAll pieces = write {} pieces.flatten := by
  unfold writeAll
  generalize ({} : Fingerprint) = f
  induction pieces generalizing f with
  | nil => rfl
  | cons piece pieces ih => rw [List.foldl_cons, List.flatten_cons, write_append, ih]

theorem toNat_writeAll (pieces : List (List UInt8)) :
    (writeAll pieces).state.toNat = polynomial pieces.flatten % 2 ^ 64 := by
  rw [writeAll_eq_write, toNat_write]
  simp

/-! ## Spreading -/

/-- What undoes the spreading. -/
def gather : UInt64 := 0xF1DE83E19937733D

theorem finish_mul_gather (f : Fingerprint) : f.finish * gather = f.state := by
  have hinverse : spread * gather = 1 := by decide
  rw [finish, UInt64.mul_assoc, hinverse, UInt64.mul_one]

theorem finish_injective : Function.Injective finish := by
  intro f g h
  have hstate : f.state = g.state := by
    rw [← finish_mul_gather, h, finish_mul_gather]
  cases f
  cases g
  exact congrArg mk hstate

theorem toNat_finish (f : Fingerprint) :
    f.finish.toNat = 0x9E3779B97F4A7C15 * f.state.toNat % 2 ^ 64 := by
  rw [finish, UInt64.toNat_mul, Nat.mul_comm]
  rfl

/-! ## Digits -/

/-- The digits of the number, the lowest one first. -/
def digits (bytes : List UInt8) : List Nat := bytes.reverse.map UInt8.toNat

theorem polynomial_eq_ofDigits (bytes : List UInt8) :
    polynomial bytes = Nat.ofDigits 257 (digits bytes) := by
  unfold digits
  induction bytes with
  | nil => rfl
  | cons byte bytes ih =>
    rw [polynomial_cons, ih, List.reverse_cons, List.map_append, Nat.ofDigits_append]
    simp
    ring

theorem lt_of_mem_digits {bytes : List UInt8} {digit : Nat} (h : digit ∈ digits bytes) :
    digit < 257 := by
  obtain ⟨byte, -, rfl⟩ := List.mem_map.mp h
  exact Nat.lt_trans byte.toNat_lt (by decide)

/-- Without a zero in front, the bytes are the digits of their number. -/
theorem digits_polynomial {bytes : List UInt8} (h : bytes.head? ≠ some 0) :
    Nat.digits 257 (polynomial bytes) = digits bytes := by
  rw [polynomial_eq_ofDigits]
  refine Nat.digits_ofDigits 257 (by decide) _ (fun _ => lt_of_mem_digits) fun hne hzero => ?_
  unfold digits at hne hzero
  cases bytes with
  | nil => exact hne rfl
  | cons byte bytes =>
    have hbyte : byte = 0 := by
      simpa [← UInt8.toNat_inj] using hzero
    exact h (by rw [hbyte]; rfl)

theorem eq_of_polynomial_eq {bytes bytes' : List UInt8} (h : bytes.head? ≠ some 0)
    (h' : bytes'.head? ≠ some 0) (heq : polynomial bytes = polynomial bytes') :
    bytes = bytes' := by
  have hdigits : digits bytes = digits bytes' := by
    rw [← digits_polynomial h, ← digits_polynomial h', heq]
  have hreverse : bytes.reverse = bytes'.reverse :=
    (List.map_inj_right fun _ _ => UInt8.toNat_inj.mp).mp hdigits
  exact List.reverse_inj.mp hreverse

theorem polynomial_lt {bytes : List UInt8} (h : bytes.length ≤ 7) : polynomial bytes < 2 ^ 64 := by
  have hlength : (digits bytes).length = bytes.length := by simp [digits]
  calc polynomial bytes
    _ = Nat.ofDigits 257 (digits bytes) := polynomial_eq_ofDigits bytes
    _ < 257 ^ (digits bytes).length :=
        Nat.ofDigits_lt_base_pow_length (by decide) fun _ => lt_of_mem_digits
    _ ≤ 257 ^ 7 := Nat.pow_le_pow_right (by decide) (by rw [hlength]; exact h)
    _ < 2 ^ 64 := by decide

/-- A word that is told apart from all others: it is short enough for the modulus and does not begin
with a zero. -/
def IsShort (bytes : List UInt8) : Prop := bytes.length ≤ 7 ∧ bytes.head? ≠ some 0

/-- The fingerprint of some bytes is the spread value of their number modulo `2 ^ 64`, whatever the
pieces that they arrive in, and spreading is injective. Words of seven bytes or less that do not
begin with a zero have fingerprints of their own. -/
theorem finish_writeAll :
    (∀ pieces, (writeAll pieces).finish.toNat =
      0x9E3779B97F4A7C15 * polynomial pieces.flatten % 2 ^ 64) ∧
    Function.Injective finish ∧
    ∀ pieces pieces', IsShort pieces.flatten → IsShort pieces'.flatten →
      pieces.flatten ≠ pieces'.flatten → (writeAll pieces).finish ≠ (writeAll pieces').finish := by
  refine ⟨fun pieces => ?_, finish_injective, fun pieces pieces' h h' hne hfinish => ?_⟩
  · rw [toNat_finish, toNat_writeAll, Nat.mul_mod_mod]
  · have hstate : (writeAll pieces).state.toNat = (writeAll pieces').state.toNat := by
      rw [finish_injective hfinish]
    rw [toNat_writeAll, toNat_writeAll, Nat.mod_eq_of_lt (polynomial_lt h.1),
      Nat.mod_eq_of_lt (polynomial_lt h'.1)] at hstate
    exact hne (eq_of_polynomial_eq h.2 h'.2 hstate)

/-- Two words with the same letters, of which one arrives in two pieces. -/
theorem finish_writeAll_swapped :
    (writeAll [[97], [98]]).finish.toNat = 0x9E3779B97F4A7C15 * (97 * 257 + 98) % 2 ^ 64 ∧
      (writeAll [[97], [98]]).finish ≠ (writeAll [[98, 97]]).finish := by
  refine ⟨finish_writeAll.1 [[97], [98]], ?_⟩
  exact finish_writeAll.2.2 [[97], [98]] [[98, 97]] ⟨by decide, by decide⟩ ⟨by decide, by decide⟩
    (by decide)

end Fingerprint

end BraceLang
