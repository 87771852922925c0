import Mathlib

/-!
# Hexadecimal text

Every byte as two lower-case hexadecimal digits.  The text has twice the length of the bytes and
determines them.
-/

set_option autoImplicit false

namespace Capsule.Library

/-- The digit of a number below sixteen. -/
def hexDigit (n : ℕ) : UInt8 := UInt8.ofNat (if n < 10 then 48 + n else 87 + n)

/-- The number of a digit in either case; other bytes count as zero. -/
def hexVal (b : UInt8) : ℕ :=
  if 48 ≤ b ∧ b ≤ 57 then b.toNat - 48
  else if 97 ≤ b ∧ b ≤ 102 then b.toNat - 87
  else if 65 ≤ b ∧ b ≤ 70 then b.toNat - 55
  else 0

/-- The two digits of each byte. -/
def hexText (bytes : List UInt8) : List UInt8 :=
  bytes.flatMap fun b => [hexDigit (b.toNat / 16), hexDigit (b.toNat % 16)]

/-- The bytes that pairs of digits stand for. -/
def hexBytes : List UInt8 → List UInt8
  | hi :: lo :: text => UInt8.ofNat (16 * hexVal hi + hexVal lo) :: hexBytes text
  | _ => []

/-- A digit stands for its value. -/
theorem hexVal_hexDigit {n : ℕ} (hn : n < 16) : hexVal (hexDigit n) = n := by
  interval_cases n <;> rfl

/-- Every byte has two digits. -/
theorem length_hexText (bytes : List UInt8) : (hexText bytes).length = 2 * bytes.length := by
  induction bytes with
  | nil => rfl
  | cons b bytes ih =>
    have hcons : (hexText (b :: bytes)).length = (hexText bytes).length + 2 := rfl
    rw [hcons, ih, List.length_cons]
    omega

/-- **Round trip** of bytes. -/
theorem hexBytes_hexText (bytes : List UInt8) : hexBytes (hexText bytes) = bytes := by
  induction bytes with
  | nil => rfl
  | cons b bytes ih =>
    have hcons :
        hexBytes (hexText (b :: bytes)) = UInt8.ofNat (16 * hexVal (hexDigit (b.toNat / 16))
          + hexVal (hexDigit (b.toNat % 16))) :: hexBytes (hexText bytes) := rfl
    have hb := b.toNat_lt
    have hval : 16 * (b.toNat / 16) + b.toNat % 16 = b.toNat := Nat.div_add_mod b.toNat 16
    rw [hcons, hexVal_hexDigit (by omega), hexVal_hexDigit (Nat.mod_lt _ (by omega)), hval, ih,
      UInt8.ofNat_toNat]

/-- Different bytes have different texts. -/
theorem hexText_injective : Function.Injective hexText :=
  Function.LeftInverse.injective hexBytes_hexText

end Capsule.Library
