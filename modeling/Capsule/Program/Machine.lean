import Capsule.Library.Outcome
import Capsule.Library.SortedMap

/-!
# Machine types of the source

`std::string` is a byte string: keys, values, hashes and file names may hold any bytes, and
`operator<` compares them byte by byte as unsigned numbers, which is the lexicographic order on
`List UInt8`.  Timestamps are `int64_t`.  Capacities are `int`: a value that does not fit is
narrowed on conversion, an arithmetic overflow is undefined behaviour, and a comparison with a
`size_t` first converts the `int` to 64 unsigned bits.
-/

set_option autoImplicit false

namespace Capsule.Program

instance linearOrderByte : LinearOrder UInt8 where
  le_refl := UInt8.le_refl
  le_trans _ _ _ := UInt8.le_trans
  le_antisymm _ _ := UInt8.le_antisymm
  le_total := UInt8.le_total
  lt_iff_le_not_ge _ _ := by
    simp only [UInt8.lt_iff_toNat_lt, UInt8.le_iff_toNat_le]
    omega
  toDecidableLE := inferInstance
  toDecidableLT := inferInstance
  toDecidableEq := inferInstance

instance linearOrderTimestamp : LinearOrder Int64 where
  le_refl := Int64.le_refl
  le_trans _ _ _ := Int64.le_trans
  le_antisymm _ _ := Int64.le_antisymm
  le_total := Int64.le_total
  lt_iff_le_not_ge _ _ := by
    simp only [Int64.lt_iff_toInt_lt, Int64.le_iff_toInt_le]
    omega
  toDecidableLE := inferInstance
  toDecidableLT := inferInstance
  toDecidableEq := inferInstance

/-- A `std::string`: any bytes. -/
abbrev Str := List UInt8

/-- The empty string is the least one. -/
theorem nil_le (s : Str) : ([] : Str) ≤ s := not_lt.mp (List.not_lt_nil s)

/-- The empty string is in front of every other. -/
theorem nil_lt_iff {s : Str} : ([] : Str) < s ↔ s ≠ [] := by
  cases s with
  | nil => simp
  | cons b s => exact ⟨fun _ => by simp, fun _ => List.nil_lt_cons b s⟩

/-- The ways a call can end other than by returning. -/
inductive Fault where
  /-- `putCapsuleBlock` or `getCapsuleBlock` threw: the block could not be written or read -/
  | io
  /-- an access or an iterator left its container, which the source does not check -/
  | outOfRange
  /-- an `int` multiplication does not fit: undefined behaviour -/
  | overflow
  /-- a loop or recursion of the model used up its fuel -/
  | outOfFuel
deriving DecidableEq, Repr

/-- Conversion of an integer to `int`: the low 32 bits, read as a signed number. -/
def toInt (n : Int) : Int := n.bmod (2 ^ 32)

/-- Conversion of an `int` to `size_t`: the value modulo `2 ^ 64`. -/
def toSizeT (n : Int) : ℕ := (n % 2 ^ 64).toNat

/-- `int` multiplication. -/
def mulInt (a b : Int) : Except Fault Int :=
  if -(2 ^ 31) ≤ a * b ∧ a * b < 2 ^ 31 then .ok (a * b) else .error .overflow

/-- The order of the factors does not matter, also for overflow. -/
theorem mulInt_comm (a b : Int) : mulInt a b = mulInt b a := by
  unfold mulInt
  rw [mul_comm]

/-- A number in the range of an `int` is converted as it is. -/
theorem toInt_of_lt {n : ℕ} (h : n < 2 ^ 31) : toInt n = n := by
  unfold toInt
  exact Int.bmod_eq_of_le (by omega) (by omega)

/-- A number in the range of a `size_t` is converted as it is. -/
theorem toSizeT_natCast {n : ℕ} (h : n < 2 ^ 64) : toSizeT n = n := by
  unfold toSizeT
  omega

end Capsule.Program
