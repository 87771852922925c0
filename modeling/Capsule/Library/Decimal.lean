import Mathlib

/-!
# Decimal numbers as bytes

The decimal text of an integer, and the reading of a decimal number at the beginning of a byte
string: white space, a sign and at least one digit, whatever follows.  Reading undoes writing
(`readInt_intText`), so the text determines the number.
-/

set_option autoImplicit false

namespace Capsule.Library

/-- An ASCII digit. -/
def isDigit (b : UInt8) : Bool := 48 ≤ b && b ≤ 57

/-- ASCII white space. -/
def isSpace (b : UInt8) : Bool := b = 32 || (9 ≤ b && b ≤ 13)

/-- The number a digit stands for. -/
def digitVal (b : UInt8) : ℕ := b.toNat - 48

/-- The digit of a number below ten. -/
def digitByte (n : ℕ) : UInt8 := UInt8.ofNat (48 + n)

/-- The digits of a natural number, with fuel. -/
def natTextFuel : ℕ → ℕ → List UInt8
  | 0, _ => []
  | fuel + 1, n =>
    if n < 10 then [digitByte n] else natTextFuel fuel (n / 10) ++ [digitByte (n % 10)]

/-- The decimal text of a natural number. -/
def natText (n : ℕ) : List UInt8 := natTextFuel (n + 1) n

/-- The decimal text of an integer. -/
def intText (n : Int) : List UInt8 := if n < 0 then 45 :: natText n.natAbs else natText n.natAbs

/-- The number that digits stand for. -/
def readNat (ds : List UInt8) : ℕ := ds.foldl (fun v b => 10 * v + digitVal b) 0

/-- A number without sign at the beginning of a byte string. -/
def readDigits (s : List UInt8) : Option ℕ :=
  let ds := s.takeWhile isDigit
  if ds = [] then none else some (readNat ds)

/-- A number with an optional sign at the beginning of a byte string. -/
def readSigned : List UInt8 → Option Int
  | 45 :: s => (readDigits s).map fun n : ℕ => -(n : Int)
  | 43 :: s => (readDigits s).map fun n : ℕ => (n : Int)
  | s => (readDigits s).map fun n : ℕ => (n : Int)

/-- A number at the beginning of a byte string, behind white space. -/
def readInt (s : List UInt8) : Option Int := readSigned (s.dropWhile isSpace)

/-! ## Writing and reading -/

/-- A digit is written as a digit and read back. -/
theorem digit_facts {n : ℕ} (hn : n < 10) :
    isDigit (digitByte n) = true ∧ digitVal (digitByte n) = n := by
  interval_cases n <;> decide

/-- The text of a number has digits only: by induction on the fuel. -/
theorem isDigit_natTextFuel (fuel n : ℕ) : ∀ b ∈ natTextFuel fuel n, isDigit b = true := by
  induction fuel generalizing n with
  | zero => exact fun b hb => absurd hb (by simp [natTextFuel])
  | succ fuel ih =>
    intro b hb
    rw [natTextFuel] at hb
    split at hb
    · rw [List.mem_singleton.mp hb]
      exact (digit_facts ‹_›).1
    · rcases List.mem_append.mp hb with hb | hb
      · exact ih _ b hb
      · rw [List.mem_singleton.mp hb]
        exact (digit_facts (Nat.mod_lt n (by omega))).1

/-- The digits of a number stand for it: by induction on the fuel. -/
theorem readNat_natTextFuel {fuel n : ℕ} (h : n < fuel) : readNat (natTextFuel fuel n) = n := by
  induction fuel generalizing n with
  | zero => omega
  | succ fuel ih =>
    rw [natTextFuel]
    split
    · simp [readNat, (digit_facts ‹_›).2]
    · have hdiv : readNat (natTextFuel fuel (n / 10)) = n / 10 := ih (by omega)
      have hlast : digitVal (digitByte (n % 10)) = n % 10 :=
        (digit_facts (Nat.mod_lt n (by omega))).2
      unfold readNat at hdiv ⊢
      rw [List.foldl_append, hdiv, List.foldl_cons, List.foldl_nil, hlast]
      omega

/-- Every number has a digit. -/
theorem natText_ne_nil (n : ℕ) : natText n ≠ [] := by
  unfold natText
  rw [natTextFuel]
  split <;> simp

/-- **Round trip** of a natural number. -/
theorem readDigits_natText (n : ℕ) : readDigits (natText n) = some n := by
  have hall : (natText n).takeWhile isDigit = natText n :=
    List.takeWhile_eq_self_iff.mpr (isDigit_natTextFuel _ n)
  unfold readDigits
  simp only [hall, if_neg (natText_ne_nil n)]
  rw [natText, readNat_natTextFuel (Nat.lt_succ_self n)]

/-- The characters of a number are digits and a minus sign. -/
theorem mem_intText {n : Int} {b : UInt8} (h : b ∈ intText n) : b = 45 ∨ isDigit b = true := by
  unfold intText at h
  split at h
  · exact (List.mem_cons.mp h).imp_right (isDigit_natTextFuel _ _ b)
  · exact Or.inr (isDigit_natTextFuel _ _ b h)

/-- A text that starts with a digit has no sign. -/
theorem readSigned_of_digit {b : UInt8} {s : List UInt8} (hb : isDigit b = true) :
    readSigned (b :: s) = (readDigits (b :: s)).map fun n : ℕ => (n : Int) := by
  unfold readSigned
  split
  · rename_i heq
    cases heq
    exact absurd hb (by decide)
  · rename_i heq
    cases heq
    exact absurd hb (by decide)
  · rfl

/-- No character of a number is white space. -/
theorem isSpace_of_mem_intText {n : Int} {b : UInt8} (h : b ∈ intText n) : isSpace b = false := by
  rcases mem_intText h with rfl | hb
  · rfl
  · have hle : 48 ≤ b.toNat ∧ b.toNat ≤ 57 := by
      simpa [isDigit, UInt8.le_iff_toNat_le] using hb
    have hne : b ≠ 32 := by
      rintro rfl
      exact absurd hle.1 (by decide)
    have hgt : ¬ b.toNat ≤ 13 := by omega
    simp [isSpace, hne, UInt8.le_iff_toNat_le, hgt]

/-- **Reading undoes writing.** -/
theorem readInt_intText (n : Int) : readInt (intText n) = some n := by
  have hdrop : (intText n).dropWhile isSpace = intText n := by
    cases h : intText n with
    | nil => rfl
    | cons b s =>
      have hb : b ∈ intText n := h ▸ List.mem_cons_self
      rw [List.dropWhile_cons, isSpace_of_mem_intText hb]
      rfl
  unfold readInt
  rw [hdrop]
  unfold intText
  split
  · show (readDigits (natText n.natAbs)).map (fun m : ℕ => -(m : Int)) = some n
    rw [readDigits_natText, Option.map_some]
    congr 1
    omega
  · obtain ⟨b, s, hbs⟩ := List.exists_cons_of_ne_nil (natText_ne_nil n.natAbs)
    have hb : isDigit b = true := isDigit_natTextFuel _ n.natAbs b (by
      show b ∈ natText n.natAbs
      rw [hbs]
      exact List.mem_cons_self)
    rw [hbs, readSigned_of_digit hb, ← hbs, readDigits_natText, Option.map_some]
    congr 1
    omega

/-- Different integers have different texts. -/
theorem intText_injective : Function.Injective intText := by
  intro m n h
  have := congrArg readInt h
  rw [readInt_intText, readInt_intText] at this
  exact Option.some.inj this

end Capsule.Library
