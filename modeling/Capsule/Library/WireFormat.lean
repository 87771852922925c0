import Mathlib

/-!
# A tagged binary format

Messages are sequences of fields.  A field is a tag, which holds the number of the field and the
kind of its value, and the value: an integer in base 128, or bytes behind their length.  Integers
and fields can be read off the front of a byte string (`readVarint_varint`,
`readField_encodeField`), so no field is the beginning of another, and a sequence of known fields
can be told from whatever follows it (`fields_eq_of_append`).
-/

set_option autoImplicit false

namespace Capsule.Library

/-! ## Integers in base 128 -/

/-- Seven bits a byte, the low ones first, with fuel; the high bit marks that more bytes follow. -/
def varintFuel : ℕ → ℕ → List UInt8
  | 0, _ => []
  | fuel + 1, n =>
    if n < 128 then [UInt8.ofNat n]
    else UInt8.ofNat (128 + n % 128) :: varintFuel fuel (n / 128)

/-- An integer in base 128. -/
def varint (n : ℕ) : List UInt8 := varintFuel (n + 1) n

/-- The integer at the front of a byte string, and the rest. -/
def readVarint : List UInt8 → Option (ℕ × List UInt8)
  | [] => none
  | b :: s =>
    if b.toNat < 128 then some (b.toNat, s)
    else (readVarint s).map fun r => (b.toNat - 128 + 128 * r.1, r.2)

/-- More fuel than a number needs does not change its encoding. -/
theorem varintFuel_eq {m n k : ℕ} (hm : k < m) (hn : k < n) : varintFuel m k = varintFuel n k := by
  induction m generalizing n k with
  | zero => omega
  | succ m ih =>
    obtain ⟨n, rfl⟩ : ∃ n', n = n' + 1 := ⟨n - 1, by omega⟩
    rw [varintFuel, varintFuel]
    split
    · rfl
    · rw [ih (n := n) (by omega) (by omega)]

/-- A small number is one byte. -/
theorem varint_of_lt {n : ℕ} (h : n < 128) : varint n = [UInt8.ofNat n] := by
  rw [varint, varintFuel, if_pos h]

/-- A large number is seven bits and the encoding of the rest. -/
theorem varint_of_le {n : ℕ} (h : 128 ≤ n) :
    varint n = UInt8.ofNat (128 + n % 128) :: varint (n / 128) := by
  have hfuel : varintFuel n (n / 128) = varint (n / 128) := varintFuel_eq (by omega) (by omega)
  rw [varint, varintFuel, if_neg (by omega), hfuel]

/-- **Reading undoes writing.** -/
theorem readVarint_varint (n : ℕ) (s : List UInt8) : readVarint (varint n ++ s) = some (n, s) := by
  induction n using Nat.strong_induction_on with
  | _ n ih =>
    by_cases h : n < 128
    · have hb : (UInt8.ofNat n).toNat = n := by
        rw [UInt8.toNat_ofNat']
        omega
      rw [varint_of_lt h, List.singleton_append, readVarint, hb, if_pos h]
    · have hb : (UInt8.ofNat (128 + n % 128)).toNat = 128 + n % 128 := by
        rw [UInt8.toNat_ofNat']
        omega
      rw [varint_of_le (by omega), List.cons_append, readVarint, hb, if_neg (by omega),
        ih (n / 128) (by omega), Option.map_some]
      congr 2
      omega

/-- A number can be told from what follows it: by strong induction on the number. -/
theorem varint_append_inj {m n : ℕ} {s t : List UInt8} (h : varint m ++ s = varint n ++ t) :
    m = n ∧ s = t := by
  have hread := congrArg readVarint h
  rw [readVarint_varint, readVarint_varint] at hread
  exact Prod.mk.inj (Option.some.inj hread)

/-- Every number has a byte. -/
theorem varint_ne_nil (n : ℕ) : varint n ≠ [] := by
  by_cases h : n < 128
  · simp [varint_of_lt h]
  · simp [varint_of_le (not_lt.mp h)]

/-- The zero byte stands for zero and occurs in no other integer. -/
theorem zero_mem_varint_iff {n : ℕ} : (0 : UInt8) ∈ varint n ↔ n = 0 := by
  induction n using Nat.strong_induction_on with
  | _ n ih =>
    by_cases h : n < 128
    · rw [varint_of_lt h, List.mem_singleton, ← UInt8.toNat_inj, UInt8.toNat_ofNat']
      simp only [UInt8.toNat_zero]
      omega
    · rw [varint_of_le (by omega), List.mem_cons, ih (n / 128) (by omega), ← UInt8.toNat_inj,
        UInt8.toNat_ofNat']
      simp only [UInt8.toNat_zero]
      omega

/-! ## Fields -/

/-- A field of a message. -/
inductive WireField where
  | varint (number : ℕ) (value : UInt64)
  | bytes (number : ℕ) (body : List UInt8)
deriving DecidableEq

namespace WireField

/-- The number of the field and the kind of its value. -/
def tag : WireField → ℕ
  | varint number _ => 8 * number
  | bytes number _ => 8 * number + 2

/-- The value of the field. -/
def encodeValue : WireField → List UInt8
  | varint _ value => Library.varint value.toNat
  | bytes _ body => Library.varint body.length ++ body

/-- The field as bytes. -/
def encode (f : WireField) : List UInt8 := Library.varint f.tag ++ f.encodeValue

end WireField

/-- Fields one after the other. -/
def encodeFields (fs : List WireField) : List UInt8 := fs.flatMap WireField.encode

/-- The field at the front of a byte string, and the rest. -/
def readField (s : List UInt8) : Option (WireField × List UInt8) := do
  let (tag, s) ← readVarint s
  let (n, s) ← readVarint s
  if tag % 8 = 0 then some (.varint (tag / 8) (UInt64.ofNat n), s)
  else if tag % 8 = 2 ∧ n ≤ s.length then some (.bytes (tag / 8) (s.take n), s.drop n)
  else none

/-- All fields of a byte string, with fuel. -/
def readFieldsFuel : ℕ → List UInt8 → Option (List WireField)
  | _, [] => some []
  | 0, _ => none
  | fuel + 1, s => do
    let (f, rest) ← readField s
    let fs ← readFieldsFuel fuel rest
    some (f :: fs)

/-- All fields of a byte string. -/
def readFields (s : List UInt8) : Option (List WireField) := readFieldsFuel s.length s

/-- **A field is read off the front.** -/
theorem readField_encode (f : WireField) (s : List UInt8) :
    readField (f.encode ++ s) = some (f, s) := by
  unfold readField WireField.encode
  rw [List.append_assoc, readVarint_varint]
  cases f with
  | varint number value =>
    have hmod : 8 * number % 8 = 0 := by omega
    have hdiv : 8 * number / 8 = number := by omega
    simp only [Option.bind_eq_bind, Option.bind_some, WireField.encodeValue, WireField.tag,
      readVarint_varint, if_pos hmod, hdiv, UInt64.ofNat_toNat]
  | bytes number body =>
    have hmod : ¬ (8 * number + 2) % 8 = 0 := by omega
    have hmod' : (8 * number + 2) % 8 = 2 ∧ body.length ≤ (body ++ s).length := by
      rw [List.length_append]
      omega
    have hdiv : (8 * number + 2) / 8 = number := by omega
    simp only [Option.bind_eq_bind, Option.bind_some, WireField.encodeValue, WireField.tag,
      List.append_assoc, readVarint_varint, if_neg hmod, if_pos hmod', hdiv, List.take_left,
      List.drop_left]

/-- A field can be told from what follows it. -/
theorem encode_append_inj {f g : WireField} {s t : List UInt8} (h : f.encode ++ s = g.encode ++ t) :
    f = g ∧ s = t := by
  have hread := congrArg readField h
  rw [readField_encode, readField_encode] at hread
  exact Prod.mk.inj (Option.some.inj hread)

/-- Every field has a byte. -/
theorem length_encode_pos (f : WireField) : 0 < f.encode.length := by
  have := List.length_pos_of_ne_nil (varint_ne_nil f.tag)
  rw [WireField.encode, List.length_append]
  omega

/-- **All fields are read back.** -/
theorem readFields_encodeFields (fs : List WireField) : readFields (encodeFields fs) = some fs := by
  have hfuel : ∀ (gs : List WireField) (n : ℕ), (encodeFields gs).length ≤ n →
      readFieldsFuel n (encodeFields gs) = some gs := by
    intro gs
    induction gs with
    | nil => exact fun n _ => by cases n <;> rfl
    | cons g gs ih =>
      intro n hn
      have hcons : encodeFields (g :: gs) = g.encode ++ encodeFields gs := rfl
      have hpos := length_encode_pos g
      rw [hcons, List.length_append] at hn
      obtain ⟨n, rfl⟩ : ∃ m, n = m + 1 := ⟨n - 1, by omega⟩
      have hne : g.encode ++ encodeFields gs ≠ [] := by
        rw [← List.length_pos_iff, List.length_append]
        omega
      rw [hcons, readFieldsFuel]
      · rw [readField_encode]
        simp only [Option.bind_eq_bind, Option.bind_some, ih n (by omega)]
      · exact hne
  exact hfuel fs _ (Nat.le_refl _)

/-- An integer field has a zero byte if its number or its value is zero. -/
theorem zero_mem_encode_varint {number : ℕ} {value : UInt64} :
    (0 : UInt8) ∈ (WireField.varint number value).encode ↔ number = 0 ∨ value = 0 := by
  rw [WireField.encode, List.mem_append, WireField.tag, WireField.encodeValue, zero_mem_varint_iff,
    zero_mem_varint_iff, ← UInt64.toNat_inj, UInt64.toNat_zero]
  omega

/-- A field of bytes has a zero byte if it is empty or holds one. -/
theorem zero_mem_encode_bytes {number : ℕ} {body : List UInt8} :
    (0 : UInt8) ∈ (WireField.bytes number body).encode ↔ body = [] ∨ 0 ∈ body := by
  rw [WireField.encode, List.mem_append, WireField.tag, WireField.encodeValue, List.mem_append,
    zero_mem_varint_iff, zero_mem_varint_iff, List.length_eq_zero_iff]
  constructor
  · rintro (h | h)
    · omega
    · exact h
  · exact Or.inr

/-! ## Looking up fields -/

/-- The integers in the fields of a number. -/
def ints (number : ℕ) (fs : List WireField) : List UInt64 :=
  fs.filterMap fun
    | .varint k value => if k = number then some value else none
    | .bytes _ _ => none

/-- The bytes in the fields of a number. -/
def bodies (number : ℕ) (fs : List WireField) : List (List UInt8) :=
  fs.filterMap fun
    | .varint _ _ => none
    | .bytes k body => if k = number then some body else none

/-- The numbers of two lists of fields. -/
@[simp] theorem ints_append (number : ℕ) (fs gs : List WireField) :
    ints number (fs ++ gs) = ints number fs ++ ints number gs := List.filterMap_append

/-- The texts of two lists of fields. -/
@[simp] theorem bodies_append (number : ℕ) (fs gs : List WireField) :
    bodies number (fs ++ gs) = bodies number fs ++ bodies number gs := List.filterMap_append

section

variable {α : Type} (number k : ℕ)

/-- The numbers of fields that are all numbers of one kind. -/
@[simp] theorem ints_map_varint (g : α → UInt64) (l : List α) :
    ints number (l.map fun a => .varint k (g a)) = if k = number then l.map g else [] := by
  unfold ints
  rw [List.filterMap_map]
  split
  · rw [← List.filterMap_eq_map']
    exact congrArg (List.filterMap · l) (funext fun a => if_pos ‹_›)
  · exact List.filterMap_eq_nil_iff.mpr fun a _ => if_neg ‹_›

/-- Fields of texts have no numbers. -/
@[simp] theorem ints_map_bytes (g : α → List UInt8) (l : List α) :
    ints number (l.map fun a => .bytes k (g a)) = [] := by
  unfold ints
  rw [List.filterMap_map]
  exact List.filterMap_eq_nil_iff.mpr fun a _ => rfl

/-- Fields of numbers have no texts. -/
@[simp] theorem bodies_map_varint (g : α → UInt64) (l : List α) :
    bodies number (l.map fun a => .varint k (g a)) = [] := by
  unfold bodies
  rw [List.filterMap_map]
  exact List.filterMap_eq_nil_iff.mpr fun a _ => rfl

/-- The texts of fields that are all texts of one kind. -/
@[simp] theorem bodies_map_bytes (g : α → List UInt8) (l : List α) :
    bodies number (l.map fun a => .bytes k (g a)) = if k = number then l.map g else [] := by
  unfold bodies
  rw [List.filterMap_map]
  split
  · rw [← List.filterMap_eq_map']
    exact congrArg (List.filterMap · l) (funext fun a => if_pos ‹_›)
  · exact List.filterMap_eq_nil_iff.mpr fun a _ => if_neg ‹_›

/-- Plain fields of texts have no numbers. -/
@[simp] theorem ints_map_bytes_id (l : List (List UInt8)) : ints number (l.map (.bytes k)) = [] :=
  ints_map_bytes number k id l

/-- The texts of plain fields of one kind. -/
@[simp] theorem bodies_map_bytes_id (l : List (List UInt8)) :
    bodies number (l.map (.bytes k)) = if k = number then l else [] := by
  have h := bodies_map_bytes number k id l
  rwa [List.map_id] at h

end

/-! ## Known fields and what follows them -/

/-- The bytes of fields that a reader does not know: they are kept as they are.  The first of them
has a tag that is not among the known ones. -/
structure ForeignBytes (known : List ℕ) where
  bytes : List UInt8
  foreign : bytes = [] ∨ ∃ tag rest, tag ≠ 0 ∧ tag ∉ known ∧ bytes = varint tag ++ rest

/-- No unknown fields. -/
def ForeignBytes.none (known : List ℕ) : ForeignBytes known := ⟨[], Or.inl rfl⟩

/-- The fields of a message that are not known, one after the other. -/
def ForeignBytes.ofFields (known : List ℕ) (fs : List WireField) (h : ∀ f ∈ fs, f.tag ≠ 0) :
    ForeignBytes known where
  bytes := encodeFields (fs.filter fun f => f.tag ∉ known)
  foreign := by
    cases hfs : fs.filter fun f => f.tag ∉ known with
    | nil => exact Or.inl rfl
    | cons f rest =>
      have hmem : f ∈ fs.filter fun f => f.tag ∉ known := hfs ▸ List.mem_cons_self
      rw [List.mem_filter] at hmem
      refine Or.inr ⟨f.tag, f.encodeValue ++ encodeFields rest, h f hmem.1, by simpa using hmem.2,
        ?_⟩
      simp [encodeFields, WireField.encode]

/-- If all fields are known, nothing is left. -/
theorem ForeignBytes.ofFields_eq_none {known : List ℕ} {fs : List WireField}
    (hfs : ∀ f ∈ fs, f.tag ∈ known ∧ f.tag ≠ 0) :
    ofFields known fs (fun f hf => (hfs f hf).2) = none known := by
  have hnil : fs.filter (fun f => f.tag ∉ known) = [] :=
    List.filter_eq_nil_iff.mpr fun f hf => by simpa using (hfs f hf).1
  simp only [ofFields, none, hnil]
  rfl

/-- **Known fields are told from what follows them**: if a sequence of known and foreign fields
starts like a sequence of known fields that is over or goes on with a zero byte, then both are one
and nothing follows. -/
theorem fields_eq_of_append {known : List ℕ} {fs gs : List WireField}
    (hfs : ∀ f ∈ fs, f.tag ∈ known ∧ f.tag ≠ 0) (hgs : ∀ g ∈ gs, g.tag ∈ known ∧ g.tag ≠ 0)
    (u : ForeignBytes known) {v : List UInt8} (hv : v = [] ∨ ∃ rest, v = 0 :: rest)
    (h : encodeFields fs ++ u.bytes = encodeFields gs ++ v) : fs = gs ∧ v = [] := by
  -- no tag is the zero byte
  have hzero : ∀ {t : ℕ} {s : List UInt8}, t ≠ 0 → varint t ++ s ≠ v := by
    intro t s ht heq
    rcases hv with rfl | ⟨rest, rfl⟩
    · exact varint_ne_nil t (List.append_eq_nil_iff.mp heq).1
    · have hz : (0 : UInt8) :: rest = varint 0 ++ rest := by rw [varint_of_lt (by omega)]; rfl
      exact ht (varint_append_inj (heq.trans hz)).1
  have hcons : ∀ (f : WireField) (fs : List WireField) (s : List UInt8),
      encodeFields (f :: fs) ++ s = varint f.tag ++ (f.encodeValue ++ (encodeFields fs ++ s)) := by
    intro f fs s
    show f.encode ++ encodeFields fs ++ s = _
    simp [WireField.encode]
  induction fs generalizing gs with
  | nil =>
    cases gs with
    | nil =>
      refine ⟨rfl, ?_⟩
      have huv : u.bytes = v := h
      rcases u.foreign with hu | ⟨tag, rest, htag, -, hu⟩
      · rw [← huv, hu]
      · exact absurd (hu.symm.trans huv) (hzero htag)
    | cons g gs =>
      have hg := hgs g List.mem_cons_self
      rw [hcons] at h
      have hu' : u.bytes = varint g.tag ++ (g.encodeValue ++ (encodeFields gs ++ v)) := h
      rcases u.foreign with hu | ⟨tag, rest, -, hknown, hu⟩
      · rw [hu] at hu'
        exact absurd (List.append_eq_nil_iff.mp hu'.symm).1 (varint_ne_nil g.tag)
      · rw [hu] at hu'
        exact absurd ((varint_append_inj hu').1 ▸ hg.1) hknown
  | cons f fs ih =>
    have hf := hfs f List.mem_cons_self
    cases gs with
    | nil =>
      rw [hcons] at h
      exact absurd h (hzero hf.2)
    | cons g gs =>
      have h' : f.encode ++ (encodeFields fs ++ u.bytes) =
          g.encode ++ (encodeFields gs ++ v) := by
        simpa [encodeFields] using h
      obtain ⟨rfl, hrest⟩ := encode_append_inj h'
      obtain ⟨rfl, hnil⟩ := ih (fun f' hf' => hfs f' (List.mem_cons_of_mem f hf'))
        (fun g' hg' => hgs g' (List.mem_cons_of_mem f hg')) hrest
      exact ⟨rfl, hnil⟩

end Capsule.Library
