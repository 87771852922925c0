import Capsule.Program.FakeCapsule

/-!
# The messages of blocks

What the message of a block looks like on disk: where it has a zero byte, which is as far as the
hash reaches, and which other messages agree with it that far.
-/

set_option autoImplicit false

namespace Capsule.Analysis

open Library Program FakeCapsule

/-! ## C strings -/

/-- A byte string is its C string and, behind it, nothing or something that starts with a zero
byte. -/
theorem cString_spec (s : Str) :
    ∃ rest, s = cString s ++ rest ∧ (rest = [] ∨ ∃ tail, rest = 0 :: tail) := by
  induction s with
  | nil => exact ⟨[], rfl, Or.inl rfl⟩
  | cons b s ih =>
    obtain ⟨rest, hs, hrest⟩ := ih
    unfold cString at hs ⊢
    rw [List.takeWhile_cons]
    by_cases hb : b = 0
    · subst hb
      exact ⟨0 :: s, rfl, Or.inr ⟨s, rfl⟩⟩
    · rw [if_pos (decide_eq_true hb)]
      exact ⟨rest, by rw [List.cons_append, ← hs], hrest⟩

/-- The bytes in front of the first zero are kept. -/
theorem cString_of_not_mem {s : Str} (h : (0 : UInt8) ∉ s) (t : Str) :
    cString (s ++ t) = s ++ cString t := by
  have hne : ∀ b ∈ s, decide (b ≠ 0) = true := by
    intro b hb
    exact decide_eq_true fun hz => h (hz ▸ hb)
  exact List.takeWhile_append_of_pos hne

/-- What follows a zero byte does not matter. -/
theorem cString_of_mem {s : Str} (h : (0 : UInt8) ∈ s) (t : Str) :
    cString (s ++ t) = cString s := by
  obtain ⟨rest, hs, hrest⟩ := cString_spec s
  rcases hrest with rfl | ⟨tail, rfl⟩
  · rw [List.append_nil] at hs
    rw [hs] at h
    exact absurd (List.mem_takeWhile_imp h) (by simp)
  · have hfree : (0 : UInt8) ∉ cString s := fun hz => absurd (List.mem_takeWhile_imp hz) (by simp)
    have hst : s ++ t = cString s ++ (0 :: tail ++ t) := by
      rw [← List.append_assoc, ← hs]
    rw [hst, cString_of_not_mem hfree]
    simp [cString]

/-- A string without zeros is a C string. -/
theorem cString_eq_self {s : Str} (h : (0 : UInt8) ∉ s) : cString s = s := by
  have happ := cString_of_not_mem h []
  rw [List.append_nil] at happ
  rw [happ]
  exact List.append_nil s

/-! ## The fields of a message -/

/-- The fields of a payload have the numbers of the message, none of them zero. -/
theorem payload_tags (m : KvsPayloadMsg) : ∀ f ∈ m.fields, f.tag ∈ payloadTags ∧ f.tag ≠ 0 := by
  intro f hf
  simp only [KvsPayloadMsg.fields, List.mem_append, List.mem_map] at hf
  rcases hf with ((⟨a, -, rfl⟩ | ⟨a, -, rfl⟩) | ⟨a, -, rfl⟩) | ⟨a, -, rfl⟩ <;>
    simp [WireField.tag, payloadTags]

/-- The fields of a block have the numbers of the message, none of them zero. -/
theorem block_tags (m : CapsuleBlockMsg) : ∀ f ∈ m.fields, f.tag ∈ blockTags ∧ f.tag ≠ 0 := by
  intro f hf
  simp only [CapsuleBlockMsg.fields, List.mem_append, List.mem_map] at hf
  rcases hf with (((⟨a, -, rfl⟩ | ⟨a, -, rfl⟩) | ⟨a, -, rfl⟩) | ⟨a, -, rfl⟩) | ⟨a, -, rfl⟩ <;>
    simp [WireField.tag, blockTags]

/-- A number keeps its value as an unsigned one. -/
theorem toUInt64_injective : Function.Injective Int64.toUInt64 := by
  intro x y h
  exact Int64.toBitVec.inj (congrArg UInt64.toBitVec h)

/-- What a reader finds among the fields of a payload. -/
theorem payload_lookups (m : KvsPayloadMsg) :
    bodies 1 m.fields = m.key.toList ∧ bodies 2 m.fields = m.value.toList ∧
    ints 3 m.fields = m.txn_timestamp.toList.map Int64.toUInt64 ∧
    bodies 4 m.fields = m.txn_msgtype.toList := by
  simp [KvsPayloadMsg.fields]

/-- What a reader finds among the fields of a block. -/
theorem block_lookups (m : CapsuleBlockMsg) :
    ints 1 m.fields = m.counter.toList.map Int64.toUInt64 ∧
    ints 2 m.fields = m.level.toList.map Int64.toUInt64 ∧
    bodies 3 m.fields = m.startKey.toList ∧ bodies 4 m.fields = m.endKey.toList ∧
    bodies 5 m.fields = m.kvpairs.map KvsPayloadMsg.serialize := by
  simp [CapsuleBlockMsg.fields]

/-- The fields of a message determine the payload that is read. -/
theorem payloadOf_of_fields {m : KvsPayloadMsg} {p : KvsPayload}
    (h : m.fields = (payloadMsg p).fields) : payloadOf m = p := by
  obtain ⟨hkey, hvalue, htime, htype⟩ := payload_lookups m
  obtain ⟨hkey', hvalue', htime', htype'⟩ := payload_lookups (payloadMsg p)
  rw [h] at hkey hvalue htime htype
  have hk : m.key = some p.key := Option.toList_eq_singleton_iff.mp (hkey.symm.trans hkey')
  have hv : m.value = some p.value := Option.toList_eq_singleton_iff.mp (hvalue.symm.trans hvalue')
  have ht : m.txn_timestamp = some p.txn_timestamp := Option.toList_eq_singleton_iff.mp
    (List.map_injective_iff.mpr toUInt64_injective (htime.symm.trans htime'))
  have hm : m.txn_msgtype = some p.txn_msgType :=
    Option.toList_eq_singleton_iff.mp (htype.symm.trans htype')
  simp only [payloadOf, KvsPayloadMsg.getKey, KvsPayloadMsg.getValue, KvsPayloadMsg.getTimestamp,
    KvsPayloadMsg.getMsgtype, hk, hv, ht, hm, Option.getD_some]

/-- The serialized message of a payload determines it. -/
theorem payloadOf_of_serialize {m : KvsPayloadMsg} {p : KvsPayload}
    (h : m.serialize = (payloadMsg p).serialize) : payloadOf m = p :=
  payloadOf_of_fields
    (fields_eq_of_append (payload_tags m) (payload_tags _) m.unknown (Or.inl rfl) h).1

/-- The level, the range and the payloads of a message. -/
def decoded (m : CapsuleBlockMsg) : Int64 × Str × Str × List KvsPayload :=
  (m.getLevel, m.getStartKey, m.getEndKey, m.kvpairs.map payloadOf)

/-- The level, the range and the payloads of a block. -/
def written (b : CapsuleBlock) : Int64 × Str × Str × List KvsPayload :=
  (Int64.ofInt b.level, b.startKey, b.endKey, b.kvPairs)

/-- **Round trip** of the payloads of a block. -/
theorem map_payloadOf (ps : List KvsPayload) : (ps.map payloadMsg).map payloadOf = ps := by
  rw [List.map_map]
  exact List.map_id ps

/-- The message of a block decodes to what was written of it. -/
theorem decoded_blockMsg (counter : ℕ) (b : CapsuleBlock) :
    decoded (blockMsg counter b) = written b := by
  simp only [decoded, written, blockMsg, map_payloadOf]
  rfl

/-- **The fields of a block determine what its message says.** -/
theorem decoded_of_fields {m : CapsuleBlockMsg} {counter : ℕ} {b : CapsuleBlock}
    (h : m.fields = (blockMsg counter b).fields) : decoded m = written b := by
  obtain ⟨-, hlevel, hstart, hend, hpairs⟩ := block_lookups m
  obtain ⟨-, hlevel', hstart', hend', hpairs'⟩ := block_lookups (blockMsg counter b)
  rw [h] at hlevel hstart hend hpairs
  have hl : m.level = some (Int64.ofInt b.level) := Option.toList_eq_singleton_iff.mp
    (List.map_injective_iff.mpr toUInt64_injective (hlevel.symm.trans hlevel'))
  have hs : m.startKey = some b.startKey :=
    Option.toList_eq_singleton_iff.mp (hstart.symm.trans hstart')
  have he : m.endKey = some b.endKey := Option.toList_eq_singleton_iff.mp (hend.symm.trans hend')
  have hbodies : m.kvpairs.map KvsPayloadMsg.serialize =
      (b.kvPairs.map payloadMsg).map KvsPayloadMsg.serialize := hpairs.symm.trans hpairs'
  have hpayloads : m.kvpairs.map payloadOf = b.kvPairs := by
    generalize b.kvPairs = ps at hbodies
    generalize m.kvpairs = ms at hbodies
    induction ms generalizing ps with
    | nil => exact (List.map_eq_nil_iff.mp (List.map_eq_nil_iff.mp hbodies.symm)).symm
    | cons q ms ih =>
      cases ps with
      | nil => exact absurd hbodies (by simp)
      | cons p ps =>
        simp only [List.map_cons, List.cons.injEq] at hbodies
        rw [List.map_cons, payloadOf_of_serialize hbodies.1, ih ps hbodies.2]
  simp only [decoded, written, CapsuleBlockMsg.getLevel, CapsuleBlockMsg.getStartKey,
    CapsuleBlockMsg.getEndKey, hl, hs, he, hpayloads, Option.getD_some]

/-! ## Zero bytes -/

/-- A string that is written without a zero byte: its length is not zero, and it holds none. -/
def ZeroFree (s : Str) : Prop := s ≠ [] ∧ (0 : UInt8) ∉ s

/-- A payload whose message has no zero byte: a length or a number that is zero would be written as
one. -/
structure ShieldedPayload (p : KvsPayload) : Prop where
  key : ZeroFree p.key
  value : ZeroFree p.value
  timestamp : p.txn_timestamp ≠ 0
  msgType : ZeroFree p.txn_msgType

/-- A block whose message has no zero byte: it is neither the first one nor one of L0, and nothing
in it is empty. -/
structure Shielded (counter : ℕ) (b : CapsuleBlock) : Prop where
  counter : counter ≠ 0
  level : b.level ≠ 0
  startKey : ZeroFree b.startKey
  endKey : ZeroFree b.endKey
  payloads : ∀ p ∈ b.kvPairs, ShieldedPayload p

/-- A message has no zero byte exactly if none of its fields has one. -/
theorem zero_not_mem_encodeFields {fs : List WireField} :
    (0 : UInt8) ∉ encodeFields fs ↔ ∀ f ∈ fs, (0 : UInt8) ∉ f.encode := by
  simp [encodeFields]

/-- A field of text has no zero byte exactly if its text is not empty and has none. -/
theorem zero_not_mem_bytes {number : ℕ} {s : Str} :
    (0 : UInt8) ∉ (WireField.bytes number s).encode ↔ ZeroFree s := by
  rw [zero_mem_encode_bytes, not_or, ZeroFree]

/-- A field of a number has no zero byte exactly if the number is not zero. -/
theorem zero_not_mem_varint {number : ℕ} (hn : number ≠ 0) {v : UInt64} :
    (0 : UInt8) ∉ (WireField.varint number v).encode ↔ v ≠ 0 := by
  rw [zero_mem_encode_varint, not_or]
  exact and_iff_right hn

/-- A number is zero exactly if it is so as an unsigned one. -/
theorem toUInt64_ne_zero {x : Int64} : x.toUInt64 ≠ 0 ↔ x ≠ 0 :=
  not_congr ⟨fun h => toUInt64_injective (h.trans rfl), fun h => h ▸ rfl⟩

/-- The message of a payload has no zero byte exactly if the payload is shielded. -/
theorem zero_not_mem_payload {p : KvsPayload} :
    (0 : UInt8) ∉ (payloadMsg p).serialize ↔ ShieldedPayload p := by
  have hfields : (payloadMsg p).serialize = encodeFields [.bytes 1 p.key, .bytes 2 p.value,
      .varint 3 p.txn_timestamp.toUInt64, .bytes 4 p.txn_msgType] := List.append_nil _
  rw [hfields, zero_not_mem_encodeFields]
  simp only [List.forall_mem_cons, zero_not_mem_bytes, zero_not_mem_varint (show 3 ≠ 0 by omega),
    toUInt64_ne_zero]
  constructor
  · rintro ⟨hkey, hvalue, htime, htype, -⟩
    exact ⟨hkey, hvalue, htime, htype⟩
  · rintro ⟨hkey, hvalue, htime, htype⟩
    exact ⟨hkey, hvalue, htime, htype, by simp⟩

/-- The message of a payload is not empty. -/
theorem serialize_payload_ne_nil (p : KvsPayload) : (payloadMsg p).serialize ≠ [] := by
  have hfields : (payloadMsg p).serialize = (WireField.bytes 1 p.key).encode ++ encodeFields
      [.bytes 2 p.value, .varint 3 p.txn_timestamp.toUInt64, .bytes 4 p.txn_msgType] :=
    List.append_nil _
  rw [hfields]
  exact List.append_ne_nil_of_left_ne_nil (List.length_pos_iff.mp (length_encode_pos _)) _

/-- The message of a block is its fields, with no unknown bytes behind them. -/
theorem serialize_blockMsg (counter : ℕ) (b : CapsuleBlock) :
    (blockMsg counter b).serialize = encodeFields (blockMsg counter b).fields := List.append_nil _

/-- **Where the message of a block has a zero byte.** -/
theorem zero_not_mem_block {counter : ℕ} {b : CapsuleBlock} (hcounter : counter < 2 ^ 31)
    (hlevel : -(2 ^ 31) ≤ b.level ∧ b.level < 2 ^ 31) :
    (0 : UInt8) ∉ (blockMsg counter b).serialize ↔ Shielded counter b := by
  have hfields : (blockMsg counter b).fields = [.varint 1 (Int64.ofNat counter).toUInt64,
      .varint 2 (Int64.ofInt b.level).toUInt64, .bytes 3 b.startKey, .bytes 4 b.endKey] ++
      (b.kvPairs.map payloadMsg).map fun p => .bytes 5 p.serialize := rfl
  have hc : Int64.ofNat counter ≠ 0 ↔ counter ≠ 0 := by
    have hint : (Int64.ofNat counter).toInt = counter := Int64.toInt_ofNat_of_lt (by omega)
    rw [Ne, ← Int64.toInt_inj, hint, Int64.toInt_zero]
    omega
  have hl : Int64.ofInt b.level ≠ 0 ↔ b.level ≠ 0 := by
    have hint : (Int64.ofInt b.level).toInt = b.level :=
      Int64.toInt_ofInt_of_le (by omega) (by omega)
    rw [Ne, ← Int64.toInt_inj, hint, Int64.toInt_zero]
  have hpayload : ∀ p, ZeroFree (payloadMsg p).serialize ↔ ShieldedPayload p := fun p =>
    (and_iff_right (serialize_payload_ne_nil p)).trans zero_not_mem_payload
  rw [serialize_blockMsg, zero_not_mem_encodeFields, hfields]
  simp only [List.forall_mem_append, List.forall_mem_cons, List.forall_mem_map, zero_not_mem_bytes,
    zero_not_mem_varint (show 1 ≠ 0 by omega), zero_not_mem_varint (show 2 ≠ 0 by omega),
    toUInt64_ne_zero, hc, hl, hpayload]
  constructor
  · rintro ⟨⟨hcounter, hlevel, hstart, hend, -⟩, hpairs⟩
    exact ⟨hcounter, hlevel, hstart, hend, hpairs⟩
  · rintro ⟨hcounter, hlevel, hstart, hend, hpairs⟩
    exact ⟨⟨hcounter, hlevel, hstart, hend, by simp⟩, hpairs⟩

end Capsule.Analysis
