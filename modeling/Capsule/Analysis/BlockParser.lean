import Capsule.Analysis.BlockMessages

/-!
# A parser of messages

The reader that the format of messages prescribes: of an optional field the last value counts, the
parts of an optional message are read as one, and fields that are not known are kept.  It undoes the
serialization of the message of every block, so that there are platforms of the kind that the laws
of the block store ask for, and that of every request.
-/

set_option autoImplicit false

namespace Capsule.Analysis

open Library Program FakeCapsule

/-- The parser undoes the serialization of the message of every block. -/
def ParsesBlocks (P : CapsulePlatform) : Prop :=
  ∀ counter b, P.parse (blockMsg counter b).serialize = some (blockMsg counter b)

/-- The payload message of some fields. -/
def payloadMsgOf (fs : List WireField) : Option KvsPayloadMsg :=
  if h : ∀ f ∈ fs, f.tag ≠ 0 then
    some { key := (bodies 1 fs).getLast?
           value := (bodies 2 fs).getLast?
           txn_timestamp := (ints 3 fs).getLast?.map UInt64.toInt64
           txn_msgtype := (bodies 4 fs).getLast?
           unknown := ForeignBytes.ofFields payloadTags fs h }
  else none

/-- The message of a payload on the wire. -/
def parsePayload (s : Str) : Option KvsPayloadMsg := (readFields s).bind payloadMsgOf

/-- The block message of some fields. -/
def blockMsgOf (fs : List WireField) : Option CapsuleBlockMsg :=
  if h : ∀ f ∈ fs, f.tag ≠ 0 then
    ((bodies 5 fs).mapM parsePayload).map fun kvpairs =>
      { counter := (ints 1 fs).getLast?.map UInt64.toInt64
        level := (ints 2 fs).getLast?.map UInt64.toInt64
        startKey := (bodies 3 fs).getLast?
        endKey := (bodies 4 fs).getLast?
        kvpairs := kvpairs
        unknown := ForeignBytes.ofFields blockTags fs h }
  else none

/-- The message of a block on the wire. -/
def parseBlock (s : Str) : Option CapsuleBlockMsg := (readFields s).bind blockMsgOf

/-- The request of some fields; fields that are not known are dropped. -/
def requestOf (fs : List WireField) : Option DBRequest :=
  if ∀ f ∈ fs, f.tag ≠ 0 then
    let payload :=
      if bodies 3 fs = [] then some none else (parsePayload (bodies 3 fs).flatten).map some
    payload.map fun payload =>
      { requestingEnclaveID := (ints 1 fs).getLast?.map fun n => n.toInt64.toInt32
        requestedkey := (bodies 2 fs).getLast?
        payload := payload }
  else none

/-- The request on the wire. -/
def parseRequest (s : Str) : Option DBRequest := (readFields s).bind requestOf

/-! ## Reading back -/

/-- The last of at most one. -/
theorem getLast?_toList {α : Type} (o : Option α) : o.toList.getLast? = o := by
  cases o <;> rfl

/-- An optional number survives its encoding. -/
theorem map_toInt64 (o : Option Int64) :
    (o.toList.map Int64.toUInt64).getLast?.map UInt64.toInt64 = o := by
  cases o with
  | none => rfl
  | some x => exact congrArg some (Int64.toInt64_toUInt64 x)

/-- The fields of a payload without unknown ones make up the payload. -/
theorem payloadMsgOf_fields {m : KvsPayloadMsg} (hm : m.unknown = ForeignBytes.none payloadTags) :
    payloadMsgOf m.fields = some m := by
  obtain ⟨hkey, hvalue, htime, htype⟩ := payload_lookups m
  rw [payloadMsgOf, dif_pos fun f hf => (payload_tags m f hf).2,
    ForeignBytes.ofFields_eq_none (payload_tags m), hkey, hvalue, htime, htype]
  simp only [getLast?_toList, map_toInt64, ← hm]

/-- **Round trip** of the message of a payload. -/
theorem parsePayload_serialize {m : KvsPayloadMsg}
    (hm : m.unknown = ForeignBytes.none payloadTags) : parsePayload m.serialize = some m := by
  have hser : m.serialize = encodeFields m.fields := by
    rw [KvsPayloadMsg.serialize, hm]
    exact List.append_nil _
  rw [parsePayload, hser, readFields_encodeFields]
  exact payloadMsgOf_fields hm

/-- The messages of the payloads of a block are all parsed. -/
theorem mapM_parsePayload {ms : List KvsPayloadMsg}
    (hms : ∀ m ∈ ms, m.unknown = ForeignBytes.none payloadTags) :
    (ms.map KvsPayloadMsg.serialize).mapM parsePayload = some ms := by
  induction ms with
  | nil => rfl
  | cons m ms ih =>
    rw [List.map_cons, List.mapM_cons, parsePayload_serialize (hms m List.mem_cons_self),
      ih fun m' hm' => hms m' (List.mem_cons_of_mem m hm')]
    rfl

/-- **Parsing undoes serializing**, for the messages of blocks. -/
theorem parseBlock_serialize (counter : ℕ) (b : CapsuleBlock) :
    parseBlock (blockMsg counter b).serialize = some (blockMsg counter b) := by
  obtain ⟨hcounter, hlevel, hstart, hend, hpairs⟩ := block_lookups (blockMsg counter b)
  have hknown : ∀ m ∈ (blockMsg counter b).kvpairs, m.unknown = ForeignBytes.none payloadTags := by
    intro m hm
    obtain ⟨p, -, rfl⟩ := List.mem_map.mp hm
    rfl
  rw [parseBlock, serialize_blockMsg, readFields_encodeFields, Option.bind_some, blockMsgOf,
    dif_pos fun f hf => (block_tags _ f hf).2, ForeignBytes.ofFields_eq_none (block_tags _),
    hcounter, hlevel, hstart, hend, hpairs, mapM_parsePayload hknown]
  simp only [getLast?_toList, map_toInt64, Option.map_some]
  rfl

/-- What a reader finds among the fields of a request. -/
theorem request_lookups (m : DBRequest) :
    ints 1 m.fields = m.requestingEnclaveID.toList.map (fun i => i.toInt64.toUInt64) ∧
    bodies 2 m.fields = m.requestedkey.toList ∧
    bodies 3 m.fields = m.payload.toList.map KvsPayloadMsg.serialize := by
  simp [DBRequest.fields]

/-- No field of a request has the number zero. -/
theorem request_tags (m : DBRequest) : ∀ f ∈ m.fields, f.tag ≠ 0 := by
  intro f hf
  simp only [DBRequest.fields, List.mem_append, List.mem_map] at hf
  rcases hf with (⟨i, -, rfl⟩ | ⟨k, -, rfl⟩) | ⟨q, -, rfl⟩ <;> simp [WireField.tag]

/-- An optional small number survives its encoding. -/
theorem map_toInt32 (o : Option Int32) :
    (o.toList.map fun i => i.toInt64.toUInt64).getLast?.map (fun n => n.toInt64.toInt32) = o := by
  cases o with
  | none => rfl
  | some i => simp

/-- The parser undoes the serialization of every request whose fields are all known. -/
def ParsesRequests (ParseFromString : Str → Option DBRequest) : Prop :=
  ∀ m : DBRequest, (∀ q, m.payload = some q → q.unknown = ForeignBytes.none payloadTags) →
    ParseFromString m.serialize = some m

/-- **Parsing undoes serializing**, for requests. -/
theorem parseRequest_serialize : ParsesRequests parseRequest := by
  intro m hm
  obtain ⟨hid, hkey, hpayload⟩ := request_lookups m
  rw [parseRequest, DBRequest.serialize, readFields_encodeFields, Option.bind_some, requestOf,
    if_pos (request_tags m), hid, hkey, hpayload]
  obtain ⟨id, key, payload⟩ := m
  cases payload with
  | none => simp only [getLast?_toList, map_toInt32, Option.toList_none, List.map_nil, if_true,
      Option.map_some]
  | some q =>
    have hq := parsePayload_serialize (hm q rfl)
    simp only [getLast?_toList, map_toInt32, Option.toList_some, List.map_singleton,
      List.flatten_cons, List.flatten_nil, List.append_nil, hq, Option.map_some,
      List.cons_ne_nil, if_false]

end Capsule.Analysis
