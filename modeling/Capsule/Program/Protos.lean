import Capsule.Library.WireFormat
import Capsule.Program.Block

/-!
# Messages

The protocol buffer messages that the source passes between its parts and stores in its files.
Every field is optional: a field that was never set is `none` and reads as its default.  Fields
that a parsed message holds beyond the declared ones are kept and written behind them.

Serialization writes the fields that are set in the order of their numbers.
-/

set_option autoImplicit false

namespace Capsule.Program

open Library

/-- The tags of the fields of `Kvs_payload`. -/
def payloadTags : List ℕ := [10, 18, 24, 34]

/-- `message Kvs_payload`.
SOURCE: src/core/kvs_payload.proto:5-10 -/
structure KvsPayloadMsg where
  key : Option Str := none
  value : Option Str := none
  txn_timestamp : Option Int64 := none
  txn_msgtype : Option Str := none
  unknown : ForeignBytes payloadTags := ForeignBytes.none payloadTags

namespace KvsPayloadMsg

/-- `key()` -/
def getKey (m : KvsPayloadMsg) : Str := m.key.getD []

/-- `value()` -/
def getValue (m : KvsPayloadMsg) : Str := m.value.getD []

/-- `txn_timestamp()` -/
def getTimestamp (m : KvsPayloadMsg) : Int64 := m.txn_timestamp.getD 0

/-- `txn_msgtype()` -/
def getMsgtype (m : KvsPayloadMsg) : Str := m.txn_msgtype.getD []

/-- The declared fields that are set. -/
def fields (m : KvsPayloadMsg) : List WireField :=
  m.key.toList.map (WireField.bytes 1) ++ m.value.toList.map (WireField.bytes 2)
    ++ m.txn_timestamp.toList.map (fun t => WireField.varint 3 t.toUInt64)
    ++ m.txn_msgtype.toList.map (WireField.bytes 4)

/-- `SerializeToString` -/
def serialize (m : KvsPayloadMsg) : Str := encodeFields m.fields ++ m.unknown.bytes

end KvsPayloadMsg

/-- The tags of the fields of `CapsuleBlock`. -/
def blockTags : List ℕ := [8, 16, 26, 34, 42]

/-- `message CapsuleBlock`.
SOURCE: src/core/capsuleBlock.proto:7-14 -/
structure CapsuleBlockMsg where
  counter : Option Int64 := none
  level : Option Int64 := none
  startKey : Option Str := none
  endKey : Option Str := none
  kvpairs : List KvsPayloadMsg := []
  unknown : ForeignBytes blockTags := ForeignBytes.none blockTags

namespace CapsuleBlockMsg

/-- `level()` -/
def getLevel (m : CapsuleBlockMsg) : Int64 := m.level.getD 0

/-- `startkey()` -/
def getStartKey (m : CapsuleBlockMsg) : Str := m.startKey.getD []

/-- `endkey()` -/
def getEndKey (m : CapsuleBlockMsg) : Str := m.endKey.getD []

/-- The declared fields that are set. -/
def fields (m : CapsuleBlockMsg) : List WireField :=
  m.counter.toList.map (fun c => WireField.varint 1 c.toUInt64)
    ++ m.level.toList.map (fun l => WireField.varint 2 l.toUInt64)
    ++ m.startKey.toList.map (WireField.bytes 3) ++ m.endKey.toList.map (WireField.bytes 4)
    ++ m.kvpairs.map fun p => WireField.bytes 5 p.serialize

/-- `SerializeToString` -/
def serialize (m : CapsuleBlockMsg) : Str := encodeFields m.fields ++ m.unknown.bytes

end CapsuleBlockMsg

/-- `message DBRequest`, for requests and for replies.
SOURCE: src/enclave/capsuleDBRequest.proto:8-12 -/
structure DBRequest where
  requestingEnclaveID : Option Int32 := none
  requestedkey : Option Str := none
  payload : Option KvsPayloadMsg := none

namespace DBRequest

/-- `requestedkey()` -/
def getRequestedkey (m : DBRequest) : Str := m.requestedkey.getD []

/-- `payload()` -/
def getPayload (m : DBRequest) : KvsPayloadMsg := m.payload.getD {}

/-- The fields that are set; an `int32` is written with the sign in 64 bits. -/
def fields (m : DBRequest) : List WireField :=
  m.requestingEnclaveID.toList.map (fun i => WireField.varint 1 i.toInt64.toUInt64)
    ++ m.requestedkey.toList.map (WireField.bytes 2)
    ++ m.payload.toList.map fun p => WireField.bytes 3 p.serialize

/-- `SerializeToString` -/
def serialize (m : DBRequest) : Str := encodeFields m.fields

end DBRequest

end Capsule.Program
