import Capsule.Library.Hex
import Capsule.Program.Protos
import Capsule.Program.Store

/-!
# The block store on disk

`putCapsuleBlock` writes a block as a message into a file that is named by the hash of the
message; `getCapsuleBlock` parses the file, serializes what it parsed and compares the hash.  The
hash is taken of a C string, which ends at the first zero byte of the message.

SHA-256 and the parser of messages are libraries and make up `CapsulePlatform`; reading and
writing of files and serialization succeed.
-/

set_option autoImplicit false

namespace Capsule.Program

open Library

/-- The libraries that the store uses. -/
structure CapsulePlatform where
  /-- the digest of a byte string -/
  sha256 : Str → Str
  /-- `ParseFromIstream`: the message of a file, if there is one -/
  parse : Str → Option CapsuleBlockMsg

/-- The process and its directory: the next counter, and the files with their contents, the latest
first. -/
structure Directory where
  counter : ℕ
  files : List (Str × Str)

namespace FakeCapsule

variable (P : CapsulePlatform)

/-- The C string at the beginning of a byte string. -/
def cString (s : Str) : Str := s.takeWhile fun b => b ≠ 0

/-- SOURCE: src/core/fakeCapsule.cc:22-35 -/
def sha256String (string : Str) : Str := hexText (P.sha256 (cString string))

/-- The message of a payload.
SOURCE: src/core/fakeCapsule.cc:54-60 -/
def payloadMsg (p : KvsPayload) : KvsPayloadMsg :=
  { key := some p.key
    value := some p.value
    txn_timestamp := some p.txn_timestamp
    txn_msgtype := some p.txn_msgType }

/-- The message of a block.
SOURCE: src/core/fakeCapsule.cc:46-60 -/
def blockMsg (counter : ℕ) (inputBlock : CapsuleBlock) : CapsuleBlockMsg :=
  { counter := some (Int64.ofNat counter)
    level := some (Int64.ofInt inputBlock.level)
    startKey := some inputBlock.startKey
    endKey := some inputBlock.endKey
    kvpairs := inputBlock.kvPairs.map payloadMsg }

/-- Write a block to disk under its hash.
SOURCE: src/core/fakeCapsule.cc:43-85 -/
def putCapsuleBlock (inputBlock : CapsuleBlock) : EStateM Fault Directory Str := do
  let d ← get
  let protobufBlock := blockMsg d.counter inputBlock
  -- `counter++` of an `int`
  if d.counter + 1 < 2 ^ 31 then do
    let serializedBlock := protobufBlock.serialize
    let blockHash := sha256String P serializedBlock
    set ({ counter := d.counter + 1
           files := (blockHash, serializedBlock) :: d.files } : Directory)
    return blockHash
  else throw .overflow

/-- A sequence of puts. -/
def putCapsuleBlocks : List CapsuleBlock → EStateM Fault Directory (List Str)
  | [] => pure []
  | b :: bs => do
    let hash ← putCapsuleBlock P b
    let hashes ← putCapsuleBlocks bs
    pure (hash :: hashes)

/-- The payload of a message.
SOURCE: src/core/fakeCapsule.cc:130-134 -/
def payloadOf (m : KvsPayloadMsg) : KvsPayload :=
  { key := m.getKey
    value := m.getValue
    txn_timestamp := m.getTimestamp
    txn_msgType := m.getMsgtype }

/-- The block of a message; the level is narrowed to `int`.
SOURCE: src/core/fakeCapsule.cc:125-136 -/
def blockOfMsg (m : CapsuleBlockMsg) : CapsuleBlock :=
  let actualBlock := ((CapsuleBlock.new (toInt m.getLevel.toInt)).setMinKey m.getStartKey).setMaxKey
    m.getEndKey
  m.kvpairs.foldl (fun b p => b.addKVPair (payloadOf p)) actualBlock

/-- Retrieve the block of a hash.  A file that is missing, that does not parse or whose message has
another hash makes the call throw.
SOURCE: src/core/fakeCapsule.cc:93-140 -/
def getCapsuleBlock (inputHash : Str) : EStateM Fault Directory CapsuleBlock := do
  let d ← get
  match d.files.lookup inputHash with
  | none => throw .io
  | some storedBlock =>
    match P.parse storedBlock with
    | none => throw .io
    | some recoveredBlock =>
      let serializedBlock := recoveredBlock.serialize
      let blockHash := sha256String P serializedBlock
      if blockHash ≠ inputHash then throw .io
      else return blockOfMsg recoveredBlock

end FakeCapsule

end Capsule.Program
