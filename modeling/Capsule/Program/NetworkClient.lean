import Capsule.Program.Enclave
import Capsule.Program.Signature

/-!
# The engine behind signed PDUs

Payloads travel in a PDU: they are joined to one text, encrypted, hashed and signed.  The receiver
checks hash and signature, decrypts, and serves the payloads by their message types: a put goes to
the engine, and the first get is answered by a PDU of its own.

The cipher belongs to the enclave platform and is the parameter `Aead`.  The message of a PDU is
declared outside the repository; it carries the fields that are set.
-/

set_option autoImplicit false

namespace Capsule.Program

open Library

variable {S : BlockStore}

/-! ## Encryption -/

/-- The cipher under the fixed key. -/
structure Aead where
  /-- `NonceSize()` -/
  nonceSize : ℕ
  /-- the ciphertext of a message under a nonce, nothing if it fails -/
  sealMessage : Str → Str → Option Str
  /-- the message of a ciphertext under a nonce, nothing if it is rejected -/
  openMessage : Str → Str → Option Str

/-- The nonce is picked by the cipher.
SOURCE: src/shared/crypto.h:53-68 -/
def encryptMessage (A : Aead) (nonce message : Str) : Option Str :=
  (A.sealMessage nonce message).map fun ciphertext => hexText nonce ++ hexText ciphertext

/-- SOURCE: src/shared/crypto.h:70-100 -/
def decryptMessage (A : Aead) (nonce_and_ciphertext : Str) : Option Str :=
  let input_bytes := hexBytes nonce_and_ciphertext
  if input_bytes.length < A.nonceSize then none
  else A.openMessage (input_bytes.take A.nonceSize) (input_bytes.drop A.nonceSize)

/-! ## PDUs -/

/-- A PDU with all its fields.
SOURCE: src/shared/capsule.h:15-30 -/
structure NetworkPdu extends CapsulePdu where
  payload_l : List KvsPayload
  msgType : Str
  retAddr : Str
deriving DecidableEq

/-- `new capsule_pdu()` -/
def NetworkPdu.new : NetworkPdu := ⟨⟨[], [], 0, [], [], 0⟩, [], [], []⟩

/-- The message of a PDU, whose definition is not part of the repository: it is taken to carry its
fields. -/
structure CapsulePduMsg where
  payload_in_transit : Str := []
  signature : Str := []
  sender : Int32 := 0
  prevhash : Str := []
  hash : Str := []
  timestamp : Int64 := 0
  msgtype : Str := []
  retaddr : Str := []
deriving DecidableEq

/-- SOURCE: src/util/proto_util.cc:167-181 -/
def capsuleToProto (dc : NetworkPdu) : CapsulePduMsg :=
  { payload_in_transit := dc.payload_in_transit
    signature := dc.signature
    sender := dc.sender
    prevhash := dc.prevHash
    hash := dc.hash
    timestamp := dc.timestamp
    msgtype := dc.msgType
    retaddr := dc.retAddr }

/-- The payloads of the PDU stay as they are.
SOURCE: src/util/proto_util.cc:183-196 -/
def capsuleFromProto (dc : NetworkPdu) (dcProto : CapsulePduMsg) : NetworkPdu :=
  { dc with
    signature := dcProto.signature
    sender := dcProto.sender
    payload_in_transit := dcProto.payload_in_transit
    prevHash := dcProto.prevhash
    hash := dcProto.hash
    timestamp := dcProto.timestamp
    msgType := dcProto.msgtype
    retAddr := dcProto.retaddr }

/-- The last payload of the list names the timestamp and the message type.
SOURCE: src/util/proto_util.cc:153-165 -/
def payloadListToCapsule (dc : NetworkPdu) (payload_l : List KvsPayload) (hne : payload_l ≠ [])
    (enclave_id : Int32) (ret_addr : Str) : NetworkPdu :=
  { dc with
    payload_l := payload_l
    timestamp := (payload_l.getLast hne).txn_timestamp
    msgType := (payload_l.getLast hne).txn_msgType
    sender := enclave_id
    retAddr := ret_addr }

/-- SOURCE: src/util/proto_util.cc:123-133 -/
def encryptPayloadL (A : Aead) (nonce : Str) (dc : NetworkPdu) (encryption_needed : Bool) :
    NetworkPdu × Bool :=
  let aggregated := serializePayloadL dc.payload_l
  if encryption_needed = false then ({ dc with payload_in_transit := aggregated }, true)
  else match encryptMessage A nonce aggregated with
    | none => (dc, false)
    | some encrypted_aggregated => ({ dc with payload_in_transit := encrypted_aggregated }, true)

/-- The payloads may not be readable.
SOURCE: src/util/proto_util.cc:135-143 -/
def decryptPayloadL (A : Aead) (dc : NetworkPdu) : Except CodecFault (NetworkPdu × Bool) :=
  match decryptMessage A dc.payload_in_transit with
  | none => .ok (dc, false)
  | some decrypted_aggregated => do
    let payload_l ← deserializePayloadL decrypted_aggregated
    pure ({ dc with payload_l := payload_l }, true)

/-! ## The network client -/

/-- What can end a call of the network client. -/
inductive NetworkFault where
  /-- the payloads of a PDU could not be read -/
  | codec (e : CodecFault)
  /-- a put or a get threw -/
  | engine (e : Fault)
deriving DecidableEq, Repr

/-- Computations of the network client. -/
abbrev NetworkM (S : BlockStore) := EStateM NetworkFault (World S)

/-- The platform and the keys.
SOURCE: src/network/Old/cdb_network_client.hh:14-22 -/
structure CapsuleDBNetworkClient where
  crypto : Crypto
  aead : Aead
  id : Int32
  signing_key : crypto.SigningKey
  verifying_key : crypto.VerifyingKey

namespace CapsuleDBNetworkClient

/-- `"GET"` -/
def getType : Str := [71, 69, 84]

variable (N : CapsuleDBNetworkClient)

/-- `generate_hash` on a PDU with all its fields. -/
def withHash (dc : NetworkPdu) : NetworkPdu × Bool :=
  let hashed := generateHash N.crypto dc.toCapsulePdu
  ({ dc with toCapsulePdu := hashed.1 }, hashed.2)

/-- `sign_dc` on a PDU with all its fields. -/
def signed (dc : NetworkPdu) : NetworkPdu :=
  { dc with toCapsulePdu := signDc N.crypto dc.toCapsulePdu N.signing_key }

/-- Every payload of the PDU is put, whatever its message type is.
SOURCE: src/network/Old/cdb_network_client.cc:32-55 -/
def put (inPDU : CapsulePduMsg) : NetworkM S Unit :=
  let translated := capsuleFromProto NetworkPdu.new inPDU
  if verifyDc N.crypto translated.toCapsulePdu N.verifying_key = false then pure ()
  else do
    let (translated, success) ← lift
      ((decryptPayloadL N.aead translated).mapError NetworkFault.codec)
    if success then mapError NetworkFault.engine (CapsuleDB.puts translated.payload_l)

/-- The reply is encrypted under the nonce that the cipher picks; where a step fails, it is empty.
SOURCE: src/network/Old/cdb_network_client.cc:57-105 -/
def get (nonce requestedKey : Str) : NetworkM S CapsulePduMsg := do
  let requested ← mapError NetworkFault.engine (CapsuleDB.get requestedKey)
  let dc := payloadListToCapsule NetworkPdu.new [requested] (List.cons_ne_nil _ _) N.id []
  match encryptPayloadL N.aead nonce dc true with
  | (_, false) => return {}
  | (dc, true) =>
    match N.withHash dc with
    | (_, false) => return {}
    | (dc, true) => return capsuleToProto (N.signed dc)

/-- The loop over the payloads: the first get ends it.
SOURCE: src/network/Old/cdb_network_client.cc:130-137 -/
def handlePayloads (nonce : Str) : List KvsPayload → NetworkM S CapsulePduMsg
  | [] => return {}
  | payload :: payload_l =>
    if payload.txn_msgType = CapsuleDBDriver.putType then do
      mapError NetworkFault.engine (CapsuleDB.put payload)
      handlePayloads nonce payload_l
    else if payload.txn_msgType = getType then N.get nonce payload.key
    else handlePayloads nonce payload_l

/-- A PDU that is not accepted or not readable is answered by an empty one.
SOURCE: src/network/Old/cdb_network_client.cc:110-142 -/
def handle (nonce : Str) (inPDU : CapsulePduMsg) : NetworkM S CapsulePduMsg :=
  let translated := capsuleFromProto NetworkPdu.new inPDU
  if verifyDc N.crypto translated.toCapsulePdu N.verifying_key = false then return {}
  else do
    let (translated, success) ← lift
      ((decryptPayloadL N.aead translated).mapError NetworkFault.codec)
    if success then N.handlePayloads nonce translated.payload_l
    else return {}

end CapsuleDBNetworkClient

/-! ## Its test client -/

namespace CapsuleDBTestClient

open CapsuleDBNetworkClient

variable (N : CapsuleDBNetworkClient)

/-- The PDU of a list of payloads; steps that fail are passed over.
SOURCE: src/test_files/Old/cdb_test.hh:87-101 -/
def makePdu (nonce recv_addr : Str) (payload_l : List KvsPayload) (hne : payload_l ≠ []) :
    CapsulePduMsg :=
  let dc := payloadListToCapsule NetworkPdu.new payload_l hne 0 recv_addr
  let dc := (encryptPayloadL N.aead nonce dc true).1
  let dc := (N.withHash dc).1
  capsuleToProto (N.signed dc)

/-- The payload of a request, at a time of the clock.
SOURCE: src/test_files/Old/cdb_test.hh:74-85 -/
def genRequest (key value : Str) (isPut : Bool) (currTime : Int64) : KvsPayload :=
  if isPut then kvToPayload key value currTime CapsuleDBDriver.putType
  else kvToPayload key value currTime getType

/-- SOURCE: src/test_files/Old/cdb_test.hh:73-112 -/
def genPayload (nonce recv_addr key value : Str) (isPut : Bool) (currTime : Int64) :
    CapsulePduMsg :=
  makePdu N nonce recv_addr [genRequest key value isPut currTime] (List.cons_ne_nil _ _)

/-- The value of the first put among the payloads.
SOURCE: src/test_files/Old/cdb_test.hh:62-66 -/
def firstPut : List KvsPayload → Str
  | [] => []
  | payload :: payload_l =>
    if payload.txn_msgType = CapsuleDBDriver.putType then payload.value else firstPut payload_l

/-- What the client makes of a reply.
SOURCE: src/test_files/Old/cdb_test.hh:26-37, 56-68 -/
def waitResponse (in_dc : CapsulePduMsg) : Except CodecFault Str := do
  let (response, success) ← decryptPayloadL N.aead (capsuleFromProto NetworkPdu.new in_dc)
  if success then return firstPut response.payload_l
  else return []

/-- A request of the client: its key and value, the time of the clock, the nonces that the cipher
picks for it and for the reply, and the address for the reply. -/
structure Request where
  key : Str
  value : Str
  isPut : Bool
  currTime : Int64
  nonce : Str
  replyNonce : Str
  recv_addr : Str

/-- A request that reaches the network client, and what the client reads if it waits for a reply.
SOURCE: src/test_files/Old/cdb_test.hh:135-150 -/
def ask (r : Request) : NetworkM S (Option Str) := do
  let reply ← N.handle r.replyNonce
    (genPayload N r.nonce r.recv_addr r.key r.value r.isPut r.currTime)
  if r.isPut then return none
  else do
    let value ← lift ((waitResponse N reply).mapError NetworkFault.codec)
    return some value

end CapsuleDBTestClient

end Capsule.Program
