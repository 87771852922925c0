import Capsule.Library.Hex
import Capsule.Program.PayloadCodec

/-!
# Signed PDUs

A PDU carries a hash of its sender, timestamp and payload, and a signature over that hash and the
hash of the previous PDU.  The hash function and the signature scheme belong to the enclave
platform and are the parameter `Crypto`.
-/

set_option autoImplicit false

namespace Capsule.Program

open Library

/-- What the platform provides. -/
structure Crypto where
  /-- a key that signs -/
  SigningKey : Type
  /-- a key that verifies -/
  VerifyingKey : Type
  /-- the SHA-256 digest of a message, nothing if the hasher fails -/
  sha256 : Str → Option Str
  /-- the signature of a message -/
  sign : SigningKey → Str → Str
  /-- whether a signature of a message is accepted -/
  verify : VerifyingKey → Str → Str → Bool

/-- The fields of a PDU that are hashed, signed or checked.
SOURCE: src/shared/capsule.h:15-30 -/
structure CapsulePdu where
  payload_in_transit : Str
  signature : Str
  sender : Int32
  prevHash : Str
  hash : Str
  timestamp : Int64
deriving DecidableEq

variable (C : Crypto)

/-- SOURCE: src/shared/crypto.h:25-31 -/
def doHash (message : Str) : Option Str := C.sha256 message

/-- SOURCE: src/shared/crypto.h:34-39 -/
def signMessage (message : Str) (signing_key : C.SigningKey) : Str :=
  hexText (C.sign signing_key message)

/-- SOURCE: src/shared/crypto.h:42-49 -/
def verifyMessage (message signature : Str) (verifying_key : C.VerifyingKey) : Bool :=
  C.verify verifying_key message (hexBytes signature)

/-- The text that is hashed.
SOURCE: src/util/proto_util.cc:60-61, 76-77 -/
def aggregated (dc : CapsulePdu) : Str :=
  stdToString dc.sender.toInt ++ stdToString dc.timestamp.toInt ++ dc.payload_in_transit

/-- The PDU with its hash; the result says whether there is one.
SOURCE: src/util/proto_util.cc:59-67 -/
def generateHash (dc : CapsulePdu) : CapsulePdu × Bool :=
  match doHash C (aggregated dc) with
  | none => (dc, false)
  | some digest => ({ dc with hash := hexText digest }, true)

/-- SOURCE: src/util/proto_util.cc:69-73 -/
def signDc (dc : CapsulePdu) (signing_key : C.SigningKey) : CapsulePdu :=
  { dc with signature := signMessage C (dc.hash ++ dc.prevHash) signing_key }

/-- SOURCE: src/util/proto_util.cc:75-82 -/
def verifyHash (dc : CapsulePdu) : Bool :=
  match doHash C (aggregated dc) with
  | none => false
  | some digest => dc.hash = hexText digest

/-- SOURCE: src/util/proto_util.cc:84-86 -/
def verifySignature (dc : CapsulePdu) (verifying_key : C.VerifyingKey) : Bool :=
  verifyMessage C (dc.hash ++ dc.prevHash) dc.signature verifying_key

/-- SOURCE: src/util/proto_util.cc:88-121 -/
def verifyDc (dc : CapsulePdu) (verifying_key : C.VerifyingKey) : Bool :=
  verifyHash C dc && verifySignature C dc verifying_key

end Capsule.Program
