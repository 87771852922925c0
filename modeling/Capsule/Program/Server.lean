import Capsule.Program.Enclave

/-!
# The servers and their client

Two servers take requests from a socket, one message at a time.  They are the same program around an
engine and around the driver of an enclave (`handleMessage`).  Whether a message is a put or a get
is told by its requested key.  A put is not answered, a get is, and an exception ends the server.

The parser of messages is a library.  Serialization succeeds; fields of a message that are not
declared are dropped by the servers.
-/

set_option autoImplicit false

namespace Capsule.Program

open Library

variable {S : BlockStore}

/-- What can end a server. -/
inductive ServerFault where
  /-- `std::logic_error`: the request could not be parsed -/
  | logicError
  /-- a put or a get threw -/
  | engine (e : Fault)
deriving DecidableEq, Repr

/-- Computations of a server. -/
abbrev ServerM (S : BlockStore) := EStateM ServerFault (World S)

/-- Call the engine. -/
def callEngine {α : Type} (x : EngineM S α) : ServerM S α := mapError ServerFault.engine x

/-- The payload that a server makes of a request.
SOURCE: src/network/capsuleDB_server.cc:52-57, src/network/capsuleDB_enclave_server.cc:59-64 -/
def requestPayload (parsedRequest : DBRequest) : KvsPayload :=
  { key := parsedRequest.getPayload.getKey
    value := parsedRequest.getPayload.getValue
    txn_timestamp := parsedRequest.getPayload.getTimestamp
    txn_msgType := parsedRequest.getPayload.getMsgtype }

/-- The reply that a server makes of a payload.
SOURCE: src/network/capsuleDB_server.cc:68-75, src/network/capsuleDB_enclave_server.cc:75-82 -/
def outputRequest (retrievedPayload : KvsPayload) : DBRequest :=
  let kvs_payload_serialized : KvsPayloadMsg :=
    { key := some retrievedPayload.key
      value := some retrievedPayload.value
      txn_timestamp := some retrievedPayload.txn_timestamp
      txn_msgtype := some retrievedPayload.txn_msgType }
  { payload := some kvs_payload_serialized }

/-- The body of the loop of a server, with the parser of messages and what stands behind `db`; the
result is the message that is sent, if there is one.
SOURCE: src/network/capsuleDB_server.cc:34-89, src/network/capsuleDB_enclave_server.cc:41-95 -/
def handleMessage (ParseFromString : Str → Option DBRequest) (put : KvsPayload → EngineM S Unit)
    (get : Str → EngineM S KvsPayload) (incoming_message : Str) : ServerM S (Option Str) :=
  match ParseFromString incoming_message with
  | none => throw .logicError
  | some parsedRequest =>
    if parsedRequest.getRequestedkey = [] then do
      callEngine (put (requestPayload parsedRequest))
      return none
    else do
      let retrievedPayload ← callEngine (get parsedRequest.getRequestedkey)
      return some (outputRequest retrievedPayload).serialize

/-- SOURCE: src/network/capsuleDB_server.cc:17 -/
def MEMTABLE_SIZE : ℕ := 50

namespace CapsuleDBServer

/-- The engine of the server.
SOURCE: src/network/capsuleDB_server.cc:27 -/
def init (disk : S.Disk) : World S := spawnDB MEMTABLE_SIZE disk

/-- SOURCE: src/network/capsuleDB_server.cc:34-89 -/
def handle (ParseFromString : Str → Option DBRequest) : Str → ServerM S (Option Str) :=
  handleMessage ParseFromString CapsuleDB.put CapsuleDB.get

end CapsuleDBServer

namespace CapsuleDBEnclaveServer

/-- The engine of the enclave that the server loads.
SOURCE: src/network/capsuleDB_enclave_server.cc:36 -/
def init (disk : S.Disk) : World S :=
  CapsuleDBEnclaveClient.initializeEnclave (CapsuleDBDriver.config 50) disk

/-- SOURCE: src/network/capsuleDB_enclave_server.cc:41-95 -/
def handle (ParseFromString : Str → Option DBRequest) : Str → ServerM S (Option Str) :=
  handleMessage ParseFromString CapsuleDBDriver.put CapsuleDBDriver.get

end CapsuleDBEnclaveServer

/-- Messages one after the other, with what is sent for each. -/
def handleMessages (handle : Str → ServerM S (Option Str)) :
    List Str → ServerM S (List (Option Str))
  | [] => pure []
  | m :: ms => do
    let reply ← handle m
    let replies ← handleMessages handle ms
    return reply :: replies

namespace Client

/-- The request that the client makes of a put; it sets the message type itself.
SOURCE: src/test_files/test_network.cc:24-36 -/
def putRequest (test_payload : KvsPayload) : DBRequest :=
  let kvs_payload_serialized : KvsPayloadMsg :=
    { key := some test_payload.key
      value := some test_payload.value
      txn_timestamp := some test_payload.txn_timestamp
      txn_msgtype := some CapsuleDBDriver.putType }
  { payload := some kvs_payload_serialized }

/-- SOURCE: src/test_files/test_network.cc:49-50 -/
def getRequest (key : Str) : DBRequest := { requestedkey := some key }

/-- The payload that the client reads from a reply; a reply that does not parse ends it.
SOURCE: src/test_files/test_network.cc:65-79 -/
def readReply (ParseFromString : Str → Option DBRequest) (incoming_message : Str) :
    Option KvsPayload :=
  (ParseFromString incoming_message).map fun output_data =>
    { key := output_data.getPayload.getKey
      value := output_data.getPayload.getValue
      txn_timestamp := output_data.getPayload.getTimestamp
      txn_msgType := output_data.getPayload.getMsgtype }

end Client

end Capsule.Program
