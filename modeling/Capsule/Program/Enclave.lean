import Capsule.Program.Protos
import Capsule.Program.Engine

/-!
# The enclave and its driver

The driver turns a put or a get into a request message, the enclave tells the two apart by the
requested key and runs its engine, and the driver reads the reply.  The messages pass from the
driver to the enclave and back unchanged, and a call runs `Run` once, so a driver call is a
computation on the state of the enclave's engine.
-/

set_option autoImplicit false

namespace Capsule.Program

open Library

variable {S : BlockStore}

/-- The message the enclave is loaded with.
SOURCE: src/enclave/capsuleDBSetup.proto:7-9 -/
structure EnclaveConfig where
  capsuledb_size : Option Int64 := none

/-- The message passed into the enclave.
SOURCE: src/enclave/capsuleDBRequest.proto:16-18 -/
structure EnclaveInput where
  request_input : Option DBRequest := none

/-- The message passed out of the enclave.
SOURCE: src/enclave/capsuleDBRequest.proto:22-24 -/
structure EnclaveOutput where
  request_output : Option DBRequest := none

namespace CapsuleDBEnclaveClient

/-- The engine of a freshly loaded enclave; the `int64` of the message is converted to `size_t`.
SOURCE: src/enclave/capsuleDB_enclave.cc:19-26 -/
def initializeEnclave (enclave_config : EnclaveConfig) (disk : S.Disk) : World S :=
  match enclave_config.capsuledb_size with
  | some capsuledb_size => spawnDB (toSizeT capsuledb_size.toInt) disk
  | none => spawnDB 50 disk

/-- One call of the enclave.  The message type of a payload is copied in neither direction.
SOURCE: src/enclave/capsuleDB_enclave.cc:28-46 -/
def run (input : EnclaveInput) : EngineM S EnclaveOutput :=
  let request := input.request_input.getD {}
  if request.getRequestedkey = [] then do
    let payload : KvsPayload :=
      { key := request.getPayload.getKey
        value := request.getPayload.getValue
        txn_timestamp := request.getPayload.getTimestamp
        txn_msgType := [] }
    CapsuleDB.put payload
    pure {}
  else do
    let retrievedPayload ← CapsuleDB.get request.getRequestedkey
    let kvs_payload_serialized : KvsPayloadMsg :=
      { key := some retrievedPayload.key
        value := some retrievedPayload.value
        txn_timestamp := some retrievedPayload.txn_timestamp }
    pure { request_output := some { payload := some kvs_payload_serialized } }

end CapsuleDBEnclaveClient

namespace CapsuleDBDriver

/-- The configuration the driver loads its enclave with.
SOURCE: src/enclave/capsuleDB_driver.cc:32-33 -/
def config (memtable_size : UInt64) : EnclaveConfig :=
  { capsuledb_size := some memtable_size.toInt64 }

/-- `"PUT"` -/
def putType : Str := [80, 85, 84]

/-- SOURCE: src/enclave/capsuleDB_driver.cc:47-63 -/
def put (payload : KvsPayload) : EngineM S Unit := do
  let kvs_payload_serialized : KvsPayloadMsg :=
    { key := some payload.key
      value := some payload.value
      txn_timestamp := some payload.txn_timestamp
      txn_msgtype := some putType }
  let user_input : DBRequest :=
    { requestingEnclaveID := some 25, payload := some kvs_payload_serialized }
  let _ ← CapsuleDBEnclaveClient.run { request_input := some user_input }

/-- SOURCE: src/enclave/capsuleDB_driver.cc:65-85 -/
def get (key : Str) : EngineM S KvsPayload := do
  let user_input : DBRequest := { requestingEnclaveID := some 25, requestedkey := some key }
  let output ← CapsuleDBEnclaveClient.run { request_input := some user_input }
  let output_data := (output.request_output.getD {}).getPayload
  pure
    { key := output_data.getKey
      value := output_data.getValue
      txn_timestamp := output_data.getTimestamp
      txn_msgType := output_data.getMsgtype }

end CapsuleDBDriver

/-! ## Sequences of calls -/

/-- A call of the engine or of the driver. -/
inductive Call where
  /-- store a payload -/
  | put (payload : KvsPayload)
  /-- look up a key -/
  | get (key : Str)

/-- The call made on the engine itself; what a `get` answers is dropped. -/
def CapsuleDB.call : Call → EngineM S Unit
  | .put payload => CapsuleDB.put payload
  | .get key => do let _ ← CapsuleDB.get key

/-- The call made through the driver. -/
def CapsuleDBDriver.call : Call → EngineM S Unit
  | .put payload => CapsuleDBDriver.put payload
  | .get key => do let _ ← CapsuleDBDriver.get key

/-- Calls one after the other, by whatever serves one of them. -/
def callAll (call : Call → EngineM S Unit) : List Call → EngineM S Unit
  | [] => pure ()
  | c :: cs => do
    call c
    callAll call cs

end Capsule.Program
