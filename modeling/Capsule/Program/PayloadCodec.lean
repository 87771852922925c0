import Capsule.Library.Decimal
import Capsule.Library.Delimited
import Capsule.Program.Block

/-!
# The payload list on the wire

A list of payloads travels as text: of each payload the timestamp, the message type, the key and
the value, each followed by a delimiter that is not escaped.  The receiver splits the text at the
delimiter and takes four pieces at a time.
-/

set_option autoImplicit false

namespace Capsule.Program

open Library

/-- The ways the decoder can end other than by returning. -/
inductive CodecFault where
  /-- `std::invalid_argument`: no number where one is read -/
  | invalidArgument
  /-- `std::out_of_range`: a number does not fit in an `int` -/
  | outOfRange
  /-- the loop index does not fit in an `int`: undefined behaviour -/
  | overflow
deriving DecidableEq, Repr

/-- SOURCE: src/util/proto_util.cc:10 -/
def delimStr : Str := [64, 64, 64]

/-- `std::to_string` -/
def stdToString (n : Int) : Str := intText n

/-- `std::stoi` -/
def stoi (s : Str) : Except CodecFault Int :=
  match readInt s with
  | none => .error .invalidArgument
  | some n => if -(2 ^ 31) ≤ n ∧ n < 2 ^ 31 then .ok n else .error .outOfRange

/-- SOURCE: src/util/proto_util.cc:145-151 -/
def kvToPayload (key value : Str) (timer : Int64) (msgType : Str) : KvsPayload :=
  { key := key, value := value, txn_timestamp := timer, txn_msgType := msgType }

/-- SOURCE: src/util/proto_util.cc:21-28 -/
def serializePayloadL (payload_l : List KvsPayload) : Str :=
  payload_l.foldl (fun payload_l_s payload => payload_l_s ++
    (stdToString payload.txn_timestamp.toInt ++ delimStr ++ payload.txn_msgType ++ delimStr
      ++ payload.key ++ delimStr ++ payload.value ++ delimStr)) []

/-- The loop over the pieces from piece `i` on; the last piece is left over.
SOURCE: src/util/proto_util.cc:46-54 -/
def readRecords (i : ℕ) : List Str → Except CodecFault (List KvsPayload)
  | txn_timestamp :: txn_msgType :: key :: value :: pieces => do
    let timer ← stoi txn_timestamp
    let payload := kvToPayload key value (Int64.ofInt timer) txn_msgType
    if i + 4 < 2 ^ 31 then do
      let payload_l ← readRecords (i + 4) pieces
      pure (payload :: payload_l)
    else .error .overflow
  | _ => pure []

/-- SOURCE: src/util/proto_util.cc:30-57 -/
def deserializePayloadL (payload_l_s : Str) : Except CodecFault (List KvsPayload) :=
  let split := split delimStr payload_l_s
  if (split.length - 1) % 4 ≠ 0 then .ok []
  else readRecords 0 split

end Capsule.Program
