import Capsule.Program.Machine

/-!
# Payloads and blocks

The payload of `src/shared/capsule.h` and the block of key-value pairs of
`src/core/capsuleBlock.cc`.  A block carries the range of its keys, kept up to date by
`addKVPair`; there the empty string stands for "no bound yet".
-/

set_option autoImplicit false

namespace Capsule.Program

/-- One version of a key.
SOURCE: src/shared/capsule.h:8-13 -/
structure KvsPayload where
  key : Str
  value : Str
  txn_timestamp : Int64
  txn_msgType : Str
deriving DecidableEq

/-- A reference to a stored block with the range of its keys.
SOURCE: src/core/capsuleBlock.hh:8-12 -/
structure BlockHeader where
  hash : Str
  minKey : Str
  maxKey : Str
deriving DecidableEq

/-- A block of key-value pairs.
SOURCE: src/core/capsuleBlock.hh:15-33 -/
structure CapsuleBlock where
  level : Int
  startKey : Str
  endKey : Str
  kvPairs : List KvsPayload
deriving DecidableEq

namespace CapsuleBlock

/-- `CapsuleBlock(int l)`: an empty block for level `l`.
SOURCE: src/core/capsuleBlock.cc:13-17 -/
def new (l : Int) : CapsuleBlock := ⟨l, [], [], []⟩

/-- SOURCE: src/core/capsuleBlock.cc:54-65 -/
def addKVPair (b : CapsuleBlock) (element : KvsPayload) : CapsuleBlock :=
  let startKey := if b.startKey = [] then element.key else b.startKey
  let endKey := if b.endKey = [] then element.key else b.endKey
  { b with
    kvPairs := b.kvPairs ++ [element]
    startKey := min startKey element.key
    endKey := max endKey element.key }

/-- SOURCE: src/core/capsuleBlock.cc:70-73 -/
def setMinKey (b : CapsuleBlock) (k : Str) : CapsuleBlock := { b with startKey := k }

/-- SOURCE: src/core/capsuleBlock.cc:78-81 -/
def setMaxKey (b : CapsuleBlock) (k : Str) : CapsuleBlock := { b with endKey := k }

/-- Adding a pair keeps the level of a block. -/
@[simp] theorem level_addKVPair (b : CapsuleBlock) (p : KvsPayload) :
    (b.addKVPair p).level = b.level := rfl

/-- A pair is added behind the others. -/
@[simp] theorem kvPairs_addKVPair (b : CapsuleBlock) (p : KvsPayload) :
    (b.addKVPair p).kvPairs = b.kvPairs ++ [p] := rfl

end CapsuleBlock

/-- SOURCE: src/core/index.cc:384-386 -/
def comparePayloads (payloadOne payloadTwo : KvsPayload) : Bool :=
  decide (payloadOne.key < payloadTwo.key)

/-- SOURCE: src/core/index.cc:395-397 -/
def compareHeaders (headerOne headerTwo : BlockHeader) : Bool :=
  decide (headerOne.minKey < headerTwo.minKey)

/-- `std::sort` with the comparison `lt`: elements that `lt` does not tell apart may come in any
order, which matters nowhere, since what is sorted here has distinct keys. -/
def stdSort {α : Type} (lt : α → α → Bool) (l : List α) : List α :=
  l.insertionSort fun a b => lt b a = false

/-- Sorting reorders. -/
theorem stdSort_perm {α : Type} (lt : α → α → Bool) (l : List α) : (stdSort lt l).Perm l :=
  List.perm_insertionSort _ l

end Capsule.Program
