import Capsule.Program.Index

/-!
# The memory table

The newest version of each recently written key, in a `std::map`, with a second map that holds
a lock for each key.  A put of a new key first writes the table out to L0 if it is full; the
table is emptied only after the index has taken the block.
-/

set_option autoImplicit false

namespace Capsule.Program

open Library

/-- SOURCE: src/core/memtable.hpp:12-27 -/
structure Memtable where
  max_size : ℕ
  memtable : SortedMap Str KvsPayload
  locklst : SortedMap Str Unit

/-- The payload a search starts from.  The source leaves the timestamp of a payload that is not
found uninitialised. -/
def notFound : KvsPayload := ⟨[], [], 0, []⟩

/-- The engine and the disk. -/
structure World (S : BlockStore) where
  memtable : Memtable
  index : CapsuleIndex
  disk : S.Disk

variable {S : BlockStore}

/-- Computations of the engine. -/
abbrev EngineM (S : BlockStore) := EStateM Fault (World S)

/-- Run a computation of the index. -/
def onIndex {α : Type} (x : IndexM S α) : EngineM S α :=
  zoom (fun w => ⟨w.index, w.disk⟩) (fun s w => { w with index := s.index, disk := s.disk }) x

namespace Memtable

/-- `Memtable(size_t ms)`.
SOURCE: src/core/memtable.cc:12-14 -/
def new (ms : ℕ) : Memtable := ⟨ms, SortedMap.empty, SortedMap.empty⟩

/-- SOURCE: src/core/memtable.cc:16-38 -/
def get (m : Memtable) (key : Str) : Except Fault KvsPayload :=
  match m.locklst.find? key with
  | none => .ok notFound
  | some _ =>
    match m.memtable.find? key with
    | some got => .ok got
    | none => .error .outOfRange

/-- Store a payload under its key. -/
def store (m : Memtable) (p : KvsPayload) : Memtable :=
  { m with memtable := m.memtable.insert p.key p }

/-- The block that `write_out_if_full` makes of the table.
SOURCE: src/core/memtable.cc:104-120 -/
def toBlock (first : Str) (entries : List (Str × KvsPayload)) : CapsuleBlock :=
  let capsule_block := entries.foldl (fun b e => b.addKVPair e.2) (CapsuleBlock.new 0)
  let min_key := entries.foldl (fun k e => min k e.1) first
  let max_key := entries.foldl (fun k e => max k e.1) first
  (capsule_block.setMinKey min_key).setMaxKey max_key

end Memtable

/-- Write the table out as a block of L0 if it is full.
SOURCE: src/core/memtable.cc:89-132 -/
def writeOutIfFull : EngineM S Unit := do
  let m := (← get).memtable
  if m.memtable.size ≥ m.max_size then
    match m.memtable.entries with
    -- `begin()` of an empty map is dereferenced
    | [] => throw .outOfRange
    | first :: rest => do
      let capsule_block := Memtable.toBlock first.1 (first :: rest)
      let record_hash ← onIndex (onDisk (writeOut capsule_block))
      let _ ← onIndex (addHash 0 record_hash capsule_block)
      modify fun w => { w with
        memtable := { w.memtable with memtable := SortedMap.empty, locklst := SortedMap.empty } }

/-- Store a payload, unless the table has a version at least as new; the result says whether it
was stored.
SOURCE: src/core/memtable.cc:42-85 -/
def Memtable.put (payload : KvsPayload) : EngineM S Bool := do
  let m := (← MonadState.get).memtable
  match m.locklst.find? payload.key with
  | some _ =>
    match m.memtable.find? payload.key with
    | none => throw .outOfRange
    | some prev =>
      if payload.txn_timestamp ≤ prev.txn_timestamp then return false
      else do
        modify fun w => { w with memtable := w.memtable.store payload }
        return true
  | none => do
    writeOutIfFull
    modify fun w => { w with
      memtable := { w.memtable with locklst := w.memtable.locklst.insert payload.key () } }
    modify fun w => { w with memtable := w.memtable.store payload }
    return true

end Capsule.Program
