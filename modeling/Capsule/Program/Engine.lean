import Capsule.Program.Memtable

/-!
# The engine

`put` and `get` of `CapsuleDB`.  A key is looked up in the memory table and then, level by
level, in at most one block per level; below L0 the pairs of a block are sorted and the scan
stops at the first larger key.  A payload with an empty key means "not found".
-/

set_option autoImplicit false

namespace Capsule.Program

open Library

variable {S : BlockStore}

/-- `spawnDB(memtable_size)` on a given disk.
SOURCE: src/core/engine.cc:17-23 -/
def spawnDB (memtable_size : ℕ) (disk : S.Disk) : World S :=
  ⟨Memtable.new memtable_size, CapsuleIndex.new memtable_size, disk⟩

namespace CapsuleDB

/-- SOURCE: src/core/engine.cc:42-51 -/
def put (payload : KvsPayload) : EngineM S Unit := do
  let _ ← Memtable.put payload

/-- The scan of one block for a key.
SOURCE: src/core/engine.cc:88-107 -/
def scanPairs (level : ℕ) (key : Str) : List KvsPayload → Option KvsPayload
  | [] => none
  | kv_tuple :: kvPairs =>
    if level ≠ 0 ∧ kv_tuple.key > key then none
    else if kv_tuple.key = key then some kv_tuple
    else scanPairs level key kvPairs

/-- The loop over the levels.
SOURCE: src/core/engine.cc:78-110 -/
def searchLevels (key : Str) : List ℕ → EngineM S (Option KvsPayload)
  | [] => pure none
  | i :: is => do
    let block_info ← lift ((← get).index.getBlock i key)
    if block_info ≠ [] then do
      let block ← onIndex (onDisk (readIn block_info))
      match scanPairs i key block.kvPairs with
      | some kv_tuple => pure (some kv_tuple)
      | none => searchLevels key is
    else searchLevels key is

/-- SOURCE: src/core/engine.cc:60-116 -/
def get (key : Str) : EngineM S KvsPayload := do
  let kv ← lift ((← MonadState.get).memtable.get key)
  if kv.key = [] then do
    let level_info := (← MonadState.get).index.numLevels
    match ← searchLevels key (List.range level_info) with
    | some kv_tuple => return kv_tuple
    | none => return kv
  else return kv

/-- A sequence of puts. -/
def puts : List KvsPayload → EngineM S Unit
  | [] => pure ()
  | p :: ps => do
    put p
    puts ps

end CapsuleDB

end Capsule.Program
