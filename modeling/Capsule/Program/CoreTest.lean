import Capsule.Program.Engine
import Capsule.Program.PayloadCodec

/-!
# The test of the core

The program puts the numbers below a bound into a new engine, each under its decimal text, keeps
them in a map of its own, reads back every entry of the map, and prints statistics of the levels.
In the source the bound is 2000 and the memory table has room for 50 payloads.
-/

set_option autoImplicit false

namespace Capsule.Program

open Library

variable {S : BlockStore}

namespace CoreTest

/-- What the program prints of a level. -/
structure LevelStats where
  index : ℕ
  first_key : Str
  last_key : Str
  maxSize : Int
  numBlocks : ℕ
  size : ℕ

/-- What the program reports. -/
structure Report where
  num_found : ℕ
  test_count : ℕ
  failed_keys : List Str
  num_levels : ℕ
  level_stats : List LevelStats
  test_map_size : ℕ

/-- The payload of a number, at a time of the clock; the message type is not set.
SOURCE: src/test_files/test_core.cc:19-24 -/
def kvs (i : ℕ) (now : Int64) : KvsPayload :=
  { key := stdToString i
    value := stdToString i
    txn_timestamp := now
    txn_msgType := [] }

/-- `std::map::insert`, which leaves an entry that is there. -/
def insertNew (m : SortedMap Str Str) (key value : Str) : SortedMap Str Str :=
  if (m.find? key).isSome then m else m.insert key value

/-- The loop that puts the numbers; the clock is read for each of them.
SOURCE: src/test_files/test_core.cc:17-26 -/
def putNumbers (clock : ℕ → Int64) : List ℕ → SortedMap Str Str → EngineM S (SortedMap Str Str)
  | [], test_map => pure test_map
  | i :: is, test_map => do
    let test_map := insertNew test_map (stdToString i) (stdToString i)
    CapsuleDB.put (kvs i (clock i))
    putNumbers clock is test_map

/-- An entry is counted, by what a get has returned for its key.
SOURCE: src/test_files/test_core.cc:33-41 -/
def Report.count (report : Report) (key value value1 : Str) : Report :=
  let report := if value1 = [] then
      { report with
        failed_keys := report.failed_keys ++ [key]
        test_count := report.test_count + 1 }
    else report
  if value1 = value then { report with num_found := report.num_found + 1 } else report

/-- The loop that reads the entries back.
SOURCE: src/test_files/test_core.cc:31-42 -/
def verify : List (Str × Str) → Report → EngineM S Report
  | [], report => pure report
  | (key, value) :: entries, report => do
    let payload ← CapsuleDB.get key
    verify entries (report.count key value payload.value)

/-- The first and the last block of a level are read without a check that there is one.
SOURCE: src/test_files/test_core.cc:46-50 -/
def levelStats (l : Level) : Except Fault LevelStats :=
  match l.recordHashes[0]? with
  | none => .error .outOfRange
  | some first =>
    match l.recordHashes[l.recordHashes.length - 1]? with
    | none => .error .outOfRange
    | some last => .ok
      { index := l.index
        first_key := first.minKey
        last_key := last.maxKey
        maxSize := l.maxSize
        numBlocks := l.numBlocks
        size := l.recordHashes.length }

/-- The loop that prints the levels.
SOURCE: src/test_files/test_core.cc:45-51 -/
def allStats : List Level → Except Fault (List LevelStats)
  | [] => .ok []
  | l :: levels => do
    let stats ← levelStats l
    let rest ← allStats levels
    return stats :: rest

/-- SOURCE: src/test_files/test_core.cc:10-57 -/
def main (bound : ℕ) (clock : ℕ → Int64) : EngineM S Report := do
  let test_map ← putNumbers clock (List.range' 1 (bound - 1)) SortedMap.empty
  let report ← verify test_map.entries ⟨0, 0, [], 0, [], 0⟩
  let w ← MonadState.get
  let level_stats ← lift (allStats w.index.levels)
  return { report with
    num_levels := w.index.levels.length
    level_stats := level_stats
    test_map_size := test_map.size }

end CoreTest

end Capsule.Program
