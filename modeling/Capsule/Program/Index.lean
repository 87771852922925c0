import Capsule.Program.Level

/-!
# The index

The list of levels, and compaction.  `compact` sorts and merges the blocks of L0 when there are
too many of them and hands the result to `compactHelper`, which merges a sorted list of blocks
into a level; if the level would overflow, some of its blocks are first pushed into the level
below by a recursive call.

The index lives in memory and survives a thrown exception with every assignment made before
it.  Reads and writes of blocks go to the disk, which the functions of this file use through
`DiskM`.
-/

set_option autoImplicit false

namespace Capsule.Program

open Library

/-- SOURCE: src/core/index.hh:9-14 -/
structure CapsuleIndex where
  numLevels : ℕ
  blocksize : ℕ
  levels : List Level
deriving DecidableEq

/-- The index and the disk. -/
structure IndexState (S : BlockStore) where
  index : CapsuleIndex
  disk : S.Disk

variable {S : BlockStore}

/-- Computations of the index. -/
abbrev IndexM (S : BlockStore) := EStateM Fault (IndexState S)

/-- Run a computation of the disk. -/
def onDisk {α : Type} (x : DiskM S α) : IndexM S α :=
  zoom (fun s => s.disk) (fun d s => { s with disk := d }) x

/-! ## Merging two sorted lists of blocks -/

/-- The place a merge has reached in one of its lists: the block (`aa`), the pair in it (`aaa`)
and the block itself, which has been read. -/
structure Cursor where
  blockInd : ℕ
  pairInd : ℕ
  block : CapsuleBlock

namespace Cursor

/-- The pair the cursor stands at. -/
def pair (c : Cursor) : Except Fault KvsPayload :=
  match c.block.kvPairs[c.pairInd]? with
  | some p => .ok p
  | none => .error .outOfRange

/-- Step to the next pair, reading the next block of the list at the end of the current one.
SOURCE: src/core/index.cc:307-329 -/
def advance (blocks : List BlockHeader) (c : Cursor) : DiskM S Cursor :=
  if c.pairInd + 1 = c.block.kvPairs.length then
    match blocks[c.blockInd + 1]? with
    | some h => do
      let block ← readIn h.hash
      pure ⟨c.blockInd + 1, 0, block⟩
    | none => pure ⟨c.blockInd + 1, 0, c.block⟩
  else pure { c with pairInd := c.pairInd + 1 }

/-- Step to the next pair if the flag of the list (`advanceA`, `advanceB`) is set.
SOURCE: src/core/index.cc:308, 319 -/
def advanceIf (flag : Bool) (blocks : List BlockHeader) (c : Cursor) : DiskM S Cursor :=
  if flag then c.advance blocks else pure c

end Cursor

/-- The local variables of `merge`. -/
structure MergeState where
  a : Cursor
  b : Cursor
  next_cb : CapsuleBlock
  output : List BlockHeader

/-- The next pair of the output, and which of the two cursors it uses up.  Of two pairs with
one key the more recent is taken, the one of `b` when the timestamps are equal.
SOURCE: src/core/index.cc:268-305 -/
def nextKVPair (a b : List BlockHeader) (st : MergeState) :
    Except Fault (KvsPayload × Bool × Bool) :=
  if st.a.blockInd = a.length then do
    let pairB ← st.b.pair
    pure (pairB, false, true)
  else if st.b.blockInd = b.length then do
    let pairA ← st.a.pair
    pure (pairA, true, false)
  else do
    let pairA ← st.a.pair
    let pairB ← st.b.pair
    if pairB.key < pairA.key then pure (pairB, false, true)
    else if pairA.key < pairB.key then pure (pairA, true, false)
    else if pairB.txn_timestamp ≥ pairA.txn_timestamp then pure (pairB, true, true)
    else pure (pairA, true, true)

/-- Write a block and make its header.
SOURCE: src/core/index.cc:339-344, 350-355 -/
def writeHeader (cb : CapsuleBlock) : DiskM S BlockHeader := do
  let hash ← writeOut cb
  pure ⟨hash, cb.startKey, cb.endKey⟩

/-- Add a pair to the block under construction, and write the block out when it is full.
SOURCE: src/core/index.cc:338-346 -/
def pushPair (blocksize : ℕ) (next_level : Int) (next_cb : CapsuleBlock)
    (output : List BlockHeader) (p : KvsPayload) : DiskM S (CapsuleBlock × List BlockHeader) :=
  let cb := next_cb.addKVPair p
  if cb.kvPairs.length = blocksize then do
    let bh ← writeHeader cb
    pure (CapsuleBlock.new next_level, output ++ [bh])
  else pure (cb, output)

/-- One iteration of the loop of `merge`.
SOURCE: src/core/index.cc:264-347 -/
def mergeStep (blocksize : ℕ) (a b : List BlockHeader) (next_level : Int) (st : MergeState) :
    DiskM S MergeState := do
  let (p, advanceA, advanceB) ← lift (nextKVPair a b st)
  let curA ← st.a.advanceIf advanceA a
  let curB ← st.b.advanceIf advanceB b
  let (next_cb, output) ← pushPair blocksize next_level st.next_cb st.output p
  pure ⟨curA, curB, next_cb, output⟩

/-- The loop of `merge`, with fuel. -/
def mergeLoop (blocksize : ℕ) (a b : List BlockHeader) (next_level : Int) :
    ℕ → MergeState → DiskM S MergeState
  | 0, st =>
    if st.a.blockInd = a.length ∧ st.b.blockInd = b.length then pure st else throw .outOfFuel
  | n + 1, st =>
    if st.a.blockInd = a.length ∧ st.b.blockInd = b.length then pure st
    else do
      let st' ← mergeStep blocksize a b next_level st
      mergeLoop blocksize a b next_level n st'

/-- The key-value pairs of the block a header refers to. -/
def contents (S : BlockStore) (d : S.Disk) (h : BlockHeader) : List KvsPayload :=
  match S.stored d h.hash with
  | some b => b.kvPairs
  | none => []

/-- The number of pairs in a list of blocks: the fuel of a merge. -/
def entryCount (S : BlockStore) (d : S.Disk) (blocks : List BlockHeader) : ℕ :=
  (blocks.map fun h => (contents S d h).length).sum

/-- The cursor at the beginning of a list.
SOURCE: src/core/index.cc:252-261 -/
def openCursor (blocks : List BlockHeader) : DiskM S Cursor :=
  match blocks with
  | [] => pure ⟨0, 0, CapsuleBlock.new (-1)⟩
  | h :: _ => do
    let block ← readIn h.hash
    pure ⟨0, 0, block⟩

/-- Merge two sorted lists of blocks into one.
SOURCE: src/core/index.cc:239-360 -/
def merge (blocksize : ℕ) (a b : List BlockHeader) (next_level : Int) :
    DiskM S (List BlockHeader) := do
  -- `a[0]` is read without a check
  if a = [] then throw .outOfRange
  let curA ← openCursor a
  let curB ← openCursor b
  let d ← get
  let st ← mergeLoop blocksize a b next_level (entryCount S d (a ++ b))
    ⟨curA, curB, CapsuleBlock.new next_level, []⟩
  if st.next_cb.kvPairs.length > 0 then do
    let bh ← writeHeader st.next_cb
    pure (st.output ++ [bh])
  else pure st.output

/-! ## Which blocks of an overflowing level go down -/

/-- The loop that looks for the blocks of the destination affected by the source, with the
source and destination blocks not yet passed.
SOURCE: src/core/index.cc:175-193 -/
def affectedBlocks : List BlockHeader → List BlockHeader → List BlockHeader → List BlockHeader →
    List BlockHeader × List BlockHeader
  | s :: source, d :: dest, newSourceVec, remainingBlocks =>
    if s.minKey > d.minKey ∧ s.minKey > d.maxKey then
      let below := fun e : BlockHeader => decide (s.maxKey > e.maxKey)
      affectedBlocks source ((d :: dest).dropWhile below)
        (newSourceVec ++ (d :: dest).takeWhile below) remainingBlocks
    else affectedBlocks (s :: source) dest newSourceVec (remainingBlocks ++ [d])
  | _, dest, newSourceVec, remainingBlocks => (newSourceVec, remainingBlocks ++ dest)
termination_by source dest => source.length + dest.length
decreasing_by
  · have := (List.dropWhile_suffix (l := d :: dest) fun e => decide (s.maxKey > e.maxKey)).length_le
    simp only [List.length_cons] at this ⊢
    omega
  · simp only [List.length_cons]
    omega

/-- The blocks handed down and the blocks that stay.  When too few blocks are affected, the
first ones of the rest go down too; `std::next` does not check that there are enough.
SOURCE: src/core/index.cc:169-202 -/
def selectBlocks (sourceVec dest : List BlockHeader) :
    Except Fault (List BlockHeader × List BlockHeader) :=
  let (newSourceVec, remainingBlocks) := affectedBlocks sourceVec dest [] []
  if newSourceVec.length < sourceVec.length then
    let n := sourceVec.length - newSourceVec.length
    if remainingBlocks.length < n then .error .outOfRange
    else .ok (stdSort compareHeaders (newSourceVec ++ remainingBlocks.take n),
      remainingBlocks.drop n)
  else .ok (newSourceVec, remainingBlocks)

/-! ## The methods of the index -/

namespace CapsuleIndex

/-- `CapsuleIndex(size_t size)`: the capacity of L0 is narrowed to `int`.
SOURCE: src/core/index.cc:15-21 -/
def new (size : ℕ) : CapsuleIndex := ⟨1, size, [Level.new 0 (toInt (2 * size))]⟩

/-- The string returned for a level that does not exist. -/
def badLevel : Str := [66, 97, 100, 32, 108, 101, 118, 101, 108]

/-- SOURCE: src/core/index.cc:38-52 -/
def getBlock (idx : CapsuleIndex) (level : ℕ) (key : Str) : Except Fault Str :=
  if level ≥ idx.numLevels then .ok badLevel
  else match idx.levels[level]? with
    | some curr_level => curr_level.getBlock key
    | none => .error .outOfRange

end CapsuleIndex

/-- `levels[i]`, which the source does not check. -/
def levelAt (i : ℕ) : IndexM S Level := do
  let s ← get
  match s.index.levels[i]? with
  | some l => pure l
  | none => throw .outOfRange

/-- The state with another level at `levels[i]`. -/
def IndexState.putLevel (s : IndexState S) (i : ℕ) (l : Level) : IndexState S :=
  { s with index := { s.index with levels := s.index.levels.set i l } }

/-- Assign to `levels[i]`. -/
def setLevel (i : ℕ) (l : Level) : IndexM S Unit := modify fun s => s.putLevel i l

/-- The state with an empty level appended. -/
def IndexState.growLevel (s : IndexState S) (size : Int) : IndexState S :=
  { s with
    index := { s.index with
      levels := s.index.levels ++ [Level.new s.index.numLevels size]
      numLevels := s.index.numLevels + 1 } }

/-- Append an empty level.
SOURCE: src/core/index.cc:69-81 -/
def addLevel (size : Int) : IndexM S Unit := modify fun s => s.growLevel size

/-- Append an empty level if the condition holds; `size` may overflow.
SOURCE: src/core/index.cc:125-127, 165-167 -/
def addLevelIf (needed : Prop) [Decidable needed] (size : Except Fault Int) : IndexM S Unit :=
  if needed then do
    let n ← lift size
    addLevel n
  else pure ()

/-- Merge a sorted list of blocks with the blocks of a level.
SOURCE: src/core/index.cc:219-230 -/
def mergeInto (sourceVec : List BlockHeader) (destLevelInd : ℕ) : IndexM S Unit := do
  let blocksize := (← get).index.blocksize
  let dest ← levelAt destLevelInd
  let newDestLevelVec ← onDisk (merge blocksize sourceVec dest.recordHashes destLevelInd)
  setLevel destLevelInd ((← levelAt destLevelInd).setBlocks newDestLevelVec)

/-- Make room in a level that would overflow; `compactBelow` is the recursive call.
SOURCE: src/core/index.cc:164-216 -/
def pushDown (compactBelow : List BlockHeader → ℕ → IndexM S Unit)
    (sourceVec : List BlockHeader) (destLevelInd : ℕ) : IndexM S Unit := do
  let dest ← levelAt destLevelInd
  addLevelIf (dest.index + 1 ≥ (← get).index.numLevels) (mulInt dest.maxSize 10)
  let (newSourceVec, remainingBlocks) ← lift (selectBlocks sourceVec dest.recordHashes)
  compactBelow newSourceVec (destLevelInd + 1)
  setLevel destLevelInd ((← levelAt destLevelInd).setBlocks remainingBlocks)

/-- Merge a sorted list of blocks into a level, pushing blocks of the level down first if it
would overflow.  The recursion goes one level down each time; `fuel` bounds its depth.
SOURCE: src/core/index.cc:154-233 -/
def compactHelper : ℕ → List BlockHeader → ℕ → IndexM S Unit
  | 0, _, _ => throw .outOfFuel
  | fuel + 1, sourceVec, destLevelInd => do
    let blocksize := (← get).index.blocksize
    let dest ← levelAt destLevelInd
    if blocksize * sourceVec.length + blocksize * dest.recordHashes.length ≥
        toSizeT dest.maxSize then
      pushDown (compactHelper fuel) sourceVec destLevelInd
    mergeInto sourceVec destLevelInd

/-- Sort the pairs of each block of L0, from header `i` on, writing each block anew.
SOURCE: src/core/index.cc:368-380 -/
def sortBlocks : ℕ → ℕ → IndexM S Unit
  | 0, _ => pure ()
  | n + 1, i => do
    let lv0 ← levelAt 0
    match lv0.recordHashes[i]? with
    | none => throw .outOfRange
    | some h => do
      let currBlock ← onDisk (readIn h.hash)
      let sorted := { currBlock with kvPairs := stdSort comparePayloads currBlock.kvPairs }
      let hash ← onDisk (writeOut sorted)
      setLevel 0 { lv0 with recordHashes := lv0.recordHashes.set i { h with hash := hash } }
      sortBlocks n (i + 1)

/-- SOURCE: src/core/index.cc:368-380 -/
def sortL0 : IndexM S Unit := do
  let lv0 ← levelAt 0
  sortBlocks lv0.recordHashes.length 0

/-- Merge the blocks of L0 one after the other into the first.
SOURCE: src/core/index.cc:114-120 -/
def mergeL0 (blocksize : ℕ) : List BlockHeader → List BlockHeader → DiskM S (List BlockHeader)
  | sortedLv0, [] => pure sortedLv0
  | sortedLv0, h :: rest => do
    let merged ← merge blocksize sortedLv0 [h] 0
    mergeL0 blocksize merged rest

/-- SOURCE: src/core/index.cc:90-143 -/
def compact : IndexM S Unit := do
  let blocksize := (← get).index.blocksize
  let lv0 ← levelAt 0
  if blocksize * lv0.numBlocks < toSizeT lv0.maxSize then return
  sortL0
  let lv0 ← levelAt 0
  match lv0.recordHashes with
  | [] => throw .outOfRange
  | first :: rest => do
    let sortedLv0 ← onDisk (mergeL0 blocksize [first] rest)
    addLevelIf ((← get).index.numLevels = 1) (mulInt 10 lv0.maxSize)
    compactHelper ((← get).index.numLevels + 1) sortedLv0 1
    setLevel 0 ((← levelAt 0).setBlocks [])

/-- SOURCE: src/core/index.cc:54-61 -/
def addHash (level : ℕ) (hash : Str) (block : CapsuleBlock) : IndexM S Int := do
  if level ≥ (← get).index.numLevels then return -1
  let (l, status) := (← levelAt level).addBlock block hash
  setLevel level l
  compact
  return status

end Capsule.Program
