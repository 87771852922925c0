import Capsule.Program.Store

/-!
# Levels

A level is a list of block headers with the range of all its keys.  The empty string marks the
range of an empty level, so `addBlock` takes a level whose range starts or ends in it for empty.
`numBlocks` is kept beside the list and is what `getBlock` counts to.
-/

set_option autoImplicit false

namespace Capsule.Program

/-- SOURCE: src/core/level.hh:9-16 -/
structure Level where
  index : ℕ
  numBlocks : ℕ
  maxSize : Int
  min_key : Str
  max_key : Str
  recordHashes : List BlockHeader
deriving DecidableEq

namespace Level

/-- `Level(int i, int ms)`: an empty level.
SOURCE: src/core/level.cc:10-18 -/
def new (i : ℕ) (ms : Int) : Level := ⟨i, 0, ms, [], [], []⟩

/-- Add a block to the level; the second component is the status the source returns.
SOURCE: src/core/level.cc:52-88 -/
def addBlock (l : Level) (newBlock : CapsuleBlock) (hash : Str) : Level × Int :=
  let bh : BlockHeader := ⟨hash, newBlock.startKey, newBlock.endKey⟩
  if l.min_key = [] ∨ l.max_key = [] then
    -- the level counts as empty: its range becomes that of the block
    ({ l with
      numBlocks := l.numBlocks + 1
      min_key := newBlock.startKey
      max_key := newBlock.endKey
      recordHashes := l.recordHashes ++ [bh] }, 0)
  else if l.index = 0 then
    ({ l with
      recordHashes := l.recordHashes ++ [bh]
      numBlocks := l.numBlocks + 1
      min_key := min l.min_key newBlock.startKey
      max_key := max l.max_key newBlock.endKey }, 0)
  else (l, -1)

/-- The search loop of `getBlock`: `n` headers are still to be looked at. -/
def findCovering (key : Str) : ℕ → List BlockHeader → Except Fault Str
  | 0, _ => .ok []
  | _ + 1, [] => .error .outOfRange
  | n + 1, h :: hs =>
    if h.minKey ≤ key ∧ key ≤ h.maxKey then .ok h.hash else findCovering key n hs

/-- The hash of the first block whose range covers the key, the empty string if there is none.
SOURCE: src/core/level.cc:98-121 -/
def getBlock (l : Level) (key : Str) : Except Fault Str :=
  if key < l.min_key ∨ key > l.max_key then .ok []
  else findCovering key l.numBlocks l.recordHashes

/-- Replace the blocks of a level by a sorted list of blocks.  `compact` and `compactHelper`
spell this out three times.
SOURCE: src/core/index.cc:206-216, 219-230, 137-140 -/
def setBlocks (l : Level) (blocks : List BlockHeader) : Level :=
  { l with
    recordHashes := blocks
    numBlocks := blocks.length
    min_key := match blocks.head? with
      | none => []
      | some h => h.minKey
    max_key := match blocks.getLast? with
      | none => []
      | some h => h.maxKey }

end Level

end Capsule.Program
