import Capsule.Interface.BlockRun

/-!
# The invariant of the sorted levels

`LevelOk` says what holds of a level below L0: its headers describe stored blocks, the blocks are
a run, full but for the last, and fewer than `2 * 10 ^ i`; its range is that of its blocks.
`IndexOk` says it of all levels below L0 at once.

The invariant does not look at timestamps, so it holds for puts in any order, and it is restored
at every assignment to a level: an exception in the middle of a compaction leaves it intact.
-/

set_option autoImplicit false

namespace Capsule.Interface

open Library Program

variable {S : BlockStore} {d d' : S.Disk} {B i : ℕ} {s s' : IndexState S} {l : Level}

/-! ## One level -/

/-- The invariant of the level `i`, for `i ≥ 1`. -/
structure LevelOk (S : BlockStore) (d : S.Disk) (B i : ℕ) (l : Level) : Prop where
  index_eq : l.index = i
  /-- the capacity is that of `2 * 10 ^ i` blocks -/
  maxSize_eq : l.maxSize = (2 * 10 ^ i * B : ℕ)
  /-- the capacity fits into an `int` -/
  maxSize_lt : 2 * 10 ^ i * B < 2 ^ 31
  /-- count and range of the level are those of its blocks -/
  range_eq : l.setBlocks l.recordHashes = l
  /-- the headers describe the blocks -/
  headersOk : HeadersOk S d l.recordHashes
  /-- the blocks are stored for this level -/
  storedAt : ∀ h ∈ l.recordHashes, StoredAt S d i h
  /-- the blocks are in key order, and so are their pairs -/
  sorted : SortedRun (runOf S d l.recordHashes)
  /-- the blocks are full, but for the last -/
  fullCut : FullCut B (l.recordHashes.map (contents S d))
  /-- the level is not full -/
  length_lt : l.recordHashes.length < 2 * 10 ^ i
  /-- the lower end of a range is the one `addKVPair` computes -/
  minKey_eq : ∀ h ∈ l.recordHashes, h.minKey = (blockOf i (contents S d h)).startKey

/-- The stored number of blocks is that of the list. -/
theorem LevelOk.numBlocks_eq (hl : LevelOk S d B i l) : l.numBlocks = l.recordHashes.length := by
  conv_lhs => rw [← hl.range_eq]
  rfl

/-- The capacity of a level is not negative, so that a `size_t` holds it as it is. -/
theorem LevelOk.toSizeT_maxSize (hl : LevelOk S d B i l) :
    toSizeT l.maxSize = 2 * 10 ^ i * B := by
  rw [hl.maxSize_eq]
  have := hl.maxSize_lt
  exact toSizeT_natCast (by omega)

/-- No block of a level is larger than the memory table. -/
theorem LevelOk.size_le (hl : LevelOk S d B i l) {h : BlockHeader} (hh : h ∈ l.recordHashes) :
    (contents S d h).length ≤ B :=
  (hl.fullCut.size _ (List.mem_map_of_mem hh)).2

/-- The range of the level covers the ranges of its blocks. -/
theorem LevelOk.covers (hl : LevelOk S d B i l) {h : BlockHeader} (hh : h ∈ l.recordHashes) :
    l.min_key ≤ h.minKey ∧ h.maxKey ≤ l.max_key := by
  have hbelow := (sortedRun_runOf_iff.mp hl.sorted).2
  have hok := hl.headersOk
  rw [← hl.range_eq]
  simp only [Level.setBlocks]
  constructor
  · cases hhs : l.recordHashes with
    | nil => simp [hhs] at hh
    | cons first rest =>
      simp only [hhs, List.head?_cons] at hh hbelow ⊢
      rcases List.mem_cons.mp hh with rfl | hh
      · exact le_rfl
      · exact (((List.pairwise_cons.mp hbelow).1 h hh).minKey_lt (hok _ (by simp [hhs]))
          (hok _ (by simp [hhs, hh]))).le
  · rcases l.recordHashes.eq_nil_or_concat' with hhs | ⟨init, last, hhs⟩
    · simp [hhs] at hh
    · simp only [hhs, List.getLast?_append, List.getLast?_singleton, Option.some_or] at hh hbelow ⊢
      rcases List.mem_append.mp hh with hh | hh
      · have hlt := ((List.pairwise_append.mp hbelow).2.2 h hh last (by simp)).maxKey_lt_minKey
          (hok _ (by simp [hhs, hh])) (hok _ (by simp [hhs]))
        exact hlt.le.trans (hok last (by simp [hhs])).ranged.lo_le_hi
      · rw [List.mem_singleton.mp hh]

/-- A level stays well formed while the disk keeps its blocks. -/
theorem LevelOk.keeps (hl : LevelOk S d B i l) (hk : Keeps S.stored d d') :
    LevelOk S d' B i l := by
  have hf := hl.headersOk.filled
  refine ⟨hl.index_eq, hl.maxSize_eq, hl.maxSize_lt, hl.range_eq, hl.headersOk.keeps hk,
    fun h hh => (hl.storedAt h hh).keeps hk, ?_, ?_, hl.length_lt, fun h hh => ?_⟩
  · rw [runOf_keeps hk hf]
    exact hl.sorted
  · rw [map_contents_keeps hk hf]
    exact hl.fullCut
  · rw [contents_keeps hk (hf h hh)]
    exact hl.minKey_eq h hh

/-- A new level is well formed if its capacity fits an `int`. -/
theorem LevelOk.new (d : S.Disk) (hmax : 2 * 10 ^ i * B < 2 ^ 31) :
    LevelOk S d B i (Level.new i (2 * 10 ^ i * B : ℕ)) := by
  refine ⟨rfl, rfl, hmax, rfl, by simp [Level.new, HeadersOk], by simp [Level.new],
    List.Pairwise.nil, FullCut.nil B, ?_, ?_⟩ <;>
  simp [Level.new]

/-- Blocks of a level may be taken away. -/
theorem LevelOk.remaining (hl : LevelOk S d B i l) {rem : List BlockHeader}
    (hsub : rem.Sublist l.recordHashes) : LevelOk S d B i (l.setBlocks rem) := by
  have hdest := sortedRun_runOf_iff.mp hl.sorted
  refine ⟨hl.index_eq, hl.maxSize_eq, hl.maxSize_lt, rfl,
    fun h hh => hl.headersOk h (hsub.subset hh), fun h hh => hl.storedAt h (hsub.subset hh), ?_,
    hl.fullCut.sublist (hsub.map _), hsub.length_le.trans_lt hl.length_lt,
    fun h hh => hl.minKey_eq h (hsub.subset hh)⟩
  exact sortedRun_runOf_iff.mpr ⟨fun h hh => hdest.1 h (hsub.subset hh), hdest.2.sublist hsub⟩

/-! ## All levels -/

/-- The blocks of the level `i`; a level that does not exist has none. -/
def headersAt (s : IndexState S) (i : ℕ) : List BlockHeader :=
  match s.index.levels[i]? with
  | some l => l.recordHashes
  | none => []

/-- The payloads of the level `i`, block after block. -/
def levelRun (s : IndexState S) (i : ℕ) : List KvsPayload := runOf S s.disk (headersAt s i)

/-- The invariant of the index below L0: the levels are counted right and each is in order. -/
structure IndexOk (S : BlockStore) (B : ℕ) (s : IndexState S) : Prop where
  blocksize_eq : s.index.blocksize = B
  numLevels_eq : s.index.numLevels = s.index.levels.length
  levels_pos : 0 < s.index.levels.length
  levelOk : ∀ i l, 1 ≤ i → s.index.levels[i]? = some l → LevelOk S s.disk B i l

/-- The blocks of a level that is there. -/
theorem headersAt_eq (h : s.index.levels[i]? = some l) : headersAt s i = l.recordHashes := by
  simp [headersAt, h]

/-- Below the lowest level there are no blocks. -/
theorem headersAt_of_length_le (h : s.index.levels.length ≤ i) : headersAt s i = [] := by
  simp [headersAt, List.getElem?_eq_none h]

/-- The blocks that an index refers to do not depend on the disk. -/
@[simp] theorem headersAt_disk (d : S.Disk) : headersAt { s with disk := d } i = headersAt s i :=
  rfl

/-- Replacing a level changes the blocks of this level only. -/
theorem headersAt_putLevel (hi : i < s.index.levels.length) (j : ℕ) :
    headersAt (s.putLevel i l) j = if j = i then l.recordHashes else headersAt s j := by
  unfold headersAt IndexState.putLevel
  by_cases hj : j = i
  · simp [hj, hi]
  · simp [hj, List.getElem?_set_ne (Ne.symm hj)]

/-- A new level has no blocks. -/
@[simp] theorem headersAt_growLevel (size : Int) :
    headersAt (s.growLevel size) i = headersAt s i := by
  unfold headersAt IndexState.growLevel
  rcases Nat.lt_trichotomy i s.index.levels.length with h | rfl | h
  · simp [List.getElem?_append_left h]
  · simp [Level.new]
  · simp [List.getElem?_eq_none h.le, List.getElem?_eq_none
      (show (s.index.levels ++ [Level.new s.index.numLevels size]).length ≤ i by simpa using h)]

/-- The headers of a level below L0 describe its blocks. -/
theorem IndexOk.headersOk (hs : IndexOk S B s) (hi : 1 ≤ i) :
    HeadersOk S s.disk (headersAt s i) := by
  unfold headersAt
  split
  · exact (hs.levelOk i _ hi ‹_›).headersOk
  · intro h hh
    exact absurd hh (by simp)

/-- The pairs of a level below L0 have increasing keys. -/
theorem IndexOk.sorted (hs : IndexOk S B s) (hi : 1 ≤ i) : SortedRun (levelRun s i) := by
  unfold levelRun headersAt
  split
  · exact (hs.levelOk i _ hi ‹_›).sorted
  · exact List.Pairwise.nil

/-- An index stays well formed while the disk keeps its blocks. -/
theorem IndexOk.keeps (hs : IndexOk S B s) (hk : Keeps S.stored s.disk d') :
    IndexOk S B { s with disk := d' } :=
  ⟨hs.blocksize_eq, hs.numLevels_eq, hs.levels_pos,
    fun i l hi hl => (hs.levelOk i l hi hl).keeps hk⟩

/-- Replacing a level by a well-formed one keeps the index well formed. -/
theorem IndexOk.putLevel (hs : IndexOk S B s) (hl : 1 ≤ i → LevelOk S s.disk B i l) :
    IndexOk S B (s.putLevel i l) := by
  refine ⟨hs.blocksize_eq, ?_, ?_, fun j l' hj hl' => ?_⟩
  · simpa [IndexState.putLevel] using hs.numLevels_eq
  · simpa [IndexState.putLevel] using hs.levels_pos
  · rcases eq_or_ne i j with rfl | hij
    · have hlt := (List.getElem?_eq_some_iff.mp hl').1
      simp only [IndexState.putLevel, List.length_set] at hlt
      obtain rfl : l = l' := by simpa [IndexState.putLevel, hlt] using hl'
      exact hl hj
    · exact hs.levelOk j l' hj (by simpa [IndexState.putLevel, List.getElem?_set_ne hij] using hl')

/-- Adding a level keeps the index well formed, if its capacity fits an `int`. -/
theorem IndexOk.growLevel (hs : IndexOk S B s)
    (hmax : 2 * 10 ^ s.index.levels.length * B < 2 ^ 31) :
    IndexOk S B (s.growLevel (2 * 10 ^ s.index.levels.length * B : ℕ)) := by
  refine ⟨hs.blocksize_eq, ?_, ?_, fun j l hj hl => ?_⟩
  · simpa [IndexState.growLevel] using hs.numLevels_eq
  · simp [IndexState.growLevel]
  · rcases Nat.lt_or_ge j s.index.levels.length with h | h
    · exact hs.levelOk j l hj
        (by simpa [IndexState.growLevel, List.getElem?_append_left h] using hl)
    · have hlt := (List.getElem?_eq_some_iff.mp hl).1
      simp only [IndexState.growLevel, List.length_append, List.length_singleton] at hlt
      obtain rfl : j = s.index.levels.length := by omega
      obtain rfl : Level.new s.index.numLevels _ = l := by
        simpa [IndexState.growLevel] using hl
      rw [hs.numLevels_eq]
      exact LevelOk.new s.disk hmax

/-- The pairs of a level stay the same while the disk keeps its blocks. -/
theorem IndexOk.levelRun_keeps (hs : IndexOk S B s) (hk : Keeps S.stored s.disk d') (hi : 1 ≤ i) :
    levelRun { s with disk := d' } i = levelRun s i :=
  runOf_keeps hk (hs.headersOk hi).filled

end Capsule.Interface
