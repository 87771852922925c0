import Capsule.Program.Index

/-!
# Lists of blocks as runs

What the engine keeps as a list of block headers stands for a run of payloads: the contents of
the blocks, one after the other (`runOf`).  This file says what it means for a header to
describe its block, and shows that none of it changes while the disk only gains blocks
(`Keeps`).

The range of a header is what `addKVPair` computes over the pairs of the block.  Since the empty
string also means "no bound yet" there, the range of a block that starts with the empty key may
start at its second key.  So a range always covers the non-empty keys, and both its ends are
keys of the block (`Ranged`).
-/

set_option autoImplicit false

namespace Capsule.Interface

open Library Program

/-! ## Runs of payloads -/

/-- The payloads have strictly increasing keys. -/
abbrev SortedRun (ps : List KvsPayload) : Prop := SortedBy KvsPayload.key ps

/-- The payload of a key in a list of payloads. -/
abbrev find (k : Str) (ps : List KvsPayload) : Option KvsPayload := lookup KvsPayload.key k ps

/-- The merge of two runs of payloads by key, the newer timestamp winning. -/
abbrev mergeRuns : List KvsPayload → List KvsPayload → List KvsPayload :=
  mergeBy KvsPayload.key KvsPayload.txn_timestamp

variable {S : BlockStore}

/-- The payloads of a list of blocks, block after block. -/
def runOf (S : BlockStore) (d : S.Disk) (blocks : List BlockHeader) : List KvsPayload :=
  (blocks.map (contents S d)).flatten

/-- Every block of the list holds something. -/
def Filled (S : BlockStore) (d : S.Disk) (blocks : List BlockHeader) : Prop :=
  ∀ h ∈ blocks, contents S d h ≠ []

/-- No blocks, no pairs. -/
@[simp] theorem runOf_nil (d : S.Disk) : runOf S d [] = [] := rfl

/-- The pairs of the first block and those of the others. -/
@[simp] theorem runOf_cons (d : S.Disk) (h : BlockHeader) (hs : List BlockHeader) :
    runOf S d (h :: hs) = contents S d h ++ runOf S d hs := rfl

/-- The pairs of two lists of blocks. -/
@[simp] theorem runOf_append (d : S.Disk) (hs hs' : List BlockHeader) :
    runOf S d (hs ++ hs') = runOf S d hs ++ runOf S d hs' := by
  simp [runOf]

/-- The pairs of a list of blocks are those of its blocks. -/
theorem mem_runOf {d : S.Disk} {hs : List BlockHeader} {p : KvsPayload} :
    p ∈ runOf S d hs ↔ ∃ h ∈ hs, p ∈ contents S d h := by
  simp [runOf]

/-- The number of pairs is what the merge counts. -/
theorem length_runOf (d : S.Disk) (hs : List BlockHeader) :
    (runOf S d hs).length = entryCount S d hs := by
  simp [runOf, entryCount, List.length_flatten, Function.comp_def]

/-- Blocks of at most `n` payloads. -/
theorem length_runOf_le {d : S.Disk} {hs : List BlockHeader} {n : ℕ}
    (hn : ∀ h ∈ hs, (contents S d h).length ≤ n) : (runOf S d hs).length ≤ hs.length * n := by
  have hle : ∀ m ∈ hs.map fun h => (contents S d h).length, m ≤ n := by
    simpa using hn
  simpa [runOf, List.length_flatten, Function.comp_def] using List.sum_le_card_nsmul _ _ hle

/-- Every key of the first block is below every key of the second. -/
def Below (S : BlockStore) (d : S.Disk) (h h' : BlockHeader) : Prop :=
  ∀ p ∈ contents S d h, ∀ q ∈ contents S d h', p.key < q.key

/-- A list of blocks is a run when each block is one and the blocks come in key order. -/
theorem sortedRun_runOf_iff {d : S.Disk} {hs : List BlockHeader} :
    SortedRun (runOf S d hs) ↔ (∀ h ∈ hs, SortedRun (contents S d h)) ∧
      hs.Pairwise (Below S d) := by
  unfold SortedRun SortedBy runOf
  rw [List.pairwise_flatten, List.forall_mem_map, List.pairwise_map]
  rfl

/-! ## Disks that only gain blocks -/

/-- A disk keeps what it has. -/
theorem keeps_refl (d : S.Disk) : Keeps S.stored d d := fun _ _ h => h

/-- What is kept twice is kept. -/
theorem keeps_trans {d d' d'' : S.Disk} (h : Keeps S.stored d d') (h' : Keeps S.stored d' d'') :
    Keeps S.stored d d'' := fun k b hb => h' k b (h k b hb)

/-- The contents of a block that is stored. -/
theorem contents_of_stored {d : S.Disk} {h : BlockHeader} {b : CapsuleBlock}
    (hb : S.stored d h.hash = some b) : contents S d h = b.kvPairs := by
  simp [contents, hb]

/-- A block that holds something is stored. -/
theorem stored_of_contents {d : S.Disk} {h : BlockHeader} (hne : contents S d h ≠ []) :
    ∃ b, S.stored d h.hash = some b ∧ contents S d h = b.kvPairs := by
  unfold contents at hne ⊢
  cases hb : S.stored d h.hash with
  | none => simp [hb] at hne
  | some b => exact ⟨b, rfl, rfl⟩

/-- A disk that keeps its blocks keeps the contents of one that is not empty. -/
theorem contents_keeps {d d' : S.Disk} (hk : Keeps S.stored d d') {h : BlockHeader}
    (hne : contents S d h ≠ []) : contents S d' h = contents S d h := by
  obtain ⟨b, hb, hc⟩ := stored_of_contents hne
  rw [hc, contents_of_stored (hk _ _ hb)]

/-- A disk that keeps its blocks keeps their contents. -/
theorem map_contents_keeps {d d' : S.Disk} (hk : Keeps S.stored d d') {hs : List BlockHeader}
    (hf : Filled S d hs) : hs.map (contents S d') = hs.map (contents S d) :=
  List.map_congr_left fun h hh => contents_keeps hk (hf h hh)

/-- A disk that keeps its blocks keeps their pairs. -/
theorem runOf_keeps {d d' : S.Disk} (hk : Keeps S.stored d d') {hs : List BlockHeader}
    (hf : Filled S d hs) : runOf S d' hs = runOf S d hs := by
  unfold runOf
  rw [map_contents_keeps hk hf]

/-- Blocks stay filled while the disk keeps them. -/
theorem Filled.keeps {d d' : S.Disk} {hs : List BlockHeader} (hf : Filled S d hs)
    (hk : Keeps S.stored d d') : Filled S d' hs := fun h hh => by
  rw [contents_keeps hk (hf h hh)]
  exact hf h hh

/-! ## The range of a block -/

/-- The block that `addKVPair` builds from a list of payloads. -/
def blockOf (level : Int) (ps : List KvsPayload) : CapsuleBlock :=
  ps.foldl CapsuleBlock.addKVPair (CapsuleBlock.new level)

/-- The block of no pairs is a new one. -/
@[simp] theorem blockOf_nil (level : Int) : blockOf level [] = CapsuleBlock.new level := rfl

/-- The block of one more pair. -/
theorem blockOf_concat (level : Int) (ps : List KvsPayload) (p : KvsPayload) :
    blockOf level (ps ++ [p]) = (blockOf level ps).addKVPair p := by
  simp [blockOf, List.foldl_append]

/-- A block made of pairs holds them. -/
@[simp] theorem kvPairs_blockOf (level : Int) (ps : List KvsPayload) :
    (blockOf level ps).kvPairs = ps := by
  induction ps using List.reverseRecOn with
  | nil => rfl
  | append_singleton ps p ih => rw [blockOf_concat, CapsuleBlock.kvPairs_addKVPair, ih]

/-- A block made of pairs is of its level. -/
@[simp] theorem level_blockOf (level : Int) (ps : List KvsPayload) :
    (blockOf level ps).level = level := by
  induction ps using List.reverseRecOn with
  | nil => rfl
  | append_singleton ps p ih => rw [blockOf_concat, CapsuleBlock.level_addKVPair, ih]

/-- The range runs between two keys of the block and covers its non-empty keys. -/
structure Ranged (lo hi : Str) (ps : List KvsPayload) : Prop where
  /-- the lower end is a key -/
  lo_mem : ∃ p ∈ ps, p.key = lo
  /-- the upper end is a key -/
  hi_mem : ∃ p ∈ ps, p.key = hi
  /-- non-empty keys lie between the ends -/
  covers : ∀ p ∈ ps, p.key ≠ [] → lo ≤ p.key ∧ p.key ≤ hi

/-- A range that does not begin with the empty string does not end with it either. -/
theorem Ranged.hi_ne {lo hi : Str} {ps : List KvsPayload} (hr : Ranged lo hi ps) (hlo : lo ≠ []) :
    hi ≠ [] := by
  obtain ⟨p, hp, hpk⟩ := hr.lo_mem
  have hle := (hr.covers p hp (hpk ▸ hlo)).2
  rintro rfl
  exact hlo (hpk ▸ le_antisymm hle (nil_le _))

/-- The range of a block is not empty. -/
theorem Ranged.lo_le_hi {lo hi : Str} {ps : List KvsPayload} (hr : Ranged lo hi ps) : lo ≤ hi := by
  by_cases hlo : lo = []
  · rw [hlo]
    exact nil_le hi
  · obtain ⟨p, hp, hpk⟩ := hr.lo_mem
    rw [← hpk]
    exact (hr.covers p hp (hpk ▸ hlo)).2

/-- **`addKVPair` computes a range**, when the pairs come in key order. -/
theorem ranged_blockOf (level : Int) {ps : List KvsPayload} (hs : SortedRun ps) (hne : ps ≠ []) :
    Ranged (blockOf level ps).startKey (blockOf level ps).endKey ps := by
  -- the lower end stays empty only as long as the empty key is the only one
  suffices h : Ranged (blockOf level ps).startKey (blockOf level ps).endKey ps ∧
      ((blockOf level ps).startKey = [] → ∀ p ∈ ps, p.key = []) from h.1
  induction ps using List.reverseRecOn with
  | nil => exact absurd rfl hne
  | append_singleton ps p ih =>
    have hlast : ∀ q ∈ ps, q.key < p.key := fun q hq =>
      (List.pairwise_append.mp hs).2.2 q hq p (by simp)
    rw [blockOf_concat]
    rcases ps.eq_nil_or_concat' with rfl | ⟨init, last, rfl⟩
    · simp only [blockOf_nil, CapsuleBlock.new, CapsuleBlock.addKVPair, if_true, min_self, max_self,
        List.nil_append]
      refine ⟨⟨⟨p, by simp, rfl⟩, ⟨p, by simp, rfl⟩, fun q hq _ => ?_⟩, fun h q hq => ?_⟩
      · rw [List.mem_singleton.mp hq]
        exact ⟨le_rfl, le_rfl⟩
      · rwa [List.mem_singleton.mp hq]
    · obtain ⟨⟨⟨ql, hql, hlo⟩, ⟨qh, hqh, hhi⟩, hcov⟩, hempty⟩ :=
        ih (List.pairwise_append.mp hs).1 (by simp)
      generalize hblk : blockOf level (init ++ [last]) = blk at *
      generalize init ++ [last] = ps at *
      have hp : p.key ≠ [] := fun h => by
        have := hlast ql hql
        rw [h] at this
        exact List.not_lt_nil _ this
      have hend : (if blk.endKey = [] then p.key else blk.endKey) ≤ p.key := by
        split
        · exact le_rfl
        · exact hhi ▸ (hlast qh hqh).le
      simp only [CapsuleBlock.addKVPair, max_eq_right hend]
      by_cases hstart : blk.startKey = []
      · -- only the empty key so far: the range starts anew at `p`
        simp only [if_pos hstart, min_self]
        refine ⟨⟨⟨p, by simp, rfl⟩, ⟨p, by simp, rfl⟩, fun q hq hqne => ?_⟩, fun h => absurd h hp⟩
        rcases List.mem_append.mp hq with hq | hq
        · exact absurd (hempty hstart q hq) hqne
        · rw [List.mem_singleton.mp hq]
          exact ⟨le_rfl, le_rfl⟩
      · have hle : blk.startKey ≤ p.key := hlo ▸ (hlast ql hql).le
        simp only [if_neg hstart, min_eq_left hle]
        refine ⟨⟨⟨ql, by simp [hql], hlo⟩, ⟨p, by simp, rfl⟩, fun q hq hqne => ?_⟩,
          fun h => absurd h hstart⟩
        rcases List.mem_append.mp hq with hq | hq
        · exact ⟨(hcov q hq hqne).1, (hlast q hq).le⟩
        · rw [List.mem_singleton.mp hq]
          exact ⟨hle, le_rfl⟩

/-! ## Headers that describe their block -/

/-- The header refers to a stored block by a non-empty hash and carries a range of it. -/
structure HeaderOk (S : BlockStore) (d : S.Disk) (h : BlockHeader) : Prop where
  /-- the search of a level uses the empty string for "no block" -/
  hash_ne : h.hash ≠ []
  /-- the range of the header is a range of the block -/
  ranged : Ranged h.minKey h.maxKey (contents S d h)

/-- The block of the header is stored with the given level field. -/
def StoredAt (S : BlockStore) (d : S.Disk) (level : Int) (h : BlockHeader) : Prop :=
  ∃ b, S.stored d h.hash = some b ∧ b.level = level

/-- A header is that of a block with pairs. -/
theorem HeaderOk.contents_ne {d : S.Disk} {h : BlockHeader} (hh : HeaderOk S d h) :
    contents S d h ≠ [] := by
  obtain ⟨p, hp, _⟩ := hh.ranged.lo_mem
  exact List.ne_nil_of_mem hp

/-- A header stays true while the disk keeps its block. -/
theorem HeaderOk.keeps {d d' : S.Disk} {h : BlockHeader} (hh : HeaderOk S d h)
    (hk : Keeps S.stored d d') : HeaderOk S d' h := by
  refine ⟨hh.hash_ne, ?_⟩
  rw [contents_keeps hk hh.contents_ne]
  exact hh.ranged

/-- A block stays stored at its level while the disk keeps it. -/
theorem StoredAt.keeps {d d' : S.Disk} {level : Int} {h : BlockHeader} (hh : StoredAt S d level h)
    (hk : Keeps S.stored d d') : StoredAt S d' level h := by
  obtain ⟨b, hb, hl⟩ := hh
  exact ⟨b, hk _ _ hb, hl⟩

/-- The blocks of the list are described by their headers. -/
def HeadersOk (S : BlockStore) (d : S.Disk) (hs : List BlockHeader) : Prop :=
  ∀ h ∈ hs, HeaderOk S d h

/-- Blocks with true headers are filled. -/
theorem HeadersOk.filled {d : S.Disk} {hs : List BlockHeader} (hh : HeadersOk S d hs) :
    Filled S d hs := fun h hm => (hh h hm).contents_ne

/-- Headers stay true while the disk keeps their blocks. -/
theorem HeadersOk.keeps {d d' : S.Disk} {hs : List BlockHeader} (hh : HeadersOk S d hs)
    (hk : Keeps S.stored d d') : HeadersOk S d' hs := fun h hm => (hh h hm).keeps hk

/-- The ranges of blocks in key order do not overlap. -/
theorem Below.maxKey_lt_minKey {d : S.Disk} {h h' : BlockHeader} (hb : Below S d h h')
    (hh : HeaderOk S d h) (hh' : HeaderOk S d h') : h.maxKey < h'.minKey := by
  obtain ⟨p, hp, hpk⟩ := hh.ranged.hi_mem
  obtain ⟨q, hq, hqk⟩ := hh'.ranged.lo_mem
  rw [← hpk, ← hqk]
  exact hb p hp q hq

/-- The lower ends of blocks in key order increase. -/
theorem Below.minKey_lt {d : S.Disk} {h h' : BlockHeader} (hb : Below S d h h')
    (hh : HeaderOk S d h) (hh' : HeaderOk S d h') : h.minKey < h'.minKey := by
  obtain ⟨p, hp, hpk⟩ := hh.ranged.lo_mem
  obtain ⟨q, hq, hqk⟩ := hh'.ranged.lo_mem
  rw [← hpk, ← hqk]
  exact hb p hp q hq

end Capsule.Interface
