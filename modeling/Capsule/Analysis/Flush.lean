import Capsule.Analysis.Compact
import Capsule.Interface.EngineInvariant

/-!
# Making room in the memory table

`write_out_if_full` turns a full memory table into a block of L0, which may set off a compaction,
and empties the table when all that has gone well.  Seen by one key this is one of three things
(`Column.Reorg`): nothing, a flush into an empty L0, or a compaction whose source is the merge of
L0 and the memory table.  If it throws, the table is still there and the block may be in L0
(`Column.Fail`).
-/

set_option autoImplicit false

namespace Capsule.Analysis

open Library Program Interface

variable {S : BlockStore} {B : ℕ} {m : SortedMap Str KvsPayload} {l : Level}

/-! ## The block of the memory table -/

/-- The smallest of the keys, where it comes first. -/
theorem foldl_min_eq (es : List (Str × KvsPayload)) (k : Str) (h : ∀ e ∈ es, k ≤ e.1) :
    es.foldl (fun k e => min k e.1) k = k := by
  induction es with
  | nil => rfl
  | cons e es ih =>
    rw [List.foldl_cons, min_eq_left (h e (by simp))]
    exact ih fun f hf => h f (by simp [hf])

/-- The largest of the keys is one of them. -/
theorem foldl_max_mem (es : List (Str × KvsPayload)) (k : Str) :
    es.foldl (fun k e => max k e.1) k ∈ k :: es.map Prod.fst := by
  induction es generalizing k with
  | nil => simp
  | cons e es ih =>
    rw [List.foldl_cons]
    have h := ih (max k e.1)
    rcases List.mem_cons.mp h with h | h
    · rcases max_choice k e.1 with hm | hm <;> rw [h, hm] <;> simp
    · simp [h]

/-- The largest of the keys is no smaller than any of them. -/
theorem le_foldl_max (es : List (Str × KvsPayload)) (k : Str) :
    k ≤ es.foldl (fun k e => max k e.1) k ∧ ∀ e ∈ es, e.1 ≤ es.foldl (fun k e => max k e.1) k := by
  induction es generalizing k with
  | nil => simp
  | cons e es ih =>
    rw [List.foldl_cons]
    obtain ⟨hk, hes⟩ := ih (max k e.1)
    refine ⟨(le_max_left k e.1).trans hk, fun f hf => ?_⟩
    rcases List.mem_cons.mp hf with rfl | hf
    · exact (le_max_right k f.1).trans hk
    · exact hes f hf

/-- The block holds the payloads of the table, with a range of its own. -/
theorem toBlock_eq (first : Str) (entries : List (Str × KvsPayload)) :
    Memtable.toBlock first entries =
      ((blockOf 0 (entries.map Prod.snd)).setMinKey
        (entries.foldl (fun k e => min k e.1) first)).setMaxKey
        (entries.foldl (fun k e => max k e.1) first) := by
  rw [blockOf, List.foldl_map]
  rfl

/-- The first entry of the memory table has the smallest key. -/
theorem first_le {first : Str × KvsPayload} {rest : List (Str × KvsPayload)}
    (hes : m.entries = first :: rest) {e : Str × KvsPayload} (he : e ∈ m.entries) :
    first.1 ≤ e.1 := by
  have hs := m.sorted
  rw [hes] at hs he
  rcases List.mem_cons.mp he with rfl | he
  · exact le_rfl
  · exact ((List.pairwise_cons.mp hs).1 e he).le

/-- The block begins with the least key of the table, be it the empty one. -/
theorem startKey_toBlock_le (hm : Keyed m) {first : Str × KvsPayload}
    {rest : List (Str × KvsPayload)} (hes : m.entries = first :: rest) {p : KvsPayload}
    (hp : p ∈ m.values) : (Memtable.toBlock first.1 m.entries).startKey ≤ p.key := by
  simp only [toBlock_eq, CapsuleBlock.setMinKey, CapsuleBlock.setMaxKey,
    foldl_min_eq _ _ fun e he => first_le hes he]
  obtain ⟨e, he, rfl⟩ := List.mem_map.mp hp
  rw [hm e he]
  exact first_le hes he

/-- The range that `write_out_if_full` computes is a range of the block. -/
theorem ranged_toBlock (hm : Keyed m) {first : Str × KvsPayload} {rest : List (Str × KvsPayload)}
    (hes : m.entries = first :: rest) :
    Ranged (Memtable.toBlock first.1 m.entries).startKey (Memtable.toBlock first.1 m.entries).endKey
      m.values := by
  have hfirst : ∀ e ∈ m.entries, first.1 ≤ e.1 := fun e he => first_le hes he
  have hvalue : ∀ e ∈ m.entries, ∃ p ∈ m.values, p.key = e.1 := fun e he =>
    ⟨e.2, List.mem_map_of_mem he, hm e he⟩
  simp only [toBlock_eq, CapsuleBlock.setMinKey, CapsuleBlock.setMaxKey, foldl_min_eq _ _ hfirst]
  refine ⟨hvalue first (by simp [hes]), ?_, fun p hp _ => ?_⟩
  · rcases List.mem_cons.mp (foldl_max_mem m.entries first.1) with h | h
    · rw [h]
      exact hvalue first (by simp [hes])
    · obtain ⟨e, he, heq⟩ := List.mem_map.mp h
      rw [← heq]
      exact hvalue e he
  · obtain ⟨e, he, rfl⟩ := List.mem_map.mp hp
    rw [hm e he]
    exact ⟨hfirst e he, (le_foldl_max m.entries first.1).2 e he⟩

/-! ## The block joins L0 -/

/-- What both branches of `addBlock` do: the range of an empty level becomes that of the block, and
that of another level is extended. -/
theorem addBlock_spec (hindex : l.index = 0) (cb : CapsuleBlock) (hash : Str) :
    ∃ lo hi, (l.addBlock cb hash).1 =
      { l with
        numBlocks := l.numBlocks + 1
        min_key := lo
        max_key := hi
        recordHashes := l.recordHashes ++ [⟨hash, cb.startKey, cb.endKey⟩] } ∧
      (l.min_key = [] ∨ l.max_key = [] → lo = cb.startKey ∧ hi = cb.endKey) ∧
      (¬ (l.min_key = [] ∨ l.max_key = []) →
        lo = min l.min_key cb.startKey ∧ hi = max l.max_key cb.endKey) := by
  unfold Level.addBlock
  by_cases h : l.min_key = [] ∨ l.max_key = []
  · exact ⟨_, _, by rw [if_pos h], fun _ => ⟨rfl, rfl⟩, fun h' => absurd h h'⟩
  · exact ⟨_, _, by rw [if_neg h, if_pos hindex], fun h' => absurd h' h, fun _ => ⟨rfl, rfl⟩⟩

/-- The extended range covers all blocks, if none of them begins with the empty key. -/
theorem TopOk.covers_concat {d : S.Disk} (ht : TopOk S d B m l) {g : BlockHeader} {lo hi : Str}
    (hempty : l.min_key = [] ∨ l.max_key = [] → lo = g.minKey ∧ hi = g.maxKey)
    (hrange : ¬ (l.min_key = [] ∨ l.max_key = []) →
      lo = min l.min_key g.minKey ∧ hi = max l.max_key g.maxKey)
    (hall : ∀ h ∈ l.recordHashes ++ [g], h.minKey ≠ []) :
    lo ≠ [] ∧ ∀ h ∈ l.recordHashes ++ [g], lo ≤ h.minKey ∧ h.maxKey ≤ hi := by
  have hstart : g.minKey ≠ [] := hall g (by simp)
  by_cases hnil : l.recordHashes = []
  · obtain ⟨rfl, rfl⟩ := hempty (Or.inl (ht.min_key_of_nil hnil))
    refine ⟨hstart, ?_⟩
    intro h hh
    obtain rfl : h = g := by simpa [hnil] using hh
    exact ⟨le_rfl, le_rfl⟩
  · obtain ⟨hmin, hcov⟩ := ht.covers (fun h hh => hall h (by simp [hh])) hnil
    obtain ⟨f, hf⟩ := List.exists_mem_of_ne_nil _ hnil
    have hmax : l.max_key ≠ [] := by
      have hfne := (ht.headersOk f hf).ranged.hi_ne (hall f (by simp [hf]))
      have hle := (hcov f hf).2
      intro h
      rw [h] at hle
      exact hfne (le_antisymm hle (nil_le _))
    obtain ⟨rfl, rfl⟩ := hrange (by simp [hmin, hmax])
    refine ⟨?_, ?_⟩
    · rcases min_choice l.min_key g.minKey with h | h <;> simp only [h]
      · exact hmin
      · exact hstart
    · intro h hh
      rcases List.mem_append.mp hh with hh | hh
      · exact ⟨(min_le_left _ _).trans (hcov h hh).1, (hcov h hh).2.trans (le_max_left _ _)⟩
      · obtain rfl := List.mem_singleton.mp hh
        exact ⟨min_le_right _ _, le_max_right _ _⟩

/-- **L0 stays in order** when the full memory table joins it as its last block. -/
theorem TopOk.addBlock {d : S.Disk} (ht : TopOk S d B m l) (hm : Keyed m) (hfull : m.size = B)
    {cb : CapsuleBlock} (hr : Ranged cb.startKey cb.endKey m.values)
    (hle : ∀ {p}, p ∈ m.values → cb.startKey ≤ p.key) {hash : Str} (hne : hash ≠ [])
    {b : CapsuleBlock} (hb : S.stored d hash = some b) (hlvl : b.level = 0)
    (hkv : b.kvPairs = m.values) :
    TopOk S d B m (l.addBlock cb hash).1 ∧
      (l.addBlock cb hash).1.recordHashes = l.recordHashes ++ [⟨hash, cb.startKey, cb.endKey⟩] := by
  obtain ⟨lo, hi, heq, hempty, hrange⟩ := addBlock_spec ht.index_eq cb hash
  rw [heq]
  have hc : contents S d ⟨hash, cb.startKey, cb.endKey⟩ = m.values := by
    rw [contents_of_stored (h := ⟨hash, cb.startKey, cb.endKey⟩) hb, hkv]
  have hmem : ∀ h ∈ l.recordHashes ++ [⟨hash, cb.startKey, cb.endKey⟩],
      h ∈ l.recordHashes ∨ h = ⟨hash, cb.startKey, cb.endKey⟩ := by simp
  refine ⟨⟨ht.index_eq, ?_, ht.maxSize_eq, ht.maxSize_lt, fun h hh => ?_, fun h hh => ?_,
    fun h hh => ?_, fun h hh => ?_, fun h1 => ?_,
    fun hall _ => TopOk.covers_concat ht (g := ⟨hash, cb.startKey, cb.endKey⟩) hempty hrange hall,
    fun h hh p hp => ?_, fun _ => hfull, fun h hh p hp => ?_⟩, rfl⟩
  · simp [ht.numBlocks_eq]
  · rcases hmem h hh with hh | rfl
    · exact ht.headersOk h hh
    · exact ⟨hne, by rw [hc]; exact hr⟩
  · rcases hmem h hh with hh | rfl
    · exact ht.storedAt h hh
    · exact ⟨b, hb, hlvl⟩
  · rcases hmem h hh with hh | rfl
    · exact ht.sorted h hh
    · rw [hc]
      exact sortedRun_values hm
  · rcases hmem h hh with hh | rfl
    · exact ht.size_eq h hh
    · rw [hc, length_values, hfull]
  · -- the only block: L0 was empty, and so was its range
    have hnil : l.recordHashes = [] := by
      simpa using h1
    obtain ⟨rfl, rfl⟩ := hempty (Or.inl (ht.min_key_of_nil hnil))
    simp [Level.setBlocks, hnil, ht.numBlocks_eq]
  · by_cases hnil : l.recordHashes = []
    · simp [hnil] at hh
    · rw [List.tail_append_of_ne_nil hnil] at hh
      rcases List.mem_append.mp hh with hh | hh
      · exact ht.shadowed h hh p hp
      · rw [List.mem_singleton.mp hh, hc] at hp
        exact isSome_of_mem_values hm hp
  · rcases hmem h hh with hh | rfl
    · exact ht.minKey_le h hh p hp
    · exact hle (hc ▸ hp)

/-! ## The index takes the block -/

variable {s s' : IndexState S} {k : Str}

/-- The version of the key `k` that each level hands down when the memory table `m` is written
out and L0 compacted. -/
def handedOnFlush (B : ℕ) (m : SortedMap Str KvsPayload) (s : IndexState S) (k : Str) :
    ℕ → Option KvsPayload :=
  handedVersion s (handedByCompact B ((headersAt s 0).map (contents S s.disk) ++ [m.values])
    s.index.levels) k

/-- Nothing that is handed down changes while the disk only gains blocks. -/
theorem handedOnFlush_keeps {d' : S.Disk} (hs : IndexOk S B s)
    (hf : Filled S s.disk (headersAt s 0))
    (hk : Keeps S.stored s.disk d') :
    handedOnFlush B m { s with disk := d' } k = handedOnFlush B m s k := by
  unfold handedOnFlush
  rw [headersAt_disk, map_contents_keeps hk hf]
  funext i
  refine congrArg (find k) (runOf_keeps hk fun h hh => ?_)
  obtain ⟨l, hl, hmem⟩ := handedDown_subset hh
  rw [List.getElem?_drop] at hl
  exact (hs.levelOk (1 + i) l (Nat.le_add_right 1 i) hl).headersOk.filled h hmem

/-- What the index makes of the block of a full memory table. -/
structure Taken (S : BlockStore) (B : ℕ) (m : SortedMap Str KvsPayload) (s s' : IndexState S) :
    Prop where
  indexOk : IndexOk S B s'
  keeps : Keeps S.stored s.disk s'.disk
  /-- at most one level is added -/
  length_le : s'.index.levels.length ≤ s.index.levels.length + 1
  /-- a level is added below a crowded one only -/
  grown : s.index.levels.length < s'.index.levels.length → Crowded s
  /-- L0 has one block at most, and is in order without the memory table -/
  top : ∃ l', s'.index.levels[0]? = some l' ∧ l'.recordHashes.length ≤ 1 ∧
    ∀ m', TopOk S s'.disk B m' l'
  /-- every key sees a flush or a compaction -/
  reorg : ∀ k, Column.Reorg KvsPayload.txn_timestamp (columnOf (m.find? k) s k) (columnOf none s' k)
  /-- with a block in L0 it is a compaction -/
  compacted : headersAt s 0 ≠ [] → ∀ k, Column.Cascaded KvsPayload.txn_timestamp
    (handedOnFlush B m s k) (columnOf (m.find? k) s k) (columnOf none s' k)
  /-- the block stays in L0 if it is the only one -/
  blocks : (headersAt s' 0).length = if headersAt s 0 = [] then 1 else 0
  /-- no level below L0 is left without blocks -/
  stocked : StockedFrom 1 s → StockedFrom 1 s'
  /-- into an empty L0 there is no compaction, and no key sees a change -/
  quiet : headersAt s 0 = [] → ∀ k, (columnOf none s' k).top = (columnOf (m.find? k) s k).top

/-- How the index may fail to take the block. -/
def TakeFault (S : BlockStore) (B : ℕ) (m : SortedMap Str KvsPayload) (s : IndexState S) (e : Fault)
    (s' : IndexState S) : Prop :=
  (e = .overflow ∧ Cramped B s) ∨ (e = .io ∧ IndexOk S B s' ∧ Keeps S.stored s.disk s'.disk ∧
    (∃ l', s'.index.levels[0]? = some l' ∧ TopOk S s'.disk B m l') ∧
    ∀ k,
      Column.Fail KvsPayload.txn_timestamp (columnOf (m.find? k) s k) (columnOf (m.find? k) s' k))

/-- What a compaction does to the levels is a cascade of every column. -/
theorem cascaded_of_pushed {run : List KvsPayload} {hand : ℕ → List BlockHeader}
    (hp : Pushed S 1 run hand s s') (hs' : headersAt s' 0 = [])
    (hrun : find k run = (columnOf (m.find? k) s k).source KvsPayload.txn_timestamp) :
    Column.Cascaded KvsPayload.txn_timestamp (handedVersion s hand k)
      (columnOf (m.find? k) s k) (columnOf none s' k) := by
  obtain ⟨keep, hsp, heq⟩ := hp k
  refine ⟨keep, hsp, ?_⟩
  rw [columnOf, hs', List.map_nil, ← hrun]
  congr 1
  exact funext heq

/-- A block that has joined L0 without a compaction is a copy of the memory table. -/
theorem fail_of_pushed {hand : ℕ → List BlockHeader} (hp : Pushed S 1 [] hand s s')
    (hl0 : (columnOf (m.find? k) s' k).l0 = (columnOf (m.find? k) s k).l0 ++ [m.find? k]) :
    Column.Fail KvsPayload.txn_timestamp (columnOf (m.find? k) s k)
      (columnOf (m.find? k) s' k) := by
  obtain ⟨keep, hsp, heq⟩ := hp k
  have hcol : columnOf (m.find? k) s' k = ⟨(columnOf (m.find? k) s k).mem,
      (columnOf (m.find? k) s k).l0 ++ [(columnOf (m.find? k) s k).mem],
      cascade KvsPayload.txn_timestamp none (handedVersion s hand k) keep⟩ := by
    rw [show (columnOf (m.find? k) s k).mem = m.find? k from rfl, ← hl0]
    unfold columnOf
    congr 1
    exact funext heq
  rw [hcol]
  exact Column.Fail.intro (Or.inr rfl) hsp

/-- Compaction does nothing while L0 has one block. -/
theorem compact_of_one {d : S.Disk} (hB : 1 ≤ B) (hs : IndexOk S B s)
    (hl : s.index.levels[0]? = some l)
    (ht : TopOk S d B m l) (hone : l.recordHashes.length = 1) : compact s = .ok () s := by
  have hroom : B * l.numBlocks < toSizeT l.maxSize := by
    rw [ht.numBlocks_eq, ht.toSizeT_maxSize, hone]
    omega
  have h : Outcome (fun _ s' => s' = s) (fun _ _ => False) (compact s) := by
    unfold compact
    refine Outcome.get_bind (levelAt_bind hl ?_)
    rw [hs.blocksize_eq, if_pos hroom]
    exact Outcome.pure rfl
  cases hc : compact s with
  | ok a s' => rw [h.of_ok hc]
  | error e s' => exact (h.of_error hc).elim

/-- The level `l₁` is L0 `l` with the full memory table as its last block. -/
structure Joined (S : BlockStore) (B : ℕ) (m : SortedMap Str KvsPayload) (s : IndexState S)
    (l l₁ : Level) : Prop where
  indexOk : IndexOk S B s
  level : s.index.levels[0]? = some l
  keyed : Keyed m
  topOk : TopOk S s.disk B m l₁
  blocks : ∃ g, l₁.recordHashes = l.recordHashes ++ [g] ∧ contents S s.disk g = m.values

namespace Joined

variable {l₁ : Level}

/-- The index with the new block in L0 is well formed. -/
theorem indexOk_put (h : Joined S B m s l l₁) : IndexOk S B (s.putLevel 0 l₁) :=
  h.indexOk.putLevel fun hpos => absurd hpos (by omega)

/-- L0 of the index with the new block. -/
theorem top (h : Joined S B m s l l₁) : (s.putLevel 0 l₁).index.levels[0]? = some l₁ := by
  simp [IndexState.putLevel, h.indexOk.levels_pos]

/-- The new block does not change the levels below. -/
theorem levelRun_eq (h : Joined S B m s l l₁) (i : ℕ) (hi : 1 ≤ i) :
    levelRun (s.putLevel 0 l₁) i = levelRun s i :=
  levelRun_putLevel_zero hi h.indexOk.levels_pos l₁

/-- The column of L0 has gained the memory table. -/
theorem map_find (h : Joined S B m s l l₁) (k : Str) :
    (l₁.recordHashes.map fun g => find k (contents S s.disk g)) =
      (columnOf (m.find? k) s k).l0 ++ [m.find? k] := by
  obtain ⟨g, hhs, hg⟩ := h.blocks
  rw [hhs, List.map_append, List.map_singleton, hg, find_values h.keyed, columnOf,
    headersAt_eq h.level]

/-- The number of levels stays. -/
theorem levels_length (s : IndexState S) (l : Level) :
    (s.putLevel 0 l).index.levels.length = s.index.levels.length := by
  simp [IndexState.putLevel]

/-- The new block does not change the headers of the levels below. -/
theorem headersAt_put (h : Joined S B m s l l₁) (i : ℕ) (hi : 1 ≤ i) :
    headersAt (s.putLevel 0 l₁) i = headersAt s i := by
  rw [headersAt_putLevel h.indexOk.levels_pos, if_neg (by omega)]

/-- **The block is the only one of L0**: nothing is compacted. -/
theorem taken_of_nil (h : Joined S B m s l l₁) (hB : 1 ≤ B) (hnil : l.recordHashes = []) :
    Outcome (fun _ s' => Taken S B m s s') (fun _ _ => False) (compact (s.putLevel 0 l₁)) := by
  obtain ⟨g, hhs, -⟩ := h.blocks
  rw [hnil, List.nil_append] at hhs
  have hone : l₁.recordHashes.length = 1 := by rw [hhs, List.length_singleton]
  rw [compact_of_one hB h.indexOk_put h.top h.topOk hone]
  have hempty : ∀ k, (columnOf (m.find? k) s k).l0 = [] := by
    intro k
    rw [columnOf, headersAt_eq h.level, hnil, List.map_nil]
  have hcol : ∀ k, columnOf none (s.putLevel 0 l₁) k =
      { columnOf (m.find? k) s k with mem := none, l0 := [(columnOf (m.find? k) s k).mem] } := by
    intro k
    rw [columnOf, headersAt_eq h.top]
    congr 1
    · exact (h.map_find k).trans (by rw [hempty k]; rfl)
    · funext i
      rw [h.levelRun_eq _ (by omega)]
      rfl
  have hlen := levels_length s l₁
  have hempty₀ : headersAt s 0 = [] := by rw [headersAt_eq h.level, hnil]
  refine ⟨h.indexOk_put, keeps_refl _, by omega, fun hlt => absurd hlt (by omega),
    ⟨l₁, h.top, hone.le, fun m' => h.topOk.of_tail_nil (by rw [hhs]; rfl)⟩, fun k => ?_,
    fun hne => absurd hempty₀ hne, ?_, fun hst => hst.congr hlen h.headersAt_put, fun _ k => ?_⟩
  · rw [hcol k]
    exact Column.Reorg.flush (hempty k)
  · rw [headersAt_eq h.top, hone, if_pos hempty₀]
  · rw [hcol k]
    exact Column.top_flush (hempty k)

/-- A compaction of the joined L0, seen by one key. -/
theorem cascaded (h : Joined S B m s l l₁) {l' : Level}
    (hcomp : Compacted S B (mergedRun (l₁.recordHashes.map (contents S s.disk)))
      (handedByCompact B (l₁.recordHashes.map (contents S s.disk))
        (s.putLevel 0 l₁).index.levels) (s.putLevel 0 l₁) s' (l'.setBlocks [])) (k : Str) :
    Column.Cascaded KvsPayload.txn_timestamp (handedOnFlush B m s k) (columnOf (m.find? k) s k)
      (columnOf none s' k) := by
  obtain ⟨g, hhs, hg⟩ := h.blocks
  have hruns : l₁.recordHashes.map (contents S s.disk) =
      (headersAt s 0).map (contents S s.disk) ++ [m.values] := by
    rw [hhs, List.map_append, List.map_singleton, hg, headersAt_eq h.level]
  have hplan : handedByCompact B (l₁.recordHashes.map (contents S s.disk))
      (s.putLevel 0 l₁).index.levels = handedByCompact B
        ((headersAt s 0).map (contents S s.disk) ++ [m.values]) s.index.levels := by
    rw [hruns]
    simp [handedByCompact, IndexState.putLevel, List.drop_set]
  rw [handedOnFlush, ← hplan]
  refine cascaded_of_pushed (hcomp.pushed.congr (fun _ => rfl) h.levelRun_eq fun _ _ => rfl) ?_ ?_
  · rw [headersAt_eq hcomp.top]
    rfl
  · -- the source is the merge of L0 and the memory table
    have hsorted : ∀ r ∈ l₁.recordHashes.map (contents S s.disk), SortedRun r := by
      simpa using h.topOk.sorted
    have hfind := find_mergedRun hsorted k
    rw [List.map_map] at hfind
    exact hfind.trans (congrArg _ (h.map_find k))

/-- **The block joins another one**: L0 is compacted. -/
theorem taken_of_ne_nil (h : Joined S B m s l l₁) (hB : 1 ≤ B) (hne : l.recordHashes ≠ []) :
    Outcome (fun _ s' => Taken S B m s s') (TakeFault S B m s) (compact (s.putLevel 0 l₁)) := by
  have htwo : l₁.recordHashes.tail ≠ [] := by
    obtain ⟨g, hhs, -⟩ := h.blocks
    rw [hhs, List.tail_append_of_ne_nil hne]
    simp
  apply (compact_spec hB h.indexOk_put h.top h.topOk htwo).mono
  · rintro - s' ⟨l', hcomp, ht', hstocked⟩
    have hlen := levels_length s l₁
    have hcascaded := h.cascaded hcomp
    have hne₀ : headersAt s 0 ≠ [] := by rwa [headersAt_eq h.level]
    refine ⟨hcomp.indexOk, hcomp.keeps, hlen ▸ hcomp.length_le,
      fun hlt => (hcomp.grown (hlen ▸ hlt)).congr hlen h.headersAt_put,
      ⟨_, hcomp.top, by simp [Level.setBlocks], fun m' => ht'.cleared⟩,
      fun k => (hcascaded k).reorg, fun _ => hcascaded, ?_,
      fun hst => hstocked (hst.congr hlen h.headersAt_put), fun he => absurd he hne₀⟩
    rw [headersAt_eq hcomp.top, if_neg hne₀]
    rfl
  · rintro e s' (⟨he, hcramped⟩ | ⟨he, hs', hand, hrw, hcomp⟩)
    · exact Or.inl ⟨he, hcramped.congr (levels_length s l₁) h.headersAt_put⟩
    · refine Or.inr ⟨he, hcomp.indexOk, hcomp.keeps, ⟨_, hcomp.top, h.topOk.rewritten hrw⟩, ?_⟩
      intro k
      refine fail_of_pushed (hcomp.pushed.congr (fun _ => rfl) h.levelRun_eq fun _ _ => rfl) ?_
      rw [← h.map_find k, columnOf, headersAt_eq hcomp.top]
      exact hrw.map_find k

end Joined

/-- **The index takes the block of a full memory table.** -/
theorem addHash_spec (hB : 1 ≤ B) (hs : IndexOk S B s) (hl : s.index.levels[0]? = some l)
    (ht : TopOk S s.disk B m l) (hm : Keyed m) (hfull : m.size = B) {cb : CapsuleBlock}
    (hr : Ranged cb.startKey cb.endKey m.values) (hle : ∀ {p}, p ∈ m.values → cb.startKey ≤ p.key)
    {hash : Str} (hne : hash ≠ []) {b : CapsuleBlock}
    (hb : S.stored s.disk hash = some b) (hlvl : b.level = 0) (hkv : b.kvPairs = m.values) :
    Outcome (fun _ s' => Taken S B m s s') (TakeFault S B m s) (addHash 0 hash cb s) := by
  have hadd := TopOk.addBlock ht hm hfull hr hle hne hb hlvl hkv
  have hc : contents S s.disk ⟨hash, cb.startKey, cb.endKey⟩ = m.values := by
    rw [contents_of_stored (h := ⟨hash, cb.startKey, cb.endKey⟩) hb, hkv]
  have hpos := hs.levels_pos
  have hnum : ¬ 0 ≥ s.index.numLevels := by
    rw [hs.numLevels_eq]
    omega
  unfold addHash
  apply Outcome.get_bind
  rw [if_neg hnum]
  apply levelAt_bind hl
  revert hadd
  rcases l.addBlock cb hash with ⟨l₁, status⟩
  rintro ⟨ht₁, hhs₁⟩
  apply Outcome.modify_bind
  have hj : Joined S B m s l l₁ := ⟨hs, hl, hm, ht₁, _, hhs₁, hc⟩
  by_cases hnil : l.recordHashes = []
  · exact (hj.taken_of_nil hB hnil).bind (fun _ _ he => he.elim) fun _ _ h => h
  · exact (hj.taken_of_ne_nil hB hnil).bind (fun _ _ he => he) fun _ _ h => h

end Capsule.Analysis
