import Capsule.Interface.LevelInvariant

/-!
# The invariant of L0

L0 holds the blocks that the memory table was written out to, oldest first.  After a run without
faults there is at most one.  A compaction that throws leaves the last one behind, while the table
itself stays full; from then on every further block is a copy of some of the table, which readers
look at first (`shadowed`, `full`).

The range of L0 is kept by `addBlock`, which takes the empty string for "no range yet".  It is the
range of the block when there is just one, and covers all blocks as long as no block begins with
the empty key.
-/

set_option autoImplicit false

namespace Capsule.Interface

open Library Program

variable {S : BlockStore} {d d' : S.Disk} {B : ℕ} {m : SortedMap Str KvsPayload} {l : Level}

/-- The invariant of L0 beside the memory table `m`. -/
structure TopOk (S : BlockStore) (d : S.Disk) (B : ℕ) (m : SortedMap Str KvsPayload) (l : Level) :
    Prop where
  index_eq : l.index = 0
  /-- the number of blocks is kept right -/
  numBlocks_eq : l.numBlocks = l.recordHashes.length
  /-- the capacity is that of two blocks -/
  maxSize_eq : l.maxSize = (2 * B : ℕ)
  /-- the capacity fits into an `int` -/
  maxSize_lt : 2 * B < 2 ^ 31
  /-- the headers describe the blocks -/
  headersOk : HeadersOk S d l.recordHashes
  /-- the blocks are stored for this level -/
  storedAt : ∀ h ∈ l.recordHashes, StoredAt S d 0 h
  /-- the pairs of each block are in key order -/
  sorted : ∀ h ∈ l.recordHashes, SortedRun (contents S d h)
  /-- each block is full -/
  size_eq : ∀ h ∈ l.recordHashes, (contents S d h).length = B
  /-- with at most one block the range is that of the block -/
  range_eq : l.recordHashes.length ≤ 1 → l.setBlocks l.recordHashes = l
  /-- without the empty key the range covers all blocks -/
  covers : (∀ h ∈ l.recordHashes, h.minKey ≠ []) → l.recordHashes ≠ [] →
    l.min_key ≠ [] ∧ ∀ h ∈ l.recordHashes, l.min_key ≤ h.minKey ∧ h.maxKey ≤ l.max_key
  /-- the memory table has every key of the blocks after the first -/
  shadowed : ∀ h ∈ l.recordHashes.tail, ∀ p ∈ contents S d h, (m.find? p.key).isSome
  /-- with more than one block the memory table is full -/
  full : l.recordHashes.tail ≠ [] → m.size = B
  /-- the lower end of a range is the least key, be it the empty one -/
  minKey_le : ∀ h ∈ l.recordHashes, ∀ p ∈ contents S d h, h.minKey ≤ p.key

/-- The blocks of L0 can all be read and are not empty. -/
theorem TopOk.filled (ht : TopOk S d B m l) : Filled S d l.recordHashes := ht.headersOk.filled

/-- The capacity of L0 is not negative, so that a `size_t` holds it as it is. -/
theorem TopOk.toSizeT_maxSize (ht : TopOk S d B m l) : toSizeT l.maxSize = 2 * B := by
  rw [ht.maxSize_eq]
  have := ht.maxSize_lt
  exact toSizeT_natCast (by omega)

/-- An empty L0 has no smallest key. -/
theorem TopOk.min_key_of_nil (ht : TopOk S d B m l) (h : l.recordHashes = []) : l.min_key = [] := by
  rw [← ht.range_eq (by simp [h]), h]
  rfl

/-! ## Rewriting the blocks -/

/-- What readers and compaction use of a block of L0: its range and its pairs. -/
def profile (S : BlockStore) (d : S.Disk) (h : BlockHeader) : Str × Str × List KvsPayload :=
  (h.minKey, h.maxKey, contents S d h)

/-- The blocks `hs'` on the disk `d'` are those of `hs` on the disk `d`, written anew or not. -/
structure Rewritten (S : BlockStore) (d : S.Disk) (hs : List BlockHeader) (d' : S.Disk)
    (hs' : List BlockHeader) : Prop where
  keeps : Keeps S.stored d d'
  profiles : hs'.map (profile S d') = hs.map (profile S d)
  hash_ne : ∀ h ∈ hs', h.hash ≠ []
  storedAt : ∀ h ∈ hs', StoredAt S d' 0 h

namespace Rewritten

variable {hs hs' hs'' : List BlockHeader} {d'' : S.Disk}

/-- Blocks that the disk keeps count as rewritten. -/
theorem of_keeps (hk : Keeps S.stored d d') (hok : HeadersOk S d hs)
    (hst : ∀ h ∈ hs, StoredAt S d 0 h) : Rewritten S d hs d' hs := by
  refine ⟨hk, List.map_congr_left fun h hh => ?_, fun h hh => (hok h hh).hash_ne,
    fun h hh => (hst h hh).keeps hk⟩
  rw [profile, profile, contents_keeps hk (hok h hh).contents_ne]

/-- Blocks that are rewritten twice are rewritten. -/
theorem trans (h : Rewritten S d hs d' hs') (h' : Rewritten S d' hs' d'' hs'') :
    Rewritten S d hs d'' hs'' :=
  ⟨keeps_trans h.keeps h'.keeps, h'.profiles.trans h.profiles, h'.hash_ne, h'.storedAt⟩

/-- Rewriting keeps the number of blocks. -/
theorem length_eq (h : Rewritten S d hs d' hs') : hs'.length = hs.length := by
  simpa using congrArg List.length h.profiles

/-- Rewriting keeps the pairs of every block. -/
theorem map_contents (h : Rewritten S d hs d' hs') :
    hs'.map (contents S d') = hs.map (contents S d) := by
  have := congrArg (List.map fun x : Str × Str × List KvsPayload => x.2.2) h.profiles
  simpa [profile, Function.comp_def] using this

/-- Rewriting keeps what a lookup finds in every block. -/
theorem map_find (h : Rewritten S d hs d' hs') (k : Str) :
    (hs'.map fun g => find k (contents S d' g)) = hs.map fun g => find k (contents S d g) := by
  have := congrArg (List.map (find k)) h.map_contents
  simpa [Function.comp_def] using this

/-- Every new block has the profile of an old one. -/
theorem exists_old (h : Rewritten S d hs d' hs') {g : BlockHeader} (hg : g ∈ hs') :
    ∃ g₀ ∈ hs, g.minKey = g₀.minKey ∧ g.maxKey = g₀.maxKey ∧ contents S d' g = contents S d g₀ := by
  have hmem : profile S d' g ∈ hs.map (profile S d) := h.profiles ▸ List.mem_map_of_mem hg
  obtain ⟨g₀, hg₀, heq⟩ := List.mem_map.mp hmem
  simp only [profile, Prod.mk.injEq] at heq
  exact ⟨g₀, hg₀, heq.1.symm, heq.2.1.symm, heq.2.2.symm⟩

/-- The blocks after the first are rewrites of the blocks after the first. -/
theorem tail (h : Rewritten S d hs d' hs') : Rewritten S d hs.tail d' hs'.tail := by
  refine ⟨h.keeps, ?_, fun g hg => h.hash_ne g (List.mem_of_mem_tail hg),
    fun g hg => h.storedAt g (List.mem_of_mem_tail hg)⟩
  rw [List.map_tail, List.map_tail, h.profiles]

/-- Rewriting keeps the headers true. -/
theorem headersOk (h : Rewritten S d hs d' hs') (hok : HeadersOk S d hs) : HeadersOk S d' hs' := by
  intro g hg
  obtain ⟨g₀, hg₀, hmin, hmax, hc⟩ := h.exists_old hg
  refine ⟨h.hash_ne g hg, ?_⟩
  rw [hmin, hmax, hc]
  exact (hok g₀ hg₀).ranged

end Rewritten

/-- **L0 stays in order when its blocks are rewritten.** -/
theorem TopOk.rewritten (ht : TopOk S d B m l) {hs' : List BlockHeader}
    (h : Rewritten S d l.recordHashes d' hs') : TopOk S d' B m { l with recordHashes := hs' } := by
  have hlen := h.length_eq
  have hnil : hs' = [] ↔ l.recordHashes = [] := by
    rw [← List.length_eq_zero_iff, ← List.length_eq_zero_iff, hlen]
  refine ⟨ht.index_eq, hlen ▸ ht.numBlocks_eq, ht.maxSize_eq, ht.maxSize_lt,
    h.headersOk ht.headersOk, h.storedAt, fun g hg => ?_, fun g hg => ?_, fun h1 => ?_,
    fun hne hnn => ?_, fun g hg p hp => ?_, fun hne => ?_, fun g hg p hp => ?_⟩
  · obtain ⟨g₀, hg₀, -, -, hc⟩ := h.exists_old hg
    rw [hc]
    exact ht.sorted g₀ hg₀
  · obtain ⟨g₀, hg₀, -, -, hc⟩ := h.exists_old hg
    rw [hc]
    exact ht.size_eq g₀ hg₀
  · -- the range of the only block is the same
    have hold := ht.range_eq (hlen ▸ h1)
    have hheads : (hs'.map (profile S d')).head? = (l.recordHashes.map (profile S d)).head? := by
      rw [h.profiles]
    have hlasts :
        (hs'.map (profile S d')).getLast? = (l.recordHashes.map (profile S d)).getLast? := by
      rw [h.profiles]
    rw [List.head?_map, List.head?_map] at hheads
    rw [List.getLast?_map, List.getLast?_map] at hlasts
    have hmin : l.min_key = (l.setBlocks l.recordHashes).min_key := by rw [hold]
    have hmax : l.max_key = (l.setBlocks l.recordHashes).max_key := by rw [hold]
    have hnum := ht.numBlocks_eq
    simp only [Level.setBlocks, Level.mk.injEq, true_and] at hmin hmax ⊢
    refine ⟨hlen.trans hnum.symm, ?_, ?_⟩
    · rw [hmin]
      cases hh' : hs'.head? <;> cases hh : l.recordHashes.head? <;> simp_all [profile]
    · rw [hmax]
      cases hh' : hs'.getLast? <;> cases hh : l.recordHashes.getLast? <;> simp_all [profile]
  · have hne₀ : ∀ g₀ ∈ l.recordHashes, g₀.minKey ≠ [] := fun g₀ hg₀ => by
      have hmem : profile S d g₀ ∈ hs'.map (profile S d') := by
        rw [h.profiles]
        exact List.mem_map_of_mem hg₀
      obtain ⟨g, hg, heq⟩ := List.mem_map.mp hmem
      simp only [profile, Prod.mk.injEq] at heq
      exact heq.1 ▸ hne g hg
    obtain ⟨hmin, hcov⟩ := ht.covers hne₀ fun hn => hnn (hnil.mpr hn)
    refine ⟨hmin, fun g hg => ?_⟩
    obtain ⟨g₀, hg₀, hming, hmaxg, -⟩ := h.exists_old hg
    rw [hming, hmaxg]
    exact hcov g₀ hg₀
  · obtain ⟨g₀, hg₀, -, -, hc⟩ := h.tail.exists_old hg
    exact ht.shadowed g₀ hg₀ p (hc ▸ hp)
  · apply ht.full
    rw [Ne, ← List.length_eq_zero_iff] at hne ⊢
    rwa [← h.tail.length_eq]
  · obtain ⟨g₀, hg₀, hmin, -, hc⟩ := h.exists_old hg
    rw [hmin]
    exact ht.minKey_le g₀ hg₀ p (hc ▸ hp)

/-- L0 stays well formed while the disk keeps its blocks. -/
theorem TopOk.keeps (ht : TopOk S d B m l) (hk : Keeps S.stored d d') : TopOk S d' B m l :=
  ht.rewritten (Rewritten.of_keeps hk ht.headersOk ht.storedAt)

/-- L0 without blocks is in order, beside any memory table. -/
theorem TopOk.cleared {m' : SortedMap Str KvsPayload} (ht : TopOk S d B m l) :
    TopOk S d' B m' (l.setBlocks []) := by
  refine ⟨ht.index_eq, rfl, ht.maxSize_eq, ht.maxSize_lt, ?_, ?_, ?_, ?_, fun _ => rfl, ?_, ?_, ?_,
    ?_⟩ <;>
    simp [Level.setBlocks, HeadersOk]

/-- A memory table that has more of the keys hides L0 as well, unless L0 needs it full. -/
theorem TopOk.memtable {m' : SortedMap Str KvsPayload} (ht : TopOk S d B m l)
    (hkeys : ∀ k, (m.find? k).isSome → (m'.find? k).isSome)
    (hsize : l.recordHashes.tail ≠ [] → m'.size = B) : TopOk S d B m' l :=
  { ht with
    shadowed := fun h hh p hp => hkeys p.key (ht.shadowed h hh p hp)
    full := hsize }

/-- L0 with at most one block is in order beside any memory table. -/
theorem TopOk.of_tail_nil {m' : SortedMap Str KvsPayload} (ht : TopOk S d B m l)
    (h : l.recordHashes.tail = []) : TopOk S d B m' l :=
  { ht with
    shadowed := fun g hg => by simp [h] at hg
    full := fun hne => absurd h hne }

end Capsule.Interface
