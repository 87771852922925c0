import Capsule.Analysis.MergeSpec

/-!
# The merge of two lists of blocks as the merge of two maps

What `merge_spec` says in terms of a computed run is said here in terms of keys and payloads: a
sorted list of blocks is a finite map from keys to payloads, and the result of `merge` is the
union of two such maps (`MergedMap`), in blocks with proper headers (`ProperBlocks`).
-/

set_option autoImplicit false

namespace Capsule.Analysis

open Library Program Interface

variable {S : BlockStore} {d : S.Disk} {B : ℕ} {lvl : Int}

/-- The run `zs` is the union of the runs `xs` and `ys`; of two payloads with one key it has the one
with the larger timestamp, and that of `ys` when they are equal. -/
structure MergedMap (xs ys zs : List KvsPayload) : Prop where
  sorted : SortedRun zs
  /-- the keys are those of both runs -/
  keys : ∀ k, (∃ z ∈ zs, z.key = k) ↔ (∃ x ∈ xs, x.key = k) ∨ ∃ y ∈ ys, y.key = k
  /-- a key of the first run alone keeps its payload -/
  left : ∀ x ∈ xs, (∀ y ∈ ys, y.key ≠ x.key) → x ∈ zs
  /-- a key of the second run alone keeps its payload -/
  right : ∀ y ∈ ys, (∀ x ∈ xs, x.key ≠ y.key) → y ∈ zs
  /-- for a key of both the larger timestamp decides -/
  both : ∀ x ∈ xs, ∀ y ∈ ys, x.key = y.key →
    (if y.txn_timestamp < x.txn_timestamp then x else y) ∈ zs

/-- The blocks are full but for the last, are stored for the level, and have headers with their
first and last keys. -/
structure ProperBlocks (S : BlockStore) (d : S.Disk) (B : ℕ) (lvl : Int) (out : List BlockHeader) :
    Prop where
  full : ∀ h ∈ out.dropLast, (contents S d h).length = B
  size : ∀ h ∈ out, 1 ≤ (contents S d h).length ∧ (contents S d h).length ≤ B
  header : ∀ h ∈ out, ∃ b first last, S.stored d h.hash = some b ∧ b.level = lvl ∧
    b.kvPairs.head? = some first ∧ b.kvPairs.getLast? = some last ∧
    h.minKey = first.key ∧ h.maxKey = last.key

/-- **The merge of two runs is the union of the maps.** -/
theorem mergedMap_mergeRuns {xs ys : List KvsPayload} (hx : SortedRun xs) (hy : SortedRun ys) :
    MergedMap xs ys (mergeRuns xs ys) := by
  have hz : SortedRun (mergeRuns xs ys) := hx.mergeBy hy
  have hfind : ∀ k, find k (mergeRuns xs ys) =
      pick KvsPayload.txn_timestamp (find k xs) (find k ys) := lookup_mergeBy hx hy
  have hmem : ∀ z k, find k (mergeRuns xs ys) = some z → z ∈ mergeRuns xs ys :=
    fun z k h => lookup_mem h
  have hxs : ∀ x ∈ xs, find x.key xs = some x := fun x hxm =>
    (lookup_eq_some_iff hx).mpr ⟨hxm, rfl⟩
  have hys : ∀ y ∈ ys, find y.key ys = some y := fun y hym =>
    (lookup_eq_some_iff hy).mpr ⟨hym, rfl⟩
  refine ⟨hz, fun k => ⟨?_, ?_⟩, fun x hxm hno => ?_, fun y hym hno => ?_, fun x hxm y hym hk => ?_⟩
  · rintro ⟨z, hzm, rfl⟩
    exact (mem_mergeBy hzm).imp (fun h => ⟨z, h, rfl⟩) fun h => ⟨z, h, rfl⟩
  · -- the version of either run is in the merge, or one at least as new
    rintro (⟨x, hxm, rfl⟩ | ⟨y, hym, rfl⟩)
    · obtain ⟨z, hzk, -⟩ :=
        exists_pick_left KvsPayload.txn_timestamp (b := find x.key ys) (hxs x hxm)
      rw [← hfind] at hzk
      exact ⟨z, hmem z _ hzk, lookup_key hzk⟩
    · obtain ⟨z, hzk, -⟩ :=
        exists_pick_right KvsPayload.txn_timestamp (a := find y.key xs) (hys y hym)
      rw [← hfind] at hzk
      exact ⟨z, hmem z _ hzk, lookup_key hzk⟩
  · apply hmem x x.key
    have hnone : find x.key ys = none := lookup_eq_none_iff.mpr hno
    rw [hfind, hxs x hxm, hnone, pick_none_right]
  · apply hmem y y.key
    have hnone : find y.key xs = none := lookup_eq_none_iff.mpr hno
    rw [hfind, hys y hym, hnone, pick_none_left]
  · apply hmem _ x.key
    rw [hfind, hxs x hxm, hk, hys y hym, pick_some_some, newer]
    by_cases hlt : y.txn_timestamp < x.txn_timestamp
    · rw [if_pos hlt, if_neg (not_le.mpr hlt)]
    · rw [if_neg hlt, if_pos (not_lt.mp hlt)]

/-- A range without the empty key runs from the first key to the last. -/
theorem ends_of_ranged {lo hi : Str} {ps : List KvsPayload} (hr : Ranged lo hi ps)
    (hs : SortedRun ps) (hne : ∀ p ∈ ps, p.key ≠ []) :
    ∃ first last, ps.head? = some first ∧ ps.getLast? = some last ∧ lo = first.key ∧
      hi = last.key := by
  obtain ⟨pl, hpl, hlo⟩ := hr.lo_mem
  obtain ⟨ph, hph, hhi⟩ := hr.hi_mem
  have hps : ps ≠ [] := List.ne_nil_of_mem hpl
  refine ⟨ps.head hps, ps.getLast hps, List.head?_eq_some_head hps,
    List.getLast?_eq_some_getLast hps, ?_, ?_⟩
  · have hle := (hr.covers _ (List.head_mem hps) (hne _ (List.head_mem hps))).1
    apply le_antisymm hle
    obtain ⟨p, rest, rfl⟩ := List.exists_cons_of_ne_nil hps
    rw [← hlo]
    rcases List.mem_cons.mp hpl with rfl | hmem
    · exact le_rfl
    · exact ((List.pairwise_cons.mp hs).1 pl hmem).le
  · have hle := (hr.covers _ (List.getLast_mem hps) (hne _ (List.getLast_mem hps))).2
    refine le_antisymm ?_ hle
    obtain ⟨init, p, rfl⟩ := ps.eq_nil_or_concat'.resolve_left hps
    rw [← hhi, List.getLast_append_singleton]
    rcases List.mem_append.mp hph with hmem | hmem
    · exact ((List.pairwise_append.mp hs).2.2 ph hmem p (by simp)).le
    · rw [List.mem_singleton.mp hmem]

/-- **The blocks of a cut are proper**, where the payloads are a run without the empty key. -/
theorem Cut.properBlocks {out : List BlockHeader} {ps : List KvsPayload} (hc : Cut S d B lvl out ps)
    (hs : SortedRun ps) (hne : ∀ p ∈ ps, p.key ≠ []) : ProperBlocks S d B lvl out := by
  have hrun := sortedRun_runOf_iff.mp (hc.run_eq ▸ hs)
  refine ⟨fun h hh => ?_, fun h hh => hc.fullCut.size _ (List.mem_map_of_mem hh), fun h hh => ?_⟩
  · apply hc.fullCut.full _
    rw [← List.map_dropLast]
    exact List.mem_map_of_mem hh
  · have hfilled := hc.filled h hh
    have hkeys : ∀ p ∈ contents S d h, p.key ≠ [] := fun p hp =>
      hne p (hc.run_eq ▸ mem_runOf.mpr ⟨h, hh, hp⟩)
    obtain ⟨b, hb, hlvl⟩ := (hc.written h hh).storedAt
    have hranged := ((hc.written h hh).headerOk (hrun.1 h hh) hfilled).ranged
    obtain ⟨first, last, hends⟩ := ends_of_ranged hranged (hrun.1 h hh) hkeys
    rw [contents_of_stored hb] at hends
    exact ⟨b, first, last, hb, hlvl, hends⟩

/-- **`merge` is the merge of two sorted maps, cut into blocks.**  For non-empty stored blocks of
any sizes whose keys, along each of the two lists, are not empty and increase strictly, the blocks
written hold the union of the two maps, in the order of the keys; the only fault is that of the
block store. -/
theorem merge_eq_reference (hB : 1 ≤ B) (d : S.Disk) {a b : List BlockHeader} (ha : a ≠ [])
    (hfa : Filled S d a) (hfb : Filled S d b) (hsa : SortedRun (runOf S d a))
    (hsb : SortedRun (runOf S d b)) (hka : ∀ p ∈ runOf S d a, p.key ≠ [])
    (hkb : ∀ p ∈ runOf S d b, p.key ≠ []) (next_level : Int) :
    Outcome
      (fun out d' => MergedMap (runOf S d a) (runOf S d b) (runOf S d' out) ∧
        ProperBlocks S d' B next_level out)
      (fun e _ => e = .io) (merge B a b next_level d) := by
  refine (merge_spec hB ha hfa hfb next_level).mono ?_ fun _ _ he => he.1
  rintro out d' ⟨-, hc⟩
  have hmerged := mergedMap_mergeRuns hsa hsb
  refine ⟨hc.run_eq.symm ▸ hmerged, hc.properBlocks hmerged.sorted fun p hp => ?_⟩
  rcases mem_mergeBy hp with hp | hp
  · exact hka p hp
  · exact hkb p hp

/-- The block of the one-byte keys `ks`, written with timestamp `ts`. -/
def sampleBlock (ks : List UInt8) (ts : Int64) : CapsuleBlock :=
  blockOf 1 (ks.map fun k => ⟨[k], [], ts, []⟩)

/-- Blocks of two and of three entries that share a key. -/
def sampleDisk : memoryStore.Disk := [sampleBlock [97, 98] 1, sampleBlock [98, 99, 100] 2]

/-- The theorem at two blocks that share a key. -/
theorem merge_eq_reference_sample :
    Outcome
      (fun out d' =>
        MergedMap (runOf memoryStore sampleDisk [⟨[1], [97], [98]⟩])
          (runOf memoryStore sampleDisk [⟨[1, 1], [98], [100]⟩]) (runOf memoryStore d' out) ∧
        ProperBlocks memoryStore d' 2 1 out)
      (fun e _ => e = .io)
      (merge 2 [⟨[1], [97], [98]⟩] [⟨[1, 1], [98], [100]⟩] 1 sampleDisk) := by
  have ha : runOf memoryStore sampleDisk [⟨[1], [97], [98]⟩] = (sampleBlock [97, 98] 1).kvPairs :=
    rfl
  have hb : runOf memoryStore sampleDisk [⟨[1, 1], [98], [100]⟩] =
      (sampleBlock [98, 99, 100] 2).kvPairs := rfl
  refine merge_eq_reference (S := memoryStore) (B := 2) (by decide) sampleDisk (by decide) ?_ ?_
    ?_ ?_ ?_ ?_ 1
  · exact List.forall_mem_singleton.mpr (by decide)
  · exact List.forall_mem_singleton.mpr (by decide)
  · rw [ha]
    decide
  · rw [hb]
    decide
  · rw [ha]
    decide
  · rw [hb]
    decide

end Capsule.Analysis
