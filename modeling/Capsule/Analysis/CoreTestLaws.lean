import Capsule.Analysis.Sessions
import Capsule.Analysis.Depth
import Capsule.Program.CoreTest

/-!
# The test of the core succeeds

Whatever the bound, the size of the memory table and the clock, every number that the test puts is
found (`core_test_finds_all`): its keys are different, so that no timestamp is ever compared, and
what a get finds of a key is what was put under it.

The statistics at the end read the first block of every level.  The levels below L0 always have one;
L0 has one exactly if the memory table has been written out an odd number of times (`Fed`).
-/

set_option autoImplicit false

namespace Capsule.Analysis

open Library Program Interface CoreTest

variable {S : BlockStore} {B : ℕ} {d : S.Disk} {w w' : World S} {ps : List KvsPayload}

/-! ## The map of the test -/

/-- The map after the numbers were put. -/
def testMap (is : List ℕ) (m : SortedMap Str Str) : SortedMap Str Str :=
  is.foldl (fun m (i : ℕ) => insertNew m (stdToString i) (stdToString i)) m

/-- The loop puts the numbers and keeps them in the map. -/
theorem putNumbers_eq (clock : ℕ → Int64) (is : List ℕ) (m : SortedMap Str Str) :
    (putNumbers clock is m : EngineM S (SortedMap Str Str)) =
      CapsuleDB.puts (is.map fun i => kvs i (clock i)) >>= fun _ => pure (testMap is m) := by
  induction is generalizing m with
  | nil => rfl
  | cons i is ih =>
    rw [putNumbers, List.map_cons, CapsuleDB.puts, bind_assoc]
    exact bind_congr fun _ => ih _

/-- Different numbers are different keys. -/
theorem stdToString_injective {i j : ℕ} (h : stdToString i = stdToString j) : i = j :=
  Int.ofNat_inj.mp (intText_injective h)

/-- No number is the empty key. -/
theorem stdToString_ne_nil (i : ℕ) : stdToString i ≠ [] := by
  unfold stdToString intText
  rw [if_neg (by omega)]
  exact natText_ne_nil _

/-- The map has one entry for each number, under its text. -/
theorem testMap_spec {is : List ℕ} (hnodup : is.Nodup) :
    (testMap is SortedMap.empty).size = is.length ∧
      ∀ k v, (testMap is SortedMap.empty).find? k = some v →
        ∃ i ∈ is, stdToString i = k ∧ stdToString i = v := by
  induction is using List.reverseRecOn with
  | nil => exact ⟨rfl, fun k v h => by simp [testMap] at h⟩
  | append_singleton is i ih =>
    obtain ⟨hfresh, hpre⟩ : i ∉ is ∧ is.Nodup := by
      rw [List.nodup_append] at hnodup
      exact ⟨fun hi => hnodup.2.2 i hi i (by simp) rfl, hnodup.1⟩
    obtain ⟨hsize, hfind⟩ := ih hpre
    have hnone : (testMap is SortedMap.empty).find? (stdToString i) = none := by
      cases hv : (testMap is SortedMap.empty).find? (stdToString i) with
      | none => rfl
      | some v =>
        obtain ⟨j, hj, hkey, -⟩ := hfind _ v hv
        exact absurd (stdToString_injective hkey ▸ hj) hfresh
    have hmap : testMap (is ++ [i]) SortedMap.empty =
        (testMap is SortedMap.empty).insert (stdToString i) (stdToString i) := by
      unfold testMap at hnone ⊢
      rw [List.foldl_append, List.foldl_cons, List.foldl_nil, insertNew, hnone]
      rfl
    rw [hmap]
    refine ⟨?_, fun k v hv => ?_⟩
    · rw [SortedMap.size_insert_of_none hnone, hsize, List.length_append, List.length_singleton]
    · rw [SortedMap.find?_insert] at hv
      split_ifs at hv with hk
      · exact ⟨i, by simp, hk.symm, Option.some.inj hv⟩
      · obtain ⟨j, hj, hkey, hvalue⟩ := hfind k v hv
        exact ⟨j, List.mem_append_left _ hj, hkey, hvalue⟩

/-! ## Reading back -/

/-- A get of a key under which one value was put finds the value. -/
theorem get_value (hw : Inv S B w) (h : RunInv ps w) {k v : Str} (hk : k ≠ [])
    (hput : ∃ p ∈ ps, p.key = k) (hvalue : ∀ p ∈ ps, p.key = k → p.value = v) :
    Outcome (fun a w' => a.value = v ∧ Inv S B w' ∧ RunInv ps w' ∧ w'.index = w.index)
      (fun e _ => e = .io) (CapsuleDB.get k w) := by
  refine (((get_run hw h hk).and (get_readOnly k w)).and (Outcome.self _)).mono ?_ fun _ _ he =>
    he.1.1
  rintro a w' ⟨⟨-, hro⟩, hget⟩
  refine ⟨?_, inv_of_readOnly hw hro, h.of_readOnly hw hro, ?_⟩
  · rcases h.get_cases hw hk hget with ⟨-, hnone⟩ | ⟨hmem, hkey⟩
    · obtain ⟨p, hp, hpk⟩ := hput
      exact absurd hpk (hnone p hp)
    · exact hvalue a hmem hkey
  · obtain ⟨d', rfl, -⟩ := hro
    rfl

/-- A value that is as expected counts as found. -/
theorem count_found (r : Report) {k v : Str} (hv : v ≠ []) :
    r.count k v v = { r with num_found := r.num_found + 1 } := by
  unfold Report.count
  simp only [if_neg hv, if_true]

/-- **The loop that reads back** finds every entry. -/
theorem verify_spec {entries : List (Str × Str)} (hw : Inv S B w) (h : RunInv ps w)
    (hall : ∀ e ∈ entries, e.1 ≠ [] ∧ e.2 ≠ [] ∧ (∃ p ∈ ps, p.key = e.1) ∧
      ∀ p ∈ ps, p.key = e.1 → p.value = e.2) (r : Report) :
    Outcome
      (fun r' w' => r' = { r with num_found := r.num_found + entries.length } ∧ w'.index = w.index)
      (fun e _ => e = .io) (verify entries r w) := by
  induction entries generalizing w r with
  | nil => exact Outcome.pure ⟨rfl, rfl⟩
  | cons e entries ih =>
    obtain ⟨k, v⟩ := e
    obtain ⟨hk, hv, hput, hvalue⟩ := hall (k, v) List.mem_cons_self
    rw [verify]
    refine (get_value hw h hk hput hvalue).bind (fun _ _ he => he) ?_
    rintro a u ⟨rfl, hu, hinv, hindex⟩
    rw [count_found r hv]
    refine (ih hu hinv (fun e he => hall e (List.mem_cons_of_mem _ he)) _).mono ?_ fun _ _ he => he
    rintro r' w' ⟨rfl, hindex'⟩
    refine ⟨?_, hindex'.trans hindex⟩
    rw [List.length_cons, Nat.add_assoc, Nat.add_comm 1]

/-- There are no more keys than puts. -/
theorem distinctKeys_le_length (ps : List KvsPayload) : distinctKeys ps ≤ ps.length := by
  unfold distinctKeys
  exact (List.dedup_sublist _).length_le.trans (List.length_map _).le

/-! ## What is in L0 at the end -/

/-- A new engine after `n` puts of different keys: the memory table has been written out some times,
every second time into an empty L0, and holds the rest. -/
structure Fed (B n : ℕ) (w : World S) : Prop where
  count : ∃ flushes, n = flushes * B + w.memtable.memtable.size ∧
    (headersAt (indexState w) 0).length = flushes % 2
  nonempty : 0 < n → 0 < w.memtable.memtable.size
  stocked : StockedFrom 1 (indexState w)

/-- **A put of a new key** fills the memory table by one or has it written out. -/
theorem Fed.step {n : ℕ} {p : KvsPayload} (h : Fed B n w) (hw : Inv S B w)
    (hnew : w.memtable.memtable.find? p.key = none) (hp : PutDone S B p w w') :
    Fed B (n + 1) w' := by
  obtain ⟨flushes, hn, hblocks⟩ := h.count
  have hfills := hp.fills hnew
  have hle := hw.size_le
  by_cases hroom : w.memtable.memtable.size < B
  · rw [if_pos hroom] at hfills
    obtain ⟨hsize, hindex⟩ := hfills
    refine ⟨⟨flushes, by omega, by rw [hindex, hblocks]⟩, fun _ => by omega, hp.stocked h.stocked⟩
  · rw [if_neg hroom] at hfills
    obtain ⟨hsize, hblocks'⟩ := hfills
    refine ⟨⟨flushes + 1, ?_, ?_⟩, fun _ => by omega, hp.stocked h.stocked⟩
    · rw [Nat.add_mul]
      omega
    · rw [hblocks']
      by_cases hnil : headersAt (indexState w) 0 = []
      · rw [hnil, List.length_nil] at hblocks
        rw [if_pos hnil]
        omega
      · have hpos := List.length_pos_iff.mpr hnil
        rw [if_neg hnil]
        omega

/-- The number of blocks of L0. -/
theorem Fed.blocks_eq {n : ℕ} (h : Fed B n w) (hB : 1 ≤ B) (hw : Inv S B w) :
    (headersAt (indexState w) 0).length = (n - 1) / B % 2 := by
  obtain ⟨flushes, hn, hblocks⟩ := h.count
  have hle := hw.size_le
  have hdiv : (n - 1) / B = flushes := by
    rcases Nat.eq_zero_or_pos n with rfl | hpos
    · have hzero : flushes * B = 0 := by omega
      rcases Nat.mul_eq_zero.mp hzero with hf | hb
      · rw [hf, Nat.zero_sub, Nat.zero_div]
      · omega
    · have hsize := h.nonempty hpos
      refine Nat.div_eq_of_lt_le (by omega) ?_
      rw [Nat.add_mul]
      omega
  rw [hblocks, hdiv]

/-- **Puts of different keys** feed the engine. -/
theorem puts_fed (hB : 1 ≤ B) (hmax : 2 * B < 2 ^ 31) (d : S.Disk)
    (hnodup : (ps.map KvsPayload.key).Nodup) :
    Outcome (fun _ w => Fed B ps.length w) Assumed (CapsuleDB.puts ps (spawnDB B d)) := by
  have hnew : Fed B 0 (spawnDB B d : World S) := by
    refine ⟨⟨0, by rw [Nat.zero_mul]; rfl, rfl⟩, fun h => absurd h (lt_irrefl 0),
      fun i hi hlt => ?_⟩
    simp only [indexState, spawnDB, CapsuleIndex.new, List.length_singleton] at hlt
    omega
  refine (puts_run hB hmax d (P := fun ps w => RunInv ps w ∧ Fed B ps.length w)
    ⟨RunInv.spawnDB d, hnew⟩ ps ?_).mono (fun _ _ h => h.2.2) fun _ _ he => he
  rintro pre p w w' hat hw ⟨hrun, hfed⟩ hp
  refine ⟨hrun.step hp, ?_⟩
  have hfresh : w.memtable.memtable.find? p.key = none := by
    cases hv : w.memtable.memtable.find? p.key with
    | none => rfl
    | some v =>
      obtain ⟨hmem, hkey⟩ := hrun.source p.key v (Or.inl hv)
      have hpre := hnodup.sublist (hat.initial.sublist.map KvsPayload.key)
      rw [List.map_append, List.nodup_append] at hpre
      exact absurd hkey (hpre.2.2 _ (List.mem_map_of_mem hmem) _ (by simp))
  rw [List.length_append]
  exact hfed.step hw hfresh hp

/-! ## The statistics -/

/-- A level with blocks can be printed. -/
theorem levelStats_of_ne {l : Level} (h : l.recordHashes ≠ []) :
    ∃ stats, levelStats l = .ok stats ∧ stats.index = l.index ∧ stats.numBlocks = l.numBlocks ∧
      stats.size = l.recordHashes.length := by
  have hpos := List.length_pos_iff.mpr h
  have hlast : l.recordHashes.length - 1 < l.recordHashes.length := by omega
  unfold levelStats
  rw [List.getElem?_eq_getElem hpos, List.getElem?_eq_getElem hlast]
  exact ⟨_, rfl, rfl, rfl, rfl⟩

/-- Levels with blocks can be printed. -/
theorem allStats_of_ne {levels : List Level} (h : ∀ l ∈ levels, l.recordHashes ≠ []) :
    ∃ stats, allStats levels = .ok stats ∧ List.Forall₂ (fun l (s : LevelStats) =>
      s.index = l.index ∧ s.numBlocks = l.numBlocks ∧ s.size = l.recordHashes.length)
      levels stats := by
  induction levels with
  | nil => exact ⟨[], rfl, List.Forall₂.nil⟩
  | cons l levels ih =>
    obtain ⟨s, hs, hshows⟩ := levelStats_of_ne (h l List.mem_cons_self)
    obtain ⟨rest, hrest, hall⟩ := ih fun l' hl' => h l' (List.mem_cons_of_mem _ hl')
    refine ⟨s :: rest, ?_, List.Forall₂.cons hshows hall⟩
    rw [allStats, hs, hrest]
    rfl

/-- A first level without blocks cannot be printed. -/
theorem allStats_of_nil {l : Level} {levels : List Level} (h : l.recordHashes = []) :
    allStats (l :: levels) = .error .outOfRange := by
  have hl : levelStats l = .error .outOfRange := by
    unfold levelStats
    rw [h]
    rfl
  rw [allStats, hl]
  rfl

/-- What is printed of the levels of an engine in order: their numbers, and the count of blocks that
each of them keeps is right. -/
def Printed (r : Report) : Prop :=
  r.level_stats.map LevelStats.index = List.range r.num_levels ∧
    ∀ s ∈ r.level_stats, s.numBlocks = s.size ∧ 0 < s.size

/-- The levels of an engine in order are numbered, and count their blocks right. -/
theorem level_counted (hw : Inv S B w) {i : ℕ} {l : Level} (hl : w.index.levels[i]? = some l) :
    l.index = i ∧ l.numBlocks = l.recordHashes.length := by
  cases i with
  | zero =>
    obtain ⟨l', hl', ht⟩ := hw.top
    obtain rfl : l' = l := Option.some.inj (hl'.symm.trans hl)
    exact ⟨ht.index_eq, ht.numBlocks_eq⟩
  | succ i =>
    have hlOk := hw.indexOk.levelOk (i + 1) l (Nat.le_add_left 1 i) hl
    exact ⟨hlOk.index_eq, hlOk.numBlocks_eq⟩

/-- **The loop that prints the levels** reads past the end exactly if L0 has no block. -/
theorem allStats_spec (hw : Inv S B w) (hst : StockedFrom 1 (indexState w)) :
    (headersAt (indexState w) 0 = [] → allStats w.index.levels = .error .outOfRange) ∧
    (headersAt (indexState w) 0 ≠ [] → ∃ stats, allStats w.index.levels = .ok stats ∧
      ∀ r : Report, r.num_levels = w.index.levels.length → r.level_stats = stats → Printed r) := by
  obtain ⟨l, hl, -⟩ := hw.top
  rw [headersAt_eq (s := indexState w) hl]
  constructor
  · intro hnil
    cases hlevels : w.index.levels with
    | nil => simp [hlevels] at hl
    | cons l' levels =>
      obtain rfl : l' = l := by simpa [hlevels] using hl
      exact allStats_of_nil hnil
  · intro hne
    have hall : ∀ l' ∈ w.index.levels, l'.recordHashes ≠ [] := by
      intro l' hl'
      obtain ⟨i, hi⟩ := List.getElem?_of_mem hl'
      cases i with
      | zero =>
        obtain rfl : l = l' := Option.some.inj (hl.symm.trans hi)
        exact hne
      | succ i =>
        have hblocks := hst (i + 1) (Nat.le_add_left 1 i) (List.getElem?_eq_some_iff.mp hi).1
        rwa [headersAt_eq (s := indexState w) hi] at hblocks
    obtain ⟨stats, hstats, hshows⟩ := allStats_of_ne hall
    refine ⟨stats, hstats, ?_⟩
    rintro r hlevels rfl
    rw [Printed, hlevels]
    refine ⟨?_, fun s hs => ?_⟩
    · apply List.ext_getElem
      · simp [hshows.length_eq]
      · intro i hi hi'
        rw [List.length_map] at hi
        have hlt : i < w.index.levels.length := by rwa [hshows.length_eq]
        obtain ⟨hindex, -⟩ := hshows.get hlt hi
        rw [List.getElem_map, List.getElem_range]
        exact hindex.trans (level_counted hw (List.getElem?_eq_getElem hlt)).1
    · obtain ⟨i, hi, rfl⟩ := List.getElem_of_mem hs
      have hlt : i < w.index.levels.length := by rwa [hshows.length_eq]
      obtain ⟨-, hnum, hsize⟩ := hshows.get hlt hi
      have hcount := (level_counted hw (List.getElem?_eq_getElem hlt)).2
      refine ⟨hnum.trans (hcount.trans hsize.symm), ?_⟩
      rw [show r.level_stats[i].size = _ from hsize]
      exact List.length_pos_iff.mpr (hall _ (List.getElem_mem hlt))

/-! ## The whole test -/

/-- The report of a test of the numbers below `bound` that found all of them. -/
structure AllFound (B bound : ℕ) (r : Report) : Prop where
  num_found : r.num_found = bound - 1
  test_count : r.test_count = 0
  failed_keys : r.failed_keys = []
  test_map_size : r.test_map_size = bound - 1
  few_levels : 3 ≤ r.num_levels → 18 * 10 ^ (r.num_levels - 3) * B < bound - 1 + B
  printed : Printed r

/-- **The test of the core finds every key**, with any size of the memory table that the capacities
have room for and at any times, which may also go backwards: every number is found, none is missing,
and the levels are few.  Apart from the block store, what can go wrong is the printing of the
levels, which reads past the end of L0 exactly if the numbers have been written out an even number
of times. -/
theorem core_test_finds_all (hB : 1 ≤ B) (d : S.Disk) (bound : ℕ) (clock : ℕ → Int64)
    (hfew : 12 * (bound + B) ≤ 2 ^ 31) :
    Outcome (fun r _ => AllFound B bound r ∧ (bound - 2) / B % 2 = 1)
      (fun e _ => e = .io ∨ (e = .outOfRange ∧ (bound - 2) / B % 2 = 0))
      (CoreTest.main bound clock (spawnDB B d)) := by
  generalize hps : (List.range' 1 (bound - 1)).map (fun i => kvs i (clock i)) = ps
  have hlength : ps.length = bound - 1 := by
    rw [← hps, List.length_map, List.length_range']
  have hlen : distinctKeys ps ≤ bound - 1 := (distinctKeys_le_length ps).trans_eq hlength
  have hnodup : (ps.map KvsPayload.key).Nodup := by
    rw [← hps, List.map_map]
    exact List.Nodup.map (fun i j => stdToString_injective) List.nodup_range'
  obtain ⟨hsize, hfind⟩ := testMap_spec (List.nodup_range' (s := 1) (n := bound - 1))
  rw [List.length_range'] at hsize
  have hputs := (puts_few hB d ps (by omega)).and (puts_fed hB (by omega) d hnodup)
  unfold CoreTest.main
  rw [putNumbers_eq, hps, bind_assoc]
  refine hputs.bind (fun _ _ he => Or.inl he.1) ?_
  rintro - w ⟨⟨hw, hinv, hshallow⟩, hfed⟩
  have hblocks : (headersAt (indexState w) 0).length = (bound - 2) / B % 2 := by
    rw [hfed.blocks_eq hB hw, hlength, Nat.sub_sub]
  rw [pure_bind]
  refine (verify_spec hw hinv ?_ _).bind (fun _ _ he => Or.inl he) ?_
  · rintro ⟨k, v⟩ he
    obtain ⟨i, hi, rfl, rfl⟩ := hfind k v (SortedMap.mem_entries_iff.mp he)
    refine ⟨stdToString_ne_nil i, stdToString_ne_nil i, ⟨kvs i (clock i), ?_, rfl⟩, ?_⟩
    · rw [← hps]
      exact List.mem_map_of_mem hi
    · rintro p hp hkey
      rw [← hps] at hp
      obtain ⟨j, -, rfl⟩ := List.mem_map.mp hp
      exact hkey
  · rintro r w' ⟨rfl, hindex⟩
    apply Outcome.get_bind
    rw [hindex]
    obtain ⟨hempty, hfull⟩ := allStats_spec hw hfed.stocked
    by_cases hnil : headersAt (indexState w) 0 = []
    · rw [hempty hnil]
      rw [hnil, List.length_nil] at hblocks
      exact Or.inr ⟨rfl, hblocks.symm⟩
    · obtain ⟨stats, hstats, hprinted⟩ := hfull hnil
      rw [hstats]
      have hpos := List.length_pos_iff.mpr hnil
      refine Outcome.lift_bind
        (Outcome.pure ⟨⟨?_, rfl, rfl, hsize, fun hthree => ?_, hprinted _ rfl rfl⟩, ?_⟩)
      · exact (Nat.zero_add _).trans hsize
      · exact (hshallow hthree).trans_le (Nat.add_le_add_right hlen B)
      · omega

/-- The bound in the source. -/
@[irreducible] def sampleBound : ℕ := 2000

/-- The theorem at the numbers of the source. -/
theorem core_test_finds_all_sample :
    Outcome (fun r _ => AllFound 50 sampleBound r ∧ (sampleBound - 2) / 50 % 2 = 1)
      (fun e _ => e = .io ∨ (e = .outOfRange ∧ (sampleBound - 2) / 50 % 2 = 0))
      (CoreTest.main sampleBound (fun _ => 0) (spawnDB 50 [] : World memoryStore)) :=
  core_test_finds_all (S := memoryStore) (B := 50) (by decide) [] sampleBound (fun _ => 0)
    (by unfold sampleBound; decide)

end Capsule.Analysis
