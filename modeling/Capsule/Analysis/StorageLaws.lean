import Capsule.Analysis.Runs

/-!
# What is stored, and how

Four laws of the state after a sequence of puts to a new engine, for timestamps in any order.

* Of every key a newest version is stored somewhere, and nothing is stored that was not put
  (`stored_newest_and_put`).
* The index describes what it refers to: numbers, ranges and the order of blocks and pairs
  (`puts_represented`).
* Nothing is over capacity, and blocks are full but for the last of a level (`puts_fill`).
* A get finds what a search through everything would find (`get_eq_plainSearch`).
-/

set_option autoImplicit false

namespace Capsule.Analysis

open Library Program Interface

variable {S : BlockStore} {B : ℕ} {w : World S} {ps : List KvsPayload} {d : S.Disk}

/-! ## No newest version is lost, and none is invented -/

/-- Every payload in the memory table and in the blocks that the levels refer to. -/
def storedPayloads (w : World S) : List KvsPayload :=
  w.memtable.memtable.values ++
    (w.index.levels.flatMap fun l => runOf S w.disk l.recordHashes)

/-- The pairs of a level are those of its blocks. -/
theorem mem_runs_iff {x : KvsPayload} :
    x ∈ (w.index.levels.flatMap fun l => runOf S w.disk l.recordHashes) ↔
      ∃ i, x ∈ levelRun (indexState w) i := by
  rw [List.mem_flatMap]
  constructor
  · rintro ⟨l, hl, hx⟩
    obtain ⟨i, hi⟩ := List.getElem?_of_mem hl
    refine ⟨i, ?_⟩
    rw [levelRun, headersAt_eq (show (indexState w).index.levels[i]? = some l from hi)]
    exact hx
  · rintro ⟨i, hx⟩
    unfold levelRun headersAt at hx
    cases hl : (indexState w).index.levels[i]? with
    | none => simp [hl] at hx
    | some l =>
      rw [hl] at hx
      exact ⟨l, List.mem_of_getElem? hl, hx⟩

/-- What is stored is what the columns of the keys hold. -/
theorem mem_storedPayloads (hw : Inv S B w) {x : KvsPayload} :
    x ∈ storedPayloads w ↔ (column w x.key).Holds x := by
  obtain ⟨l, hl, ht⟩ := hw.top
  have hmem : x ∈ w.memtable.memtable.values ↔ (column w x.key).mem = some x := by
    have hfind : find x.key w.memtable.memtable.values = (column w x.key).mem :=
      find_values hw.keyed x.key
    rw [← hfind, find, lookup_eq_some_iff (sortedRun_values hw.keyed)]
    simp
  have htop : x ∈ levelRun (indexState w) 0 ↔ some x ∈ (column w x.key).l0 := by
    have hrun : levelRun (indexState w) 0 = runOf S w.disk l.recordHashes := by
      rw [levelRun, headersAt_eq hl]
      rfl
    have hcol : (column w x.key).l0 =
        l.recordHashes.map fun h => find x.key (contents S w.disk h) := by
      rw [column, columnOf, headersAt_eq hl]
      rfl
    rw [hrun, mem_runOf, hcol, List.mem_map]
    refine exists_congr fun h => and_congr_right fun hh => ?_
    rw [find, lookup_eq_some_iff (ht.sorted h hh)]
    simp
  have hlv : ∀ i, x ∈ levelRun (indexState w) (1 + i) ↔ (column w x.key).lv i = some x := by
    intro i
    have hfind : find x.key (levelRun (indexState w) (1 + i)) = (column w x.key).lv i := rfl
    rw [← hfind, find, lookup_eq_some_iff (hw.indexOk.sorted (Nat.le_add_right 1 i))]
    simp
  rw [storedPayloads, List.mem_append, mem_runs_iff, hmem, Column.Holds, ← htop]
  refine or_congr_right ⟨?_, ?_⟩
  · rintro ⟨i, hi⟩
    cases i with
    | zero => exact Or.inl hi
    | succ i => exact Or.inr ⟨i, (hlv i).mp (Nat.add_comm i 1 ▸ hi)⟩
  · rintro (hx | ⟨i, hi⟩)
    · exact ⟨0, hx⟩
    · exact ⟨1 + i, (hlv i).mpr hi⟩

/-- Of the puts to a key there is a newest. -/
theorem exists_newest {k : Str} (h : ∃ p ∈ ps, p.key = k) :
    ∃ p ∈ ps, p.key = k ∧ ∀ q ∈ ps, q.key = k → q.txn_timestamp ≤ p.txn_timestamp := by
  obtain ⟨p₀, hp₀, hk₀⟩ := h
  obtain ⟨p, hp, hmax⟩ := (ps.toFinset.filter fun p => p.key = k).exists_max_image
    KvsPayload.txn_timestamp ⟨p₀, by simp [hp₀, hk₀]⟩
  simp only [Finset.mem_filter, List.mem_toFinset] at hp hmax
  exact ⟨p, hp.1, hp.2, fun q hq hqk => hmax q ⟨hq, hqk⟩⟩

/-- **No newest version is dropped and nothing is fabricated.**  After any sequence of puts, for
each key that was put a version with the largest timestamp of all its puts is in the memory table
or in a block that a level refers to, and every payload there was put. -/
theorem stored_newest_and_put (hB : 1 ≤ B) (hmax : 2 * B < 2 ^ 31) (d : S.Disk)
    (ps : List KvsPayload) :
    Outcome
      (fun _ w =>
        (∀ k, (∃ p ∈ ps, p.key = k) → ∃ x ∈ storedPayloads w, x.key = k ∧
          ∀ q ∈ ps, q.key = k → q.txn_timestamp ≤ x.txn_timestamp) ∧
        ∀ x ∈ storedPayloads w, x ∈ ps)
      Assumed (CapsuleDB.puts ps (spawnDB B d)) := by
  refine (puts_runInv hB hmax d ps).mono ?_ fun _ _ he => he
  rintro - w ⟨hw, h⟩
  refine ⟨fun k hput => ?_, fun x hx => (h.source _ x ((mem_storedPayloads hw).mp hx)).1⟩
  obtain ⟨p, hp, rfl, hnewest⟩ := exists_newest hput
  obtain ⟨y, hy, hle⟩ := h.retains p hp
  have hyk : y.key = p.key := (h.source _ y hy).2
  refine ⟨y, ?_, hyk, fun q hq hqk => (hnewest q hq hqk).trans hle⟩
  rw [mem_storedPayloads hw, hyk]
  exact hy

/-- A run whose blocks have left the memory table and been compacted. -/
theorem stored_newest_and_put_sample :
    Outcome
      (fun _ w =>
        (∀ k, (∃ p ∈ sampleRun, p.key = k) → ∃ x ∈ storedPayloads w, x.key = k ∧
          ∀ q ∈ sampleRun, q.key = k → q.txn_timestamp ≤ x.txn_timestamp) ∧
        ∀ x ∈ storedPayloads w, x ∈ sampleRun)
      Assumed (CapsuleDB.puts sampleRun (spawnDB 1 [] : World memoryStore)) :=
  stored_newest_and_put (S := memoryStore) (B := 1) (by decide) (by decide) [] sampleRun

/-! ## The index describes what it refers to -/

/-- The keys of a list of payloads. -/
def keySet (ps : List KvsPayload) : Set Str := {k | ∃ p ∈ ps, p.key = k}

/-- The bounds are the least and the greatest key. -/
structure ExactRange (lo hi : Str) (ps : List KvsPayload) : Prop where
  least : IsLeast (keySet ps) lo
  greatest : IsGreatest (keySet ps) hi

/-- Without the empty key a range is exact. -/
theorem Ranged.exact {lo hi : Str} {xs : List KvsPayload} (hr : Ranged lo hi xs)
    (hne : ∀ p ∈ xs, p.key ≠ []) : ExactRange lo hi xs := by
  refine ⟨⟨hr.lo_mem, ?_⟩, hr.hi_mem, ?_⟩
  · rintro _ ⟨p, hp, rfl⟩
    exact (hr.covers p hp (hne p hp)).1
  · rintro _ ⟨p, hp, rfl⟩
    exact (hr.covers p hp (hne p hp)).2

/-- The range of a block is not empty. -/
theorem ExactRange.le {lo hi : Str} {xs : List KvsPayload} (h : ExactRange lo hi xs) : lo ≤ hi :=
  h.greatest.2 h.least.1

/-- The level `i` of an index is what its headers say. -/
structure LevelRepresented (S : BlockStore) (d : S.Disk) (i : ℕ) (l : Level) : Prop where
  index_eq : l.index = i
  /-- the number of blocks is right -/
  numBlocks_eq : l.numBlocks = l.recordHashes.length
  /-- below L0 the blocks are in key order and do not overlap -/
  disjoint : 1 ≤ i → l.recordHashes.Pairwise fun h h' => h.maxKey < h'.minKey
  /-- every header refers to a non-empty block for this level, with pairs in key order, and
  carries its least and greatest key -/
  block : ∀ h ∈ l.recordHashes, ∃ b, S.stored d h.hash = some b ∧ b.level = i ∧ b.kvPairs ≠ [] ∧
    SortedRun b.kvPairs ∧ ExactRange h.minKey h.maxKey b.kvPairs
  /-- the bounds of the level are the least and greatest key it holds -/
  range : l.recordHashes ≠ [] → ExactRange l.min_key l.max_key (runOf S d l.recordHashes)
  /-- they are empty exactly if it has no block -/
  empty : l.recordHashes = [] ↔ l.min_key = [] ∧ l.max_key = []

/-- The index is what its levels and headers say. -/
structure Represented (S : BlockStore) (w : World S) : Prop where
  numLevels_eq : w.index.numLevels = w.index.levels.length
  level : ∀ i l, w.index.levels[i]? = some l → LevelRepresented S w.disk i l

/-- The range of ordered blocks begins with the first and ends with the last. -/
theorem exactRange_runOf {hs : List BlockHeader}
    (hord : hs.Pairwise fun h h' => h.maxKey < h'.minKey)
    (hexact : ∀ h ∈ hs, ExactRange h.minKey h.maxKey (contents S d h)) {first last : BlockHeader}
    (hfirst : hs.head? = some first) (hlast : hs.getLast? = some last) :
    ExactRange first.minKey last.maxKey (runOf S d hs) := by
  have hmem : ∀ h ∈ hs, keySet (contents S d h) ⊆ keySet (runOf S d hs) := by
    rintro h hh _ ⟨p, hp, rfl⟩
    exact ⟨p, mem_runOf.mpr ⟨h, hh, hp⟩, rfl⟩
  have hfm : first ∈ hs := List.mem_of_mem_head? hfirst
  have hlm : last ∈ hs := List.mem_of_mem_getLast? hlast
  refine ⟨⟨hmem _ hfm (hexact _ hfm).least.1, ?_⟩, hmem _ hlm (hexact _ hlm).greatest.1, ?_⟩
  · rintro _ ⟨p, hp, rfl⟩
    obtain ⟨h, hh, hph⟩ := mem_runOf.mp hp
    obtain ⟨rest, rfl⟩ : ∃ rest, hs = first :: rest := by
      cases hs with
      | nil => simp at hfirst
      | cons g rest => exact ⟨rest, by simpa using hfirst⟩
    have hle : h.minKey ≤ p.key := (hexact h hh).least.2 ⟨p, hph, rfl⟩
    rcases List.mem_cons.mp hh with rfl | hh'
    · exact hle
    · exact ((hexact _ hfm).le.trans ((List.pairwise_cons.mp hord).1 h hh').le).trans hle
  · rintro _ ⟨p, hp, rfl⟩
    obtain ⟨h, hh, hph⟩ := mem_runOf.mp hp
    obtain ⟨init, rfl⟩ : ∃ init, hs = init ++ [last] := by
      rcases hs.eq_nil_or_concat' with rfl | ⟨init, g, rfl⟩
      · simp at hlast
      · exact ⟨init, by simpa using hlast⟩
    have hle : p.key ≤ h.maxKey := (hexact h hh).greatest.2 ⟨p, hph, rfl⟩
    rcases List.mem_append.mp hh with hh' | hh'
    · have hlt := (List.pairwise_append.mp hord).2.2 h hh' last (by simp)
      exact hle.trans (hlt.le.trans (hexact _ hlm).le)
    · rw [List.mem_singleton.mp hh'] at hle
      exact hle

/-- What makes a level represented, once the empty key is out of the way. -/
theorem levelRepresented_of {i : ℕ} {l : Level} (hidx : l.index = i)
    (hnum : l.numBlocks = l.recordHashes.length) (hok : HeadersOk S d l.recordHashes)
    (hst : ∀ h ∈ l.recordHashes, StoredAt S d i h)
    (hsorted : ∀ h ∈ l.recordHashes, SortedRun (contents S d h))
    (hord : l.recordHashes.Pairwise (Below S d)) (hrange : l.setBlocks l.recordHashes = l)
    (hne : ∀ h ∈ l.recordHashes, ∀ p ∈ contents S d h, p.key ≠ []) : LevelRepresented S d i l := by
  have hexact : ∀ h ∈ l.recordHashes, ExactRange h.minKey h.maxKey (contents S d h) := fun h hh =>
    Ranged.exact (hok h hh).ranged (hne h hh)
  have hdisj : l.recordHashes.Pairwise fun h h' => h.maxKey < h'.minKey :=
    hord.imp_of_mem fun hm hm' hb => hb.maxKey_lt_minKey (hok _ hm) (hok _ hm')
  have hmin : l.min_key = (l.setBlocks l.recordHashes).min_key := by rw [hrange]
  have hmax : l.max_key = (l.setBlocks l.recordHashes).max_key := by rw [hrange]
  simp only [Level.setBlocks] at hmin hmax
  have hbounds :
      l.recordHashes ≠ [] → ExactRange l.min_key l.max_key (runOf S d l.recordHashes) := by
    intro hhs
    have hfirst := List.head?_eq_some_head hhs
    have hlast := List.getLast?_eq_some_getLast hhs
    rw [hfirst] at hmin
    rw [hlast] at hmax
    rw [hmin, hmax]
    exact exactRange_runOf hdisj hexact hfirst hlast
  refine ⟨hidx, hnum, fun _ => hdisj, fun h hh => ?_, hbounds, fun hnil => ?_, fun hempty => ?_⟩
  · obtain ⟨b, hb, hlvl⟩ := hst h hh
    have hc : contents S d h = b.kvPairs := contents_of_stored hb
    exact ⟨b, hb, hlvl, hc ▸ (hok h hh).contents_ne, hc ▸ hsorted h hh, hc ▸ hexact h hh⟩
  · simp [hmin, hmax, hnil]
  · by_contra hhs
    obtain ⟨p, hp, hpk⟩ := (hbounds hhs).least.1
    obtain ⟨h, hh, hp⟩ := mem_runOf.mp hp
    exact hne h hh p hp (hpk.trans hempty.1)

/-- **The representation invariant of the index**, after any sequence of puts with non-empty
keys. -/
theorem puts_represented (hB : 1 ≤ B) (hmax : 2 * B < 2 ^ 31) (d : S.Disk) (ps : List KvsPayload)
    (hkeys : ∀ p ∈ ps, p.key ≠ []) :
    Outcome (fun _ w => Represented S w) Assumed (CapsuleDB.puts ps (spawnDB B d)) := by
  refine (puts_runInv hB hmax d ps).mono ?_ fun _ _ he => he
  rintro - w ⟨hw, h⟩
  refine ⟨hw.indexOk.numLevels_eq, fun i l hl => ?_⟩
  -- what a level holds was put
  have hne : ∀ g ∈ l.recordHashes, ∀ p ∈ contents S w.disk g, p.key ≠ [] := by
    intro g hg p hp
    have hstored : p ∈ storedPayloads w := by
      refine List.mem_append_right _ (List.mem_flatMap.mpr ⟨l, List.mem_of_getElem? hl, ?_⟩)
      exact mem_runOf.mpr ⟨g, hg, hp⟩
    exact hkeys p (h.source _ p ((mem_storedPayloads hw).mp hstored)).1
  cases i with
  | zero =>
    obtain ⟨l', hl', ht⟩ := hw.top
    obtain rfl : l' = l := Option.some.inj (hl'.symm.trans hl)
    have hone : l'.recordHashes.length ≤ 1 := by
      have hcalm := h.calm
      rwa [headersAt_eq hl'] at hcalm
    have hord : l'.recordHashes.Pairwise (Below S w.disk) := by
      match hhs : l'.recordHashes with
      | [] => exact List.Pairwise.nil
      | [g] => exact List.pairwise_singleton _ g
      | _ :: _ :: _ => simp [hhs] at hone
    exact levelRepresented_of ht.index_eq ht.numBlocks_eq ht.headersOk ht.storedAt ht.sorted hord
      (ht.range_eq hone) hne
  | succ i =>
    have hlOk : LevelOk S w.disk B (i + 1) l :=
      hw.indexOk.levelOk (i + 1) l (Nat.le_add_left 1 i) hl
    have hsorted := sortedRun_runOf_iff.mp hlOk.sorted
    exact levelRepresented_of hlOk.index_eq hlOk.numBlocks_eq hlOk.headersOk hlOk.storedAt hsorted.1
      hsorted.2 hlOk.range_eq hne

/-- The theorem at a run that writes a key twice. -/
theorem puts_represented_sample :
    Outcome (fun _ w => Represented memoryStore w) Assumed
      (CapsuleDB.puts sampleRun (spawnDB 1 [])) :=
  puts_represented (S := memoryStore) (B := 1) (by decide) (by decide) [] sampleRun
    (by unfold sampleRun; decide)

/-! ## Capacities and fill -/

/-- How full the memory table and the levels are. -/
structure Fill (S : BlockStore) (B : ℕ) (w : World S) : Prop where
  memtable_le : w.memtable.memtable.size ≤ B
  top : ∀ l, w.index.levels[0]? = some l → l.recordHashes.length ≤ 1 ∧
    ∀ h ∈ l.recordHashes, (contents S w.disk h).length = B
  level_lt : ∀ i l, 1 ≤ i → w.index.levels[i]? = some l →
    l.recordHashes.length < 2 * 10 ^ i ∧ (B * l.recordHashes.length : Int) < l.maxSize
  level_full : ∀ i l, 1 ≤ i → w.index.levels[i]? = some l →
    FullCut B (l.recordHashes.map (contents S w.disk))

/-- **Capacity and fill** after any sequence of puts. -/
theorem puts_fill (hB : 1 ≤ B) (hmax : 2 * B < 2 ^ 31) (d : S.Disk) (ps : List KvsPayload) :
    Outcome (fun _ w => Fill S B w) Assumed (CapsuleDB.puts ps (spawnDB B d)) := by
  refine (puts_runInv hB hmax d ps).mono ?_ fun _ _ he => he
  rintro - w ⟨hw, h⟩
  refine ⟨hw.size_le, fun l hl => ?_, fun i l hi hl => ?_, fun i l hi hl => ?_⟩
  · obtain ⟨l', hl', ht⟩ := hw.top
    obtain rfl : l' = l := Option.some.inj (hl'.symm.trans hl)
    have hcalm := h.calm
    rw [headersAt_eq hl'] at hcalm
    exact ⟨hcalm, ht.size_eq⟩
  · have hlOk := hw.indexOk.levelOk i l hi hl
    have hlt := hlOk.length_lt
    refine ⟨hlt, ?_⟩
    rw [hlOk.maxSize_eq, mul_comm (2 * 10 ^ i) B]
    exact_mod_cast Nat.mul_lt_mul_of_pos_left hlt hB
  · exact (hw.indexOk.levelOk i l hi hl).fullCut

/-- The theorem at a run that writes a key twice. -/
theorem puts_fill_sample :
    Outcome (fun _ w => Fill memoryStore 1 w) Assumed
      (CapsuleDB.puts sampleRun (spawnDB 1 [])) :=
  puts_fill (S := memoryStore) (B := 1) (by decide) (by decide) [] sampleRun

/-! ## The index finds what a search through everything finds -/

/-- **Indexed lookup agrees with an exhaustive scan**, after any sequence of puts. -/
theorem get_eq_plainSearch (hB : 1 ≤ B) (hmax : 2 * B < 2 ^ 31) (d : S.Disk) (ps : List KvsPayload)
    (k : Str) (hk : k ≠ []) :
    Outcome
      (fun _ w => Outcome (fun a _ => a = (plainSearch w k).getD notFound) ReadFault
        (CapsuleDB.get k w))
      Assumed (CapsuleDB.puts ps (spawnDB B d)) := by
  refine (puts_runInv hB hmax d ps).mono ?_ fun _ _ he => he
  rintro - w ⟨hw, h⟩
  exact (get_spec hw (Or.inl h.calm) hk).mono (fun _ _ ha => ha.1) fun _ _ he => he.1

/-- The theorem at a get of a key that was written twice. -/
theorem get_eq_plainSearch_sample :
    Outcome
      (fun _ w => Outcome (fun a _ => a = (plainSearch w [107]).getD notFound) ReadFault
        (CapsuleDB.get [107] w))
      Assumed (CapsuleDB.puts sampleRun (spawnDB 1 [] : World memoryStore)) :=
  get_eq_plainSearch (S := memoryStore) (B := 1) (by decide) (by decide) [] sampleRun [107]
    (by decide)

end Capsule.Analysis
