import Capsule.Analysis.StorageLaws

/-!
# The depth of the index

A level is added below a crowded one only, and a crowded level is full of blocks whose keys are all
different.  So the number of levels is logarithmic in the number of keys (`levels_logarithmic`), a
get reads that many blocks at most (`get_reads_logarithmic`), and with few keys no capacity
overflows, however many puts there are (`few_keys_never_overflow`).  Old versions do not pile up: no
more is stored than one payload of each key for each level (`space_bounded`).

Reads are counted by a store that does what another store does and counts (`countingStore`).
-/

set_option autoImplicit false

namespace Capsule.Analysis

open Library Program Interface

variable {S : BlockStore} {B : ℕ} {w w' : World S} {ps : List KvsPayload}

/-! ## A crowded level needs keys -/

/-- The number of different keys of the puts. -/
def distinctKeys (ps : List KvsPayload) : ℕ := (ps.map KvsPayload.key).dedup.length

/-- More puts have no fewer keys. -/
theorem distinctKeys_mono {qs : List KvsPayload} (h : ps ⊆ qs) :
    distinctKeys ps ≤ distinctKeys qs := by
  have hsub : (ps.map KvsPayload.key).dedup ⊆ (qs.map KvsPayload.key).dedup := by
    intro k hk
    rw [List.mem_dedup] at hk ⊢
    exact List.map_subset _ h hk
  exact ((List.nodup_dedup _).subperm hsub).length_le

/-- A level holds no more pairs than there are keys. -/
theorem length_levelRun_le (hw : Inv S B w) (hsource : ∀ k x, (column w k).Holds x → x ∈ ps)
    {i : ℕ} (hi : 1 ≤ i) :
    (levelRun (indexState w) i).length ≤ distinctKeys ps := by
  have hsorted := hw.indexOk.sorted hi
  apply hsorted.length_le
  intro x hx
  have hhold : (column w x.key).Holds x := by
    refine Or.inr (Or.inr ⟨i - 1, ?_⟩)
    have hi' : 1 + (i - 1) = i := by omega
    exact (congrArg _ (congrArg _ hi')).trans ((lookup_eq_some_iff hsorted).mpr ⟨hx, rfl⟩)
  rw [List.mem_dedup]
  exact List.mem_map_of_mem (hsource _ x hhold)

/-- **The keys of a crowded level.** -/
theorem Crowded.keys (hc : Crowded (indexState w)) (hw : Inv S B w)
    (hsource : ∀ k x, (column w k).Holds x → x ∈ ps) (htwo : 2 ≤ w.index.levels.length) :
    18 * 10 ^ (w.index.levels.length - 2) * B < distinctKeys ps + B := by
  have hfull := hc htwo
  have hlen := length_levelRun_le hw hsource (show 1 ≤ w.index.levels.length - 1 by omega)
  obtain ⟨n, hn⟩ : ∃ n, w.index.levels.length = n + 2 := ⟨w.index.levels.length - 2, by omega⟩
  simp only [indexState, hn, show n + 2 - 1 = n + 1 by omega, Nat.add_sub_cancel] at hfull hlen ⊢
  obtain ⟨l, hl⟩ : ∃ l, w.index.levels[n + 1]? = some l :=
    ⟨_, List.getElem?_eq_getElem (by omega)⟩
  have hlOk : LevelOk S w.disk B (n + 1) l := hw.indexOk.levelOk (n + 1) l (by omega) hl
  rw [headersAt_eq hl, pow_succ] at hfull
  rw [levelRun, headersAt_eq hl] at hlen
  have hmany : 18 * 10 ^ n ≤ l.recordHashes.length := by omega
  have hpos : 0 < 10 ^ n := by positivity
  have hne : l.recordHashes.map (contents S w.disk) ≠ [] := by
    rw [← List.length_pos_iff, List.length_map]
    omega
  -- all blocks but the last are full
  have hgt := hlOk.fullCut.length_flatten_gt hne
  rw [List.length_map] at hgt
  have hpairs : (l.recordHashes.length - 1) * B < distinctKeys ps := hgt.trans_le hlen
  calc 18 * 10 ^ n * B
      ≤ (l.recordHashes.length - 1 + 1) * B := Nat.mul_le_mul_right B (by omega)
    _ = (l.recordHashes.length - 1) * B + B := Nat.succ_mul _ _
    _ < distinctKeys ps + B := by omega

/-- The memory table holds no more payloads than there are keys. -/
theorem memtable_size_le (hw : Inv S B w) (hsource : ∀ k x, (column w k).Holds x → x ∈ ps) :
    w.memtable.memtable.size ≤ distinctKeys ps := by
  have hsorted := sortedRun_values hw.keyed
  rw [← length_values]
  apply hsorted.length_le
  intro x hx
  have hhold : (column w x.key).Holds x := by
    refine Or.inl ?_
    exact (find_values hw.keyed x.key).symm.trans ((lookup_eq_some_iff hsorted).mpr ⟨hx, rfl⟩)
  rw [List.mem_dedup]
  exact List.mem_map_of_mem (hsource _ x hhold)

/-- **A capacity overflows only with many keys**: there is none to overflow before the memory table
has been full. -/
theorem Cramped.keys (hc : Cramped B (indexState w)) (hw : Inv S B w)
    (hsource : ∀ k x, (column w k).Holds x → x ∈ ps) (hfull : B ≤ w.memtable.memtable.size) :
    2 ^ 31 < 12 * (distinctKeys ps + B) := by
  have hnext := hc.next
  have htable := memtable_size_le hw hsource
  have hpos := hw.indexOk.levels_pos
  rcases Nat.lt_or_ge w.index.levels.length 2 with hone | htwo
  · have hlen : (indexState w).index.levels.length = 1 := by
      simp only [indexState] at hpos ⊢
      omega
    rw [hlen] at hnext
    omega
  · have hkeys := hc.crowded.keys hw hsource htwo
    obtain ⟨n, hn⟩ : ∃ n, w.index.levels.length = n + 2 := ⟨w.index.levels.length - 2, by omega⟩
    simp only [indexState, hn, Nat.add_sub_cancel] at hnext hkeys
    have hscale : 18 * (2 * 10 ^ (n + 2) * B) = 200 * (18 * 10 ^ n * B) := by ring
    omega

/-- What the number of keys says about the number of levels. -/
def Shallow (B : ℕ) (ps : List KvsPayload) (w : World S) : Prop :=
  3 ≤ w.index.levels.length → 18 * 10 ^ (w.index.levels.length - 3) * B < distinctKeys ps + B

/-- **A put keeps the index shallow.** -/
theorem Shallow.step {p : KvsPayload} (hs : Shallow B ps w) (hw : Inv S B w) (h : RunInv ps w)
    (hp : PutDone S B p w w') : Shallow B (ps ++ [p]) w' := by
  intro hthree
  have hmono : distinctKeys ps ≤ distinctKeys (ps ++ [p]) :=
    distinctKeys_mono (List.subset_append_left _ _)
  have hle := hp.length_le
  rcases Nat.lt_or_ge w.index.levels.length w'.index.levels.length with hlt | hge
  · have hkeys := (hp.grown hlt).keys hw (fun k x hx => (h.source k x hx).1) (by omega)
    rw [show w'.index.levels.length - 3 = w.index.levels.length - 2 by omega]
    omega
  · have hbound := hs (hthree.trans hge)
    have hpow : 10 ^ (w'.index.levels.length - 3) ≤ 10 ^ (w.index.levels.length - 3) :=
      Nat.pow_le_pow_right (by omega) (by omega)
    calc 18 * 10 ^ (w'.index.levels.length - 3) * B
        ≤ 18 * 10 ^ (w.index.levels.length - 3) * B :=
          Nat.mul_le_mul_right B (Nat.mul_le_mul_left 18 hpow)
      _ < distinctKeys (ps ++ [p]) + B := by omega

/-- **Every run leaves the index shallow.** -/
theorem puts_shallow (hB : 1 ≤ B) (hmax : 2 * B < 2 ^ 31) (d : S.Disk) (ps : List KvsPayload) :
    Outcome (fun _ w => Inv S B w ∧ RunInv ps w ∧ Shallow B ps w) Assumed
      (CapsuleDB.puts ps (spawnDB B d)) := by
  refine puts_run hB hmax d (P := fun ps w => RunInv ps w ∧ Shallow B ps w)
    ⟨RunInv.spawnDB d, fun h => ?_⟩ ps fun _ _ _ _ _ hw h hp => ⟨h.1.step hp, h.2.step hw h.1 hp⟩
  simp [spawnDB, CapsuleIndex.new] at h

/-- **The number of levels is logarithmic in the number of keys.**  After any sequence of puts, an
index of `n` levels, `n ≥ 3`, needs more than `(18 * 10 ^ (n - 3) - 1) * B` different keys, however
many puts there were. -/
theorem levels_logarithmic (hB : 1 ≤ B) (hmax : 2 * B < 2 ^ 31) (d : S.Disk)
    (ps : List KvsPayload) :
    Outcome
      (fun _ w =>
        3 ≤ w.index.numLevels → 18 * 10 ^ (w.index.numLevels - 3) * B < distinctKeys ps + B)
      Assumed (CapsuleDB.puts ps (spawnDB B d)) := by
  refine (puts_shallow hB hmax d ps).mono ?_ fun _ _ he => he
  rintro - w ⟨hw, -, hs⟩
  rw [show w.index.numLevels = w.index.levels.length from hw.indexOk.numLevels_eq]
  exact hs

/-- Enough puts for three levels under a memory table of two payloads, in an order that spreads the
keys of every block. -/
@[irreducible] def deepRun : List KvsPayload :=
  (List.range 43).map fun i => sample (UInt8.ofNat (i * 20 % 101 + 1)) 1 1

set_option maxRecDepth 20000 in
/-- The run reaches three levels. -/
theorem deepRun_levels :
    Outcome (fun _ w => w.index.numLevels = 3) (fun _ _ => False)
      (CapsuleDB.puts deepRun (spawnDB 2 [] : World memoryStore)) := by
  unfold deepRun
  decide +kernel

/-- The theorem at a run that reaches three levels, for which it asks for more than 34 keys. -/
theorem levels_logarithmic_sample :
    Outcome
      (fun _ w => w.index.numLevels = 3 ∧ (3 ≤ w.index.numLevels →
        18 * 10 ^ (w.index.numLevels - 3) * 2 < distinctKeys deepRun + 2))
      (fun _ _ => False) (CapsuleDB.puts deepRun (spawnDB 2 [] : World memoryStore)) :=
  (deepRun_levels.and (levels_logarithmic (S := memoryStore) (B := 2) (by decide) (by decide) []
    deepRun)).mono (fun _ _ h => h) fun _ _ h => h.1

/-! ## Space -/

/-- A sum of bounded numbers. -/
theorem sum_map_le {α : Type} {l : List α} {f : α → ℕ} {n : ℕ} (h : ∀ a ∈ l, f a ≤ n) :
    (l.map f).sum ≤ l.length * n := by
  have hsum := List.sum_le_card_nsmul (l.map f) n (List.forall_mem_map.mpr h)
  rwa [List.length_map, smul_eq_mul] at hsum

/-- The blocks of L0 are no larger than the memory table. -/
theorem length_top_le {m : SortedMap Str KvsPayload} {l : Level} {d : S.Disk}
    (ht : TopOk S d B m l) : (runOf S d l.recordHashes).length ≤ l.recordHashes.length * B := by
  have hsum :
      (l.recordHashes.map fun h => (contents S d h).length).sum ≤ l.recordHashes.length * B :=
    sum_map_le fun h hh => (ht.size_eq h hh).le
  rwa [runOf, List.length_flatten, List.map_map]

/-- A level holds a payload of each key at most, L0 one block. -/
theorem length_storedPayloads_le (hw : Inv S B w) (hcalm : (headersAt (indexState w) 0).length ≤ 1)
    (hsource : ∀ k x, (column w k).Holds x → x ∈ ps) :
    (storedPayloads w).length ≤ 2 * B + (w.index.levels.length - 1) * distinctKeys ps := by
  obtain ⟨l, hl, ht⟩ := hw.top
  obtain ⟨ls, hls⟩ : ∃ ls, w.index.levels = l :: ls := by
    cases hlevels : w.index.levels with
    | nil => simp [hlevels] at hl
    | cons l' ls =>
      obtain rfl : l' = l := by simpa [hlevels] using hl
      exact ⟨ls, rfl⟩
  have hl0 : (runOf S w.disk l.recordHashes).length ≤ B := by
    rw [headersAt_eq (s := indexState w) hl] at hcalm
    calc (runOf S w.disk l.recordHashes).length
        ≤ l.recordHashes.length * B := length_top_le ht
      _ ≤ 1 * B := Nat.mul_le_mul_right B hcalm
      _ = B := Nat.one_mul B
  have hbelow : (ls.map fun l' => (runOf S w.disk l'.recordHashes).length).sum ≤
      ls.length * distinctKeys ps := by
    refine sum_map_le fun l' hl' => ?_
    obtain ⟨i, hi⟩ := List.mem_iff_getElem?.mp hl'
    have hat : (indexState w).index.levels[i + 1]? = some l' := by
      rw [indexState, hls, List.getElem?_cons_succ]
      exact hi
    have hlen := length_levelRun_le hw hsource (Nat.le_add_left 1 i)
    rwa [levelRun, headersAt_eq hat] at hlen
  have hmem := hw.size_le
  unfold storedPayloads
  rw [List.length_append, length_values, List.length_flatMap, hls, List.map_cons, List.sum_cons,
    List.length_cons, Nat.add_sub_cancel]
  omega

/-- **Old versions do not pile up.**  After any sequence of puts, the payloads that an engine with
`n` levels stores are no more than `n - 1` for each key, the memory table and one block of L0,
however often the keys were put. -/
theorem space_bounded (hB : 1 ≤ B) (hmax : 2 * B < 2 ^ 31) (d : S.Disk) (ps : List KvsPayload) :
    Outcome
      (fun _ w => (storedPayloads w).length ≤ 2 * B + (w.index.numLevels - 1) * distinctKeys ps)
      Assumed (CapsuleDB.puts ps (spawnDB B d)) := by
  refine (puts_shallow hB hmax d ps).mono ?_ fun _ _ he => he
  rintro - w ⟨hw, hrun, -⟩
  rw [show w.index.numLevels = w.index.levels.length from hw.indexOk.numLevels_eq]
  exact length_storedPayloads_le hw hrun.calm fun k x hx => (hrun.source k x hx).1

/-- The theorem at a run that writes a key twice. -/
theorem space_bounded_sample :
    Outcome
      (fun _ w =>
        (storedPayloads w).length ≤ 2 * 1 + (w.index.numLevels - 1) * distinctKeys sampleRun)
      Assumed (CapsuleDB.puts sampleRun (spawnDB 1 [] : World memoryStore)) :=
  space_bounded (S := memoryStore) (B := 1) (by decide) (by decide) [] sampleRun

/-! ## Few keys -/

/-- **A sequence of puts with few keys** fails only if the block store does. -/
theorem puts_few (hB : 1 ≤ B) (d : S.Disk) (ps : List KvsPayload)
    (hfew : 12 * (distinctKeys ps + B) ≤ 2 ^ 31) :
    Outcome (fun _ w => Inv S B w ∧ RunInv ps w ∧ Shallow B ps w) (fun e _ => e = .io)
      (CapsuleDB.puts ps (spawnDB B d)) := by
  refine puts_outcome hB (by omega) d (P := fun ps w => RunInv ps w ∧ Shallow B ps w)
    ⟨RunInv.spawnDB d, fun h => ?_⟩ ps
    (fun _ _ _ _ _ hw h hp => ⟨h.1.step hp, h.2.step hw h.1 hp⟩) ?_
  · simp [spawnDB, CapsuleIndex.new] at h
  · rintro pre p w e w' hpre hw ⟨h, -⟩ (⟨-, hcramped, hfull⟩ | ⟨he, -⟩)
    · have hmono : distinctKeys pre ≤ distinctKeys ps :=
        distinctKeys_mono ((List.prefix_append _ _).trans hpre).subset
      have hkeys := hcramped.keys hw (fun k x hx => (h.source k x hx).1) hfull
      omega
    · exact he

/-- **With few keys no capacity ever overflows**: a sequence of puts fails only if the block store
does, whatever its length. -/
theorem few_keys_never_overflow (hB : 1 ≤ B) (d : S.Disk) (ps : List KvsPayload)
    (hfew : 12 * (distinctKeys ps + B) ≤ 2 ^ 31) :
    Outcome (fun _ _ => True) (fun e _ => e = .io) (CapsuleDB.puts ps (spawnDB B d)) :=
  (puts_few hB d ps hfew).mono (fun _ _ _ => trivial) fun _ _ he => he

/-- The theorem at a run of three keys. -/
theorem few_keys_never_overflow_sample :
    Outcome (fun _ _ => True) (fun e _ => e = .io)
      (CapsuleDB.puts sampleRun (spawnDB 1 [] : World memoryStore)) :=
  few_keys_never_overflow (S := memoryStore) (B := 1) (by decide) [] sampleRun
    (by unfold sampleRun; decide)

/-! ## Reads of blocks -/

/-- The store `S` with a count of the blocks that are read. -/
def countingStore (S : BlockStore) : BlockStore where
  Disk := S.Disk × ℕ
  putCapsuleBlock b := zoom Prod.fst (fun d t => (d, t.2)) (S.putCapsuleBlock b)
  getCapsuleBlock h := zoom Prod.fst (fun d t => (d, t.2 + 1)) (S.getCapsuleBlock h)
  stored d h := S.stored d.1 h
  put_spec b d := by
    apply (Outcome.zoom (S.put_spec b d.1)).mono
    · rintro h _ ⟨d', rfl, hd'⟩
      exact hd'
    · rintro e _ ⟨d', rfl, hd'⟩
      exact hd'
  get_spec h d := by
    apply (Outcome.zoom (S.get_spec h d.1)).mono
    · rintro b _ ⟨d', rfl, hd'⟩
      exact hd'
    · rintro e _ ⟨d', rfl, hd'⟩
      exact hd'

/-- A read counts as one. -/
theorem read_counts (h : Str) (d : (countingStore S).Disk) :
    Outcome (fun _ d' => d'.2 = d.2 + 1) (fun _ d' => d'.2 = d.2 + 1)
      ((readIn h : DiskM (countingStore S) CapsuleBlock) d) := by
  have hread : Outcome (fun _ _ => True) (fun _ _ => True) (S.getCapsuleBlock h d.1) := by
    cases S.getCapsuleBlock h d.1 <;> exact trivial
  have hzoom : Outcome (fun _ d' => ∃ s, d' = (s, d.2 + 1) ∧ True)
      (fun _ d' => ∃ s, d' = (s, d.2 + 1) ∧ True)
      (zoom Prod.fst (fun d' t => (d', t.2 + 1)) (S.getCapsuleBlock h) d) := Outcome.zoom hread
  apply hzoom.mono
  · rintro b _ ⟨d', rfl, -⟩
    rfl
  · rintro e _ ⟨d', rfl, -⟩
    rfl

/-- No more than `n` blocks have been read since `w`. -/
def ReadsAtMost (n : ℕ) (w w' : World (countingStore S)) : Prop := w'.disk.2 ≤ w.disk.2 + n

/-- **The search through the levels** reads one block for each of them at most. -/
theorem searchLevels_reads (k : Str) (is : List ℕ) (w : World (countingStore S)) :
    Outcome (fun _ w' => ReadsAtMost is.length w w') (fun _ w' => ReadsAtMost is.length w w')
      (CapsuleDB.searchLevels k is w) := by
  induction is generalizing w with
  | nil => exact Outcome.pure (Nat.le_refl _)
  | cons i is ih =>
    have hmore : ∀ (w₁ w' : World (countingStore S)), w₁.disk.2 ≤ w.disk.2 + 1 →
        ReadsAtMost is.length w₁ w' → ReadsAtMost (i :: is).length w w' := by
      intro w₁ w' h₁ h
      unfold ReadsAtMost at h ⊢
      rw [List.length_cons]
      omega
    have hrest : ∀ w₁ : World (countingStore S), w₁.disk.2 ≤ w.disk.2 + 1 →
        Outcome (fun _ w' => ReadsAtMost (i :: is).length w w')
          (fun _ w' => ReadsAtMost (i :: is).length w w') (CapsuleDB.searchLevels k is w₁) :=
      fun w₁ h₁ => (ih w₁).mono (fun _ w' h => hmore w₁ w' h₁ h) fun _ w' h => hmore w₁ w' h₁ h
    rw [CapsuleDB.searchLevels]
    apply Outcome.get_bind
    cases hinfo : w.index.getBlock i k with
    | error e => exact Nat.le_add_right _ _
    | ok info =>
      refine Outcome.lift_bind (Outcome.ite (fun _ => ?_) fun _ => hrest w (by omega))
      refine onIndex_bind (onDisk_spec (read_counts info w.disk)) ?_ ?_
      · rintro e _ ⟨d', rfl, hd'⟩
        exact hmore { w with disk := d' } _ hd'.le (Nat.le_add_right _ _)
      · rintro b _ ⟨d', rfl, hd'⟩
        cases CapsuleDB.scanPairs i k b.kvPairs with
        | some x => exact hmore { w with disk := d' } _ hd'.le (Nat.le_add_right _ _)
        | none => exact hrest _ hd'.le

/-- **A get reads one block of each level at most**, in any state. -/
theorem get_reads (k : Str) (w : World (countingStore S)) :
    Outcome (fun _ w' => ReadsAtMost w.index.numLevels w w')
      (fun _ w' => ReadsAtMost w.index.numLevels w w') (CapsuleDB.get k w) := by
  have hnone : ReadsAtMost w.index.numLevels w w := Nat.le_add_right _ _
  have hsearch := searchLevels_reads k (List.range w.index.numLevels) w
  rw [List.length_range] at hsearch
  unfold CapsuleDB.get
  apply Outcome.get_bind
  cases hkv : w.memtable.get k with
  | error e => exact hnone
  | ok kv =>
    refine Outcome.lift_bind (Outcome.ite (fun _ => ?_) fun _ => hnone)
    refine Outcome.get_bind (hsearch.bind (fun _ _ he => he) ?_)
    rintro r w' hr
    cases r <;> exact hr

/-- **The reads of a get are logarithmic in the number of keys.**  After any sequence of puts, a get
that reads `n` blocks, `n ≥ 3`, needs more than `(18 * 10 ^ (n - 3) - 1) * B` different keys, also
when it fails. -/
theorem get_reads_logarithmic (hB : 1 ≤ B) (hmax : 2 * B < 2 ^ 31) (d : S.Disk)
    (ps : List KvsPayload) (k : Str) :
    Outcome
      (fun _ w =>
        Outcome
          (fun _ w' => ∀ n, 3 ≤ n → w'.disk.2 = w.disk.2 + n →
            18 * 10 ^ (n - 3) * B < distinctKeys ps + B)
          (fun _ w' => ∀ n, 3 ≤ n → w'.disk.2 = w.disk.2 + n →
            18 * 10 ^ (n - 3) * B < distinctKeys ps + B)
          (CapsuleDB.get k w))
      Assumed (CapsuleDB.puts ps (spawnDB B (d, 0) : World (countingStore S))) := by
  refine (puts_shallow hB hmax _ ps).mono ?_ fun _ _ he => he
  rintro - w ⟨hw, -, hlevels⟩
  rw [Shallow, ← show w.index.numLevels = w.index.levels.length from hw.indexOk.numLevels_eq]
    at hlevels
  have hreads : ∀ w', ReadsAtMost w.index.numLevels w w' → ∀ n, 3 ≤ n →
      w'.disk.2 = w.disk.2 + n → 18 * 10 ^ (n - 3) * B < distinctKeys ps + B := by
    intro w' hle n hn heq
    unfold ReadsAtMost at hle
    have hpow : 10 ^ (n - 3) ≤ 10 ^ (w.index.numLevels - 3) :=
      Nat.pow_le_pow_right (by omega) (by omega)
    calc 18 * 10 ^ (n - 3) * B
        ≤ 18 * 10 ^ (w.index.numLevels - 3) * B :=
          Nat.mul_le_mul_right B (Nat.mul_le_mul_left 18 hpow)
      _ < distinctKeys ps + B := hlevels (by omega)
  exact (get_reads k w).mono (fun _ w' => hreads w') fun _ w' => hreads w'

/-- A get of `k` returns and reads `n` blocks. -/
def ReadsExactly (n : ℕ) (k : Str) (w : World (countingStore S)) : Prop :=
  Outcome (fun _ w' => w'.disk.2 = w.disk.2 + n) (fun _ _ => False) (CapsuleDB.get k w)

instance decidableReadsExactly (n : ℕ) (k : Str) (w : World (countingStore S)) :
    Decidable (ReadsExactly n k w) :=
  inferInstanceAs (Decidable (Outcome _ _ (CapsuleDB.get k w)))

set_option maxRecDepth 20000 in
/-- After the run there is a key whose get reads three blocks. -/
theorem deepRun_reads :
    Outcome (fun _ w => ReadsExactly 3 [15] w) (fun _ _ => False)
      (CapsuleDB.puts deepRun (spawnDB 2 ([], 0) : World (countingStore memoryStore))) := by
  unfold deepRun
  decide +kernel

/-- The theorem at a get that reads a block of each of three levels. -/
theorem get_reads_logarithmic_sample :
    Outcome
      (fun _ w =>
        Outcome
          (fun _ w' => w'.disk.2 = w.disk.2 + 3 ∧ ∀ n, 3 ≤ n → w'.disk.2 = w.disk.2 + n →
            18 * 10 ^ (n - 3) * 2 < distinctKeys deepRun + 2)
          (fun _ _ => False) (CapsuleDB.get [15] w))
      (fun _ _ => False)
      (CapsuleDB.puts deepRun (spawnDB 2 ([], 0) : World (countingStore memoryStore))) :=
  (deepRun_reads.and (get_reads_logarithmic (S := memoryStore) (B := 2) (by decide) (by decide) []
    deepRun [15])).mono
      (fun _ _ h => (h.1.and h.2).mono (fun _ _ h => h) fun _ _ h => h.1) fun _ _ h => h.1

end Capsule.Analysis
