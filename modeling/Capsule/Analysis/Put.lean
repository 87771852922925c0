import Capsule.Analysis.Flush

/-!
# One put

What one put does to the state of the engine, and what it leaves behind when it throws
(`put_spec`).  Everything that the laws of puts rest on is in this one statement: the invariant is
kept, and the column of every key takes a step of the library (`Column.Put`, `Column.Fail`).
-/

set_option autoImplicit false

namespace Capsule.Analysis

open Library Program Interface

variable {S : BlockStore} {B : ℕ} {w w₁ w' : World S} {p : KvsPayload}

/-- Running a computation of the index leaves the memory table alone. -/
theorem onIndex_bind {α β : Type} {Q : α → IndexState S → Prop} {E : Fault → IndexState S → Prop}
    {R : β → World S → Prop} {E' : Fault → World S → Prop} {x : IndexM S α} {f : α → EngineM S β}
    (hx : Outcome Q E (x (indexState w)))
    (hE : ∀ e s, E e s → E' e { w with index := s.index, disk := s.disk })
    (hf : ∀ a s, Q a s → Outcome R E' (f a { w with index := s.index, disk := s.disk })) :
    Outcome R E' ((onIndex x >>= f) w) := by
  refine Outcome.bind (Outcome.zoom hx) ?_ ?_
  · rintro e _ ⟨s, rfl, he⟩
    exact hE e s he
  · rintro a _ ⟨s, rfl, ha⟩
    exact hf a s ha

/-! ## Making room -/

/-- What making room does. -/
structure RoomMade (S : BlockStore) (B : ℕ) (w w' : World S) : Prop where
  inv : Inv S B w'
  /-- the memory table has room -/
  size_lt : w'.memtable.memtable.size < B
  /-- at most one level is added -/
  length_le : w'.index.levels.length ≤ w.index.levels.length + 1
  /-- L0 does not grow past one block -/
  calm : (headersAt (indexState w) 0).length ≤ 1 → (headersAt (indexState w') 0).length ≤ 1
  /-- every key sees a reorganisation -/
  reorg : ∀ k, Column.Reorg KvsPayload.txn_timestamp (column w k) (column w' k)
  /-- with a full memory table and a block in L0 it is a compaction -/
  compacted : B ≤ w.memtable.memtable.size → headersAt (indexState w) 0 ≠ [] →
    ∀ k, Column.Cascaded KvsPayload.txn_timestamp
      (handedOnFlush B w.memtable.memtable (indexState w) k) (column w k) (column w' k)
  /-- a full memory table is emptied into L0, whose blocks are compacted if there was one -/
  flushed : B ≤ w.memtable.memtable.size → w'.memtable.memtable.size = 0 ∧
    (headersAt (indexState w') 0).length = if headersAt (indexState w) 0 = [] then 1 else 0
  /-- with room in the memory table nothing happens -/
  idle : w.memtable.memtable.size < B → w' = w
  /-- no level below L0 is left without blocks -/
  stocked : StockedFrom 1 (indexState w) → StockedFrom 1 (indexState w')
  /-- with room in the memory table or an empty L0 no key sees a change -/
  quiet : w.memtable.memtable.size < B ∨ headersAt (indexState w) 0 = [] →
    ∀ k, (column w' k).top = (column w k).top
  /-- no stored block is lost -/
  keeps : Keeps S.stored w.disk w'.disk
  /-- a level is added below a crowded one only -/
  grown : w.index.levels.length < w'.index.levels.length → Crowded (indexState w)

/-- How a put may fail, and when: the memory table is full, and the next capacity overflows and is
needed, or the block store fails; then no stored block is lost, the memory table is as it was and
every key sees part of a compaction at most. -/
def PutFailure (S : BlockStore) (B : ℕ) (w : World S) (e : Fault) (w' : World S) : Prop :=
  (e = .overflow ∧ Cramped B (indexState w) ∧ B ≤ w.memtable.memtable.size) ∨
    (e = .io ∧ Inv S B w' ∧ Keeps S.stored w.disk w'.disk ∧ w'.memtable = w.memtable ∧
      ∀ k, Column.Fail KvsPayload.txn_timestamp (column w k) (column w' k))

/-- How a put may fail: a capacity overflows, or the block store fails; then the memory table is
as it was and every key sees part of a compaction at most. -/
def PutFault (S : BlockStore) (B : ℕ) (w : World S) (e : Fault) (w' : World S) : Prop :=
  e = .overflow ∨ (e = .io ∧ Inv S B w' ∧
    ∀ k, Column.Fail KvsPayload.txn_timestamp (column w k) (column w' k))

/-- The state after a failure that left the memory table alone. -/
theorem inv_withIndex (hw : Inv S B w) {s : IndexState S} (hs : IndexOk S B s) {l : Level}
    (hl : s.index.levels[0]? = some l) (ht : TopOk S s.disk B w.memtable.memtable l) :
    Inv S B { w with index := s.index, disk := s.disk } :=
  ⟨hw.max_size_eq, hw.keyed, hw.locks, hw.size_le, hs, l, hl, ht⟩

/-- Nothing a key can see changes while the disk only gains blocks. -/
theorem columnOf_keeps {s : IndexState S} {d' : S.Disk} (hs : IndexOk S B s) {l : Level}
    {m : SortedMap Str KvsPayload} (hl : s.index.levels[0]? = some l) (ht : TopOk S s.disk B m l)
    (hk : Keeps S.stored s.disk d') (mem : Option KvsPayload) (k : Str) :
    columnOf mem { s with disk := d' } k = columnOf mem s k := by
  unfold columnOf
  congr 1
  · have hr := Rewritten.of_keeps hk ht.headersOk ht.storedAt
    rw [headersAt_disk, headersAt_eq hl]
    exact hr.map_find k
  · funext i
    rw [hs.levelRun_keeps hk (by omega)]

/-- **Making room in the memory table.** -/
theorem writeOutIfFull_spec (hB : 1 ≤ B) (hw : Inv S B w) :
    Outcome (fun _ w' => RoomMade S B w w') (PutFailure S B w) (writeOutIfFull w) := by
  obtain ⟨l, hl, ht⟩ := hw.top
  unfold writeOutIfFull
  apply Outcome.get_bind
  rw [hw.max_size_eq]
  refine Outcome.ite (fun hfull => ?_) fun hroom => ?_
  · have hsize : w.memtable.memtable.size = B := le_antisymm hw.size_le hfull
    cases hes : w.memtable.memtable.entries with
    | nil =>
      simp only [SortedMap.size, hes, List.length_nil] at hsize
      omega
    | cons first rest =>
      simp only [← hes]
      have hput := S.put_spec (Memtable.toBlock first.1 w.memtable.memtable.entries) w.disk
      have hlvl : (Memtable.toBlock first.1 w.memtable.memtable.entries).level = 0 := by
        rw [toBlock_eq]
        exact level_blockOf 0 _
      have hkv : (Memtable.toBlock first.1 w.memtable.memtable.entries).kvPairs =
          w.memtable.memtable.values := by
        rw [toBlock_eq]
        exact kvPairs_blockOf 0 _
      refine onIndex_bind (onDisk_spec hput) ?_ ?_
      · rintro e _ ⟨d₁, rfl, he, hk⟩
        refine Or.inr ⟨he, inv_withIndex hw (hw.indexOk.keeps hk) hl (ht.keeps hk), hk, rfl,
          fun k => ?_⟩
        have hsame : column { w with disk := d₁ } k = column w k :=
          columnOf_keeps hw.indexOk hl ht hk _ k
        exact hsame.symm ▸ Column.Fail.refl _
      rintro hash _ ⟨d₁, rfl, hne, hk, b, hb, hlvl', hkv'⟩
      have hs₁ := hw.indexOk.keeps hk
      have hcol := columnOf_keeps hw.indexOk hl ht hk
      refine onIndex_bind (addHash_spec hB hs₁ hl (ht.keeps hk) hw.keyed hsize
        (ranged_toBlock hw.keyed hes) (startKey_toBlock_le hw.keyed hes) hne hb
        (hlvl'.trans hlvl) (hkv'.trans hkv)) ?_ ?_
      · rintro e s (⟨he, hcramped⟩ | ⟨he, hs, hk', ⟨l', hl', ht'⟩, hfail⟩)
        · exact Or.inl ⟨he, hcramped.congr rfl fun _ _ => rfl, hfull⟩
        · refine Or.inr ⟨he, inv_withIndex hw hs hl' ht', keeps_trans hk hk', rfl, fun k => ?_⟩
          have h := hfail k
          rw [hcol] at h
          exact h
      · rintro _ s htaken
        obtain ⟨l', hl', hone, ht'⟩ := htaken.top
        refine ⟨⟨hw.max_size_eq, Keyed.empty, fun k => ⟨fun _ => rfl, fun _ => rfl⟩, Nat.zero_le B,
          htaken.indexOk, l', hl', ht' _⟩, hB, htaken.length_le, fun _ => ?_, fun k => ?_,
          fun _ hne' k => ?_, fun _ => ⟨rfl, htaken.blocks⟩, fun hroom => absurd hfull (by omega),
          fun hst => htaken.stocked hst, fun hq k => ?_, keeps_trans hk htaken.keeps,
          fun hlt => (htaken.grown hlt).congr rfl fun _ _ => rfl⟩
        · exact (congrArg List.length (headersAt_eq hl')).le.trans hone
        · have h := htaken.reorg k
          rw [hcol] at h
          exact h
        · have h := htaken.compacted hne' k
          have hf : Filled S w.disk (headersAt (indexState w) 0) := by
            rw [headersAt_eq hl]
            exact ht.headersOk.filled
          rwa [hcol, handedOnFlush_keeps hw.indexOk hf hk] at h
        · have h := htaken.quiet (hq.resolve_left (by omega)) k
          rw [hcol] at h
          exact h
  · exact Outcome.pure ⟨hw, by omega, by omega, id, fun k => Column.Reorg.idle,
      fun hfull => absurd hfull (by omega), fun hfull => absurd hfull (by omega), fun _ => rfl, id,
      fun _ _ => rfl, keeps_refl _, fun hlt => absurd hlt (lt_irrefl _)⟩

/-! ## Filing the payload -/

/-- The version that a put of `p` brings to the key `k`. -/
def versionFor (p : KvsPayload) (k : Str) : Option KvsPayload := if p.key = k then some p else none

/-- The version that a put is for a key. -/
theorem versionFor_eq_some {k : Str} {x : KvsPayload} :
    versionFor p k = some x ↔ p = x ∧ p.key = k := by
  unfold versionFor
  split <;> simp [*]

/-- The put sets off a compaction: its key is not in the memory table, which is full, and L0 has a
block already. -/
def Compacts (w : World S) (p : KvsPayload) : Prop :=
  w.memtable.memtable.find? p.key = none ∧ w.memtable.max_size ≤ w.memtable.memtable.size ∧
    headersAt (indexState w) 0 ≠ []

/-- What a put does. -/
structure PutDone (S : BlockStore) (B : ℕ) (p : KvsPayload) (w w' : World S) : Prop where
  inv : Inv S B w'
  /-- at most one level is added -/
  length_le : w'.index.levels.length ≤ w.index.levels.length + 1
  /-- L0 does not grow past one block -/
  calm : (headersAt (indexState w) 0).length ≤ 1 → (headersAt (indexState w') 0).length ≤ 1
  /-- every key sees an insertion -/
  put : ∀ k, Column.Put KvsPayload.txn_timestamp (versionFor p k) (column w k) (column w' k)
  /-- a compaction, seen by any other key -/
  compacted : Compacts w p → ∀ k, p.key ≠ k → Column.Cascaded KvsPayload.txn_timestamp
    (handedOnFlush B w.memtable.memtable (indexState w) k) (column w k)
    (column w' k)
  /-- without a compaction no other key sees a change -/
  quiet : ¬ Compacts w p → ∀ k, p.key ≠ k → (column w' k).top = (column w k).top
  /-- a new key joins the memory table, which was emptied before if it was full -/
  fills : w.memtable.memtable.find? p.key = none →
    if w.memtable.memtable.size < B then
      w'.memtable.memtable.size = w.memtable.memtable.size + 1 ∧ indexState w' = indexState w
    else w'.memtable.memtable.size = 1 ∧
      (headersAt (indexState w') 0).length = if headersAt (indexState w) 0 = [] then 1 else 0
  /-- no level below L0 is left without blocks -/
  stocked : StockedFrom 1 (indexState w) → StockedFrom 1 (indexState w')
  /-- no stored block is lost -/
  keeps : Keeps S.stored w.disk w'.disk
  /-- a level is added below a crowded one only -/
  grown : w.index.levels.length < w'.index.levels.length → Crowded (indexState w)

/-- A put of another key is no version. -/
theorem versionFor_of_ne {k : Str} (h : p.key ≠ k) : versionFor p k = none := if_neg h

/-- The column of a key after a payload has been filed in the memory table. -/
theorem column_store (w : World S) (p : KvsPayload) (locks : SortedMap Str Unit) (k : Str) :
    column { w with memtable := { w.memtable with
      memtable := w.memtable.memtable.insert p.key p, locklst := locks } } k =
      { column w k with mem := (versionFor p k).or (column w k).mem } := by
  unfold column columnOf versionFor
  simp only [SortedMap.find?_insert]
  by_cases h : p.key = k
  · simp [h, indexState]
  · simp [h, Ne.symm h, indexState]

/-- **Overwriting** a version in the memory table is a put. -/
theorem overwrite_spec (hw : Inv S B w) {prev : KvsPayload}
    (hprev : w.memtable.memtable.find? p.key = some prev)
    (hlt : prev.txn_timestamp < p.txn_timestamp) :
    PutDone S B p w { w with memtable := w.memtable.store p } := by
  obtain ⟨l, hl, ht⟩ := hw.top
  have hsize := SortedMap.size_insert_of_some (v := p) hprev
  refine ⟨⟨hw.max_size_eq, hw.keyed.insert p, fun k => ?_, ?_, hw.indexOk, l, hl, ?_⟩, by simp,
    id, fun k => ?_, fun hc => absurd hc.1 (by simp [hprev]), fun _ k hk => ?_,
    fun hnone => absurd hnone (by simp [hprev]), id, keeps_refl _,
    fun hlt => absurd hlt (lt_irrefl _)⟩
  · simp only [Memtable.store, SortedMap.find?_insert]
    by_cases h : k = p.key
    · have hlock : w.memtable.locklst.find? p.key ≠ none := by
        rw [Ne, hw.locks, hprev]
        simp
      simp [h, hlock]
    · rw [if_neg h]
      exact hw.locks k
  · exact hsize.le.trans hw.size_le
  · refine ht.memtable (fun k hk => ?_) fun hne => hsize.trans (ht.full hne)
    simp only [Memtable.store, SortedMap.find?_insert]
    split
    · rfl
    · exact hk
  · have hcol : column { w with memtable := w.memtable.store p } k = _ :=
      column_store w p w.memtable.locklst k
    rw [hcol]
    by_cases h : p.key = k
    · subst h
      have hv : versionFor p p.key = some p := versionFor_eq_some.mpr ⟨rfl, rfl⟩
      rw [hv, Option.some_or]
      exact Column.Put.overwrite rfl hprev hlt
    · rw [versionFor_of_ne h, Option.none_or]
      exact Column.Put.insert (by simp)
  · have hcol : column { w with memtable := w.memtable.store p } k = _ :=
      column_store w p w.memtable.locklst k
    rw [hcol, versionFor_of_ne hk, Option.none_or]

/-- Filing a payload whose key is new to the memory table, once there is room. -/
theorem insert_spec (hw : Inv S B w) (hnew : w.memtable.memtable.find? p.key = none)
    (h : RoomMade S B w w₁) :
    PutDone S B p w { w₁ with memtable := { w₁.memtable with
      memtable := w₁.memtable.memtable.insert p.key p
      locklst := w₁.memtable.locklst.insert p.key () } } := by
  obtain ⟨l, hl, ht⟩ := h.inv.top
  refine ⟨⟨h.inv.max_size_eq, h.inv.keyed.insert p, fun k => ?_, ?_, h.inv.indexOk, l, hl, ?_⟩,
    h.length_le, h.calm, fun k => ?_, fun hc k hk => ?_, fun hc k hk => ?_, fun _ => ?_, h.stocked,
    h.keeps, h.grown⟩
  · simp only [SortedMap.find?_insert]
    by_cases hk : k = p.key
    · simp [hk]
    · rw [if_neg hk, if_neg hk]
      exact h.inv.locks k
  · exact (SortedMap.size_insert_le _ _ _).trans h.size_lt
  · refine ht.memtable (fun k hk => ?_) fun hne => absurd (ht.full hne) h.size_lt.ne
    simp only [SortedMap.find?_insert]
    split
    · rfl
    · exact hk
  · rw [column_store]
    apply (h.reorg k).put
    intro hv
    obtain ⟨x, hx⟩ := Option.isSome_iff_exists.mp hv
    obtain ⟨-, rfl⟩ := versionFor_eq_some.mp hx
    exact hnew
  · rw [column_store, versionFor_of_ne hk, Option.none_or]
    exact h.compacted (hw.max_size_eq ▸ hc.2.1) hc.2.2 k
  · rw [column_store, versionFor_of_ne hk, Option.none_or]
    refine h.quiet ?_ k
    by_contra hq
    rw [not_or, not_lt] at hq
    exact hc ⟨hnew, hw.max_size_eq ▸ hq.1, hq.2⟩
  · by_cases hsize : w.memtable.memtable.size < B
    · obtain rfl := h.idle hsize
      rw [if_pos hsize]
      exact ⟨SortedMap.size_insert_of_none hnew, rfl⟩
    · rw [if_neg hsize]
      obtain ⟨hzero, hblocks⟩ := h.flushed (not_lt.mp hsize)
      refine ⟨?_, hblocks⟩
      rw [SortedMap.size_insert_of_none (SortedMap.find?_of_size_zero hzero _), hzero]

/-- **One put of the engine**: the step lemma of everything that follows. -/
theorem put_outcome (hB : 1 ≤ B) (hw : Inv S B w) (p : KvsPayload) :
    Outcome (fun _ w' => PutDone S B p w w') (PutFailure S B w) (CapsuleDB.put p w) := by
  suffices h : Outcome (fun _ w' => PutDone S B p w w') (PutFailure S B w) (Memtable.put p w) from
    h.bind (fun _ _ he => he) fun _ _ hw' => hw'
  unfold Memtable.put
  apply Outcome.get_bind
  cases hlock : w.memtable.locklst.find? p.key with
  | some u =>
    have hmem : w.memtable.memtable.find? p.key ≠ none := by
      rw [Ne, ← hw.locks, hlock]
      simp
    obtain ⟨prev, hprev⟩ := Option.ne_none_iff_exists'.mp hmem
    simp only [hprev]
    refine Outcome.ite (fun hle => Outcome.pure ?_) fun hlt => ?_
    · -- the memory table has a version at least as new
      refine ⟨hw, by omega, id, fun k => ?_, fun hc => absurd hc.1 hmem, fun _ _ _ => rfl,
        fun hnone => absurd hnone hmem, id, keeps_refl _, fun hlt => absurd hlt (lt_irrefl _)⟩
      by_cases h : p.key = k
      · subst h
        exact Column.Put.discard (versionFor_eq_some.mpr ⟨rfl, rfl⟩) hprev hle
      · rw [versionFor_of_ne h]
        exact Column.Put.insert (c := column w k) (by simp)
    · exact overwrite_spec hw hprev (not_le.mp hlt)
  | none =>
    apply (writeOutIfFull_spec hB hw).bind (fun _ _ he => he)
    rintro - w₁ h₁
    exact insert_spec hw ((hw.locks _).mp hlock) h₁

/-- What goes wrong in a put is a fault of a run. -/
theorem PutFailure.weaken {e : Fault} (h : PutFailure S B w e w') : PutFault S B w e w' := by
  rcases h with ⟨he, -⟩ | ⟨he, hw', -, -, hfail⟩
  · exact Or.inl he
  · exact Or.inr ⟨he, hw', hfail⟩

/-- What most results need to know of a put that fails. -/
theorem put_spec (hB : 1 ≤ B) (hw : Inv S B w) (p : KvsPayload) :
    Outcome (fun _ w' => PutDone S B p w w') (PutFault S B w) (CapsuleDB.put p w) :=
  (put_outcome hB hw p).mono (fun _ _ h => h) fun _ _ he => he.weaken

end Capsule.Analysis
