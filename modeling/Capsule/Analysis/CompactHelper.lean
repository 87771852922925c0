import Capsule.Analysis.MergeSpec
import Capsule.Analysis.Select
import Capsule.Interface.LevelInvariant

/-!
# Merging a run into the levels

`compactHelper` merges a list of blocks into a level after making room there, if need be by
handing blocks of the level to the level below in the same way.  Seen by one key, the levels go
through a `cascade`: each level hands its version down or keeps it, and merges what it receives
with what it kept (`Pushed`).  Which blocks go down is settled before the push (`handedDown`).
What the recursion needs is small: the list is not longer than
the level above may be, so enough blocks can be handed down, and an empty level has room.

An exception leaves a prefix of this behind.  Every level has handed its blocks down before it
forgets them, so what is left is again a cascade, one without a source (`Shifted` with `[]`).
-/

set_option autoImplicit false

namespace Capsule.Analysis

open Library Program Interface

variable {S : BlockStore} {B d : ℕ} {s s₁ s₂ s' : IndexState S} {src : List BlockHeader}
  {hand : ℕ → List BlockHeader}

/-! ## Running computations of the index -/

/-- What follows a look at a level that is there. -/
theorem levelAt_bind {α : Type} {R : α → IndexState S → Prop} {E : Fault → IndexState S → Prop}
    {f : Level → IndexM S α} {l : Level} (hl : s.index.levels[d]? = some l)
    (h : Outcome R E (f l s)) : Outcome R E ((levelAt d >>= f) s) := by
  refine Outcome.bind (Q := fun l' s' => l' = l ∧ s' = s) (E := E) ?_ (fun _ _ he => he) ?_
  · unfold levelAt
    apply Outcome.get_bind
    rw [hl]
    exact Outcome.pure ⟨rfl, rfl⟩
  · rintro l' s' ⟨rfl, rfl⟩
    exact h

/-- A computation of the disk leaves the index alone. -/
theorem onDisk_spec {α : Type} {Q : α → S.Disk → Prop} {E : Fault → S.Disk → Prop} {x : DiskM S α}
    (hx : Outcome Q E (x s.disk)) :
    Outcome (fun a s' => ∃ d', s' = { s with disk := d' } ∧ Q a d')
      (fun e s' => ∃ d', s' = { s with disk := d' } ∧ E e d') (onDisk x s) := hx.zoom

/-- What follows a computation on the disk. -/
theorem onDisk_bind {α β : Type} {Q : α → S.Disk → Prop} {E : Fault → S.Disk → Prop}
    {R : β → IndexState S → Prop} {E' : Fault → IndexState S → Prop} {x : DiskM S α}
    {f : α → IndexM S β} (hx : Outcome Q E (x s.disk))
    (hE : ∀ e d', E e d' → E' e { s with disk := d' })
    (hf : ∀ a d', Q a d' → Outcome R E' (f a { s with disk := d' })) :
    Outcome R E' ((onDisk x >>= f) s) := by
  refine (onDisk_spec hx).bind ?_ ?_
  · rintro e _ ⟨d', rfl, he⟩
    exact hE e d' he
  · rintro a _ ⟨d', rfl, ha⟩
    exact hf a d' ha

/-! ## What a push does to the levels -/

/-- A list of blocks that can be merged into a level: in key order, none empty or larger than a full
one. -/
structure SourceOk (S : BlockStore) (d : S.Disk) (B : ℕ) (src : List BlockHeader) : Prop where
  filled : Filled S d src
  sorted : SortedRun (runOf S d src)
  size : ∀ h ∈ src, (contents S d h).length ≤ B

/-- A source stays well formed while the disk keeps its blocks. -/
theorem SourceOk.keeps {d d' : S.Disk} (hsrc : SourceOk S d B src) (hk : Keeps S.stored d d') :
    SourceOk S d' B src := by
  refine ⟨hsrc.filled.keeps hk, ?_, fun h hh => ?_⟩
  · rw [runOf_keeps hk hsrc.filled]
    exact hsrc.sorted
  · rw [contents_keeps hk (hsrc.filled h hh)]
    exact hsrc.size h hh

/-- A list of blocks has something to merge. -/
theorem SourceOk.run_ne {d : S.Disk} (hsrc : SourceOk S d B src) (hne : src ≠ []) :
    runOf S d src ≠ [] := by
  obtain ⟨h, hh⟩ := List.exists_mem_of_ne_nil _ hne
  obtain ⟨p, hp⟩ := List.exists_mem_of_ne_nil _ (hsrc.filled h hh)
  exact List.ne_nil_of_mem (mem_runOf.mpr ⟨h, hh, hp⟩)

/-- The version of the key `k` that each level hands down with its blocks. -/
def handedVersion (s : IndexState S) (hand : ℕ → List BlockHeader) (k : Str) (i : ℕ) :
    Option KvsPayload := find k (runOf S s.disk (hand i))

/-- Seen by every key, the levels from `d` on went through a cascade with the source `src`, where
the level `d + i` handed down the blocks `hand i`. -/
def Pushed (S : BlockStore) (d : ℕ) (src : List KvsPayload) (hand : ℕ → List BlockHeader)
    (s s' : IndexState S) : Prop :=
  ∀ k, ∃ keep : ℕ → Option KvsPayload,
    (∀ i, Splits (find k (levelRun s (d + i))) (handedVersion s hand k i) (keep i)) ∧
    ∀ i, find k (levelRun s' (d + i)) =
      cascade KvsPayload.txn_timestamp (find k src) (handedVersion s hand k) keep i

/-- No blocks at all. -/
def noBlocks (_ : ℕ) : List BlockHeader := []

/-- Where no level changes, nothing was pushed. -/
theorem Pushed.refl (h : ∀ i, levelRun s' (d + i) = levelRun s (d + i)) :
    Pushed S d [] noBlocks s s' := by
  intro k
  refine ⟨fun i => find k (levelRun s (d + i)), fun i => Or.inl ⟨rfl, rfl⟩, ?_⟩
  intro i
  rw [h]
  cases i <;> simp [cascade, handedVersion, noBlocks]

/-- The blocks handed down from a level and from those below it. -/
def handOver (new : List BlockHeader) (hand : ℕ → List BlockHeader) : ℕ → List BlockHeader
  | 0 => new
  | i + 1 => hand i

/-- A level that hands down the blocks `new` stands above a cascade with their run as source. -/
theorem Pushed.cons {new : List BlockHeader} (hdisk : s₁.disk = s.disk)
    (hrec : Pushed S (d + 1) (runOf S s.disk new) hand s₁ s₂)
    (hbefore : ∀ i, d < i → levelRun s₁ i = levelRun s i)
    (hafter : ∀ i, d < i → levelRun s' i = levelRun s₂ i)
    (hsplit : ∀ k, Splits (find k (levelRun s d)) (find k (runOf S s.disk new))
      (find k (levelRun s' d))) :
    Pushed S d [] (handOver new hand) s s' := by
  intro k
  obtain ⟨keep, hsp, heq⟩ := hrec k
  have hhand : ∀ i, handedVersion s₁ hand k i = handedVersion s (handOver new hand) k (i + 1) :=
    fun i => by rw [handedVersion, handedVersion, hdisk, handOver]
  refine ⟨fun i => i.casesOn (find k (levelRun s' d)) keep, fun i => ?_, fun i => ?_⟩
  · cases i with
    | zero => exact hsplit k
    | succ i =>
      have h := hsp i
      rwa [hbefore _ (by omega), hhand, show d + 1 + i = d + (i + 1) by omega] at h
  · cases i with
    | zero => simp [cascade]
    | succ i =>
      have h := heq i
      rw [← hafter _ (by omega), show d + 1 + i = d + (i + 1) by omega] at h
      rw [h]
      cases i with
      | zero => rfl
      | succ i => simp only [cascade, hhand]

/-- Merging the source into the top of a cascade without a source. -/
theorem Pushed.merge {run : List KvsPayload} (hp : Pushed S d [] hand s s₁)
    (hrun : SortedRun run) (hd : SortedRun (levelRun s₁ d))
    (hmerge : levelRun s' d = mergeRuns run (levelRun s₁ d))
    (hrest : ∀ i, d < i → levelRun s' i = levelRun s₁ i) : Pushed S d run hand s s' := by
  intro k
  obtain ⟨keep, hsp, heq⟩ := hp k
  refine ⟨keep, hsp, fun i => ?_⟩
  cases i with
  | zero =>
    have h := heq 0
    simp only [Nat.add_zero, cascade, find, lookup_nil, pick_none_left] at h ⊢
    rw [hmerge, lookup_mergeBy hrun hd, h]
  | succ i =>
    rw [hrest _ (by omega), heq (i + 1)]
    rfl

/-- The last level is so full that it has no room for as many blocks as the level above may have. -/
def Crowded (s : IndexState S) : Prop :=
  2 ≤ s.index.levels.length → 2 * 10 ^ (s.index.levels.length - 1) ≤
    2 * 10 ^ (s.index.levels.length - 2) + (headersAt s (s.index.levels.length - 1)).length

/-- A level is needed below a crowded one, and its capacity does not fit an `int`. -/
structure Cramped (B : ℕ) (s : IndexState S) : Prop where
  crowded : Crowded s
  next : 2 ^ 31 ≤ 2 * 10 ^ s.index.levels.length * B

/-- Both look at the number of levels and at the blocks below L0 only. -/
theorem Crowded.congr (h : Crowded s') (hlen : s'.index.levels.length = s.index.levels.length)
    (hhdr : ∀ i, 1 ≤ i → headersAt s' i = headersAt s i) : Crowded s := by
  intro htwo
  have h' := h (hlen ▸ htwo)
  rwa [hlen, hhdr _ (by omega)] at h'

/-- A cramped index stays so where the levels below L0 are the same. -/
theorem Cramped.congr (h : Cramped B s') (hlen : s'.index.levels.length = s.index.levels.length)
    (hhdr : ∀ i, 1 ≤ i → headersAt s' i = headersAt s i) : Cramped B s :=
  ⟨h.crowded.congr hlen hhdr, hlen ▸ h.next⟩

/-- Every level from `d` on has a block. -/
def StockedFrom (d : ℕ) (s : IndexState S) : Prop :=
  ∀ i, d ≤ i → i < s.index.levels.length → headersAt s i ≠ []

/-- Whether levels have blocks is seen from their headers. -/
theorem StockedFrom.congr (h : StockedFrom d s)
    (hlen : s'.index.levels.length = s.index.levels.length)
    (hhdr : ∀ i, d ≤ i → headersAt s' i = headersAt s i) : StockedFrom d s' := by
  intro i hi hlt
  rw [hhdr i hi]
  exact h i hi (hlen ▸ hlt)

/-- Replacing a level does not touch the blocks of those below. -/
theorem StockedFrom.putLevel (h : StockedFrom (d + 1) s) (hd : d < s.index.levels.length)
    {l : Level} : StockedFrom (d + 1) (s.putLevel d l) := by
  refine h.congr (by simp [IndexState.putLevel]) fun i hi => ?_
  rw [headersAt_putLevel hd, if_neg (by omega)]

/-- What a push into level `d` leaves: the invariant, the levels above `d`, all stored blocks,
and a cascade of the levels from `d` on. -/
structure Shifted (S : BlockStore) (B d : ℕ) (src : List KvsPayload) (hand : ℕ → List BlockHeader)
    (s s' : IndexState S) : Prop where
  indexOk : IndexOk S B s'
  keeps : Keeps S.stored s.disk s'.disk
  /-- the levels above are untouched -/
  above : ∀ i < d, s'.index.levels[i]? = s.index.levels[i]?
  length_ge : s.index.levels.length ≤ s'.index.levels.length
  /-- at most one level is added -/
  length_le : s'.index.levels.length ≤ s.index.levels.length + 1
  /-- none is added below an empty level -/
  length_eq : headersAt s d = [] → s'.index.levels.length = s.index.levels.length
  /-- one is added below a crowded level only -/
  grown : s.index.levels.length < s'.index.levels.length → Crowded s
  /-- a level hands down blocks it has -/
  handed : ∀ i, hand i ⊆ headersAt s (d + i)
  /-- the versions move down in a cascade -/
  pushed : Pushed S d src hand s s'

/-- The same level has the same blocks. -/
theorem headersAt_congr {i : ℕ} (h : s'.index.levels[i]? = s.index.levels[i]?) :
    headersAt s' i = headersAt s i := by
  unfold headersAt
  rw [h]

/-- The same blocks on the same disk have the same pairs. -/
theorem levelRun_congr {i : ℕ} (hdisk : s'.disk = s.disk)
    (h : headersAt s' i = headersAt s i) : levelRun s' i = levelRun s i := by
  unfold levelRun
  rw [hdisk, h]

/-- How a push may fail: a capacity overflows, or the block store fails and leaves a cascade
without a source. -/
def PushFault (S : BlockStore) (B d : ℕ) (s : IndexState S) (e : Fault) (s' : IndexState S) :
    Prop :=
  (e = .overflow ∧ Cramped B s) ∨ (e = .io ∧ ∃ hand, Shifted S B d [] hand s s')

/-! ## Merging into a level that has room -/

/-- **A merge into a level with room** replaces its blocks by those of the merged run. -/
theorem mergeInto_spec (hB : 1 ≤ B) (hs : IndexOk S B s) (hd : 1 ≤ d) {l : Level}
    (hl : s.index.levels[d]? = some l) (hsrc : SourceOk S s.disk B src) (hne : src ≠ [])
    (hroom : src.length + l.recordHashes.length < 2 * 10 ^ d) :
    Outcome (fun _ s' => IndexOk S B s' ∧ Keeps S.stored s.disk s'.disk ∧
        (∃ l', s'.index.levels = s.index.levels.set d l') ∧
        levelRun s' d = mergeRuns (runOf S s.disk src) (levelRun s d))
      (fun e s' => e = .io ∧ ∃ d', Keeps S.stored s.disk d' ∧ s' = { s with disk := d' })
      (mergeInto src d s) := by
  have hlOk := hs.levelOk d l hd hl
  have hrun : levelRun s d = runOf S s.disk l.recordHashes := by
    rw [levelRun, headersAt_eq hl]
  have hlt : d < s.index.levels.length := (List.getElem?_eq_some_iff.mp hl).1
  unfold mergeInto
  refine Outcome.get_bind (levelAt_bind hl ?_)
  rw [hs.blocksize_eq]
  refine onDisk_bind (merge_spec hB hne hsrc.filled hlOk.headersOk.filled d) ?_ ?_
  · rintro e d' ⟨he, hk⟩
    exact ⟨he, d', hk, rfl⟩
  · rintro out d' ⟨hk, hcut⟩
    refine levelAt_bind hl (Outcome.pure ?_)
    have hkept := hs.keeps hk
    have hlOk' := hkept.levelOk d l hd hl
    -- the output is in key order
    have hsorted : SortedRun (runOf S d' out) := by
      rw [hcut.run_eq]
      exact hsrc.sorted.mergeBy hlOk.sorted
    have hblocks := (sortedRun_runOf_iff.mp hsorted).1
    -- no more blocks come out than went in
    have hcount : out.length ≤ src.length + l.recordHashes.length := by
      apply hcut.length_le
      have hsum : (mergeRuns (runOf S s.disk src) (runOf S s.disk l.recordHashes)).length ≤ _ :=
        length_mergeBy_le _ _
      have hsrcLen := length_runOf_le hsrc.size
      have hdestLen := length_runOf_le fun h hh => hlOk.size_le (h := h) hh
      rw [Nat.add_mul]
      omega
    refine ⟨hkept.putLevel fun _ => ?_, hk, ⟨_, rfl⟩, ?_⟩
    · exact ⟨hlOk'.index_eq, hlOk'.maxSize_eq, hlOk'.maxSize_lt, rfl,
        fun h hh => (hcut.written h hh).headerOk (hblocks h hh) (hcut.filled h hh),
        fun h hh => (hcut.written h hh).storedAt, hsorted, hcut.fullCut, by
          show out.length < _
          omega, fun h hh => (hcut.written h hh).minKey_eq⟩
    · rw [levelRun, headersAt_putLevel (by exact hlt), if_pos rfl, hrun]
      exact hcut.run_eq

/-! ## Making room -/

/-- The capacity of a new level is ten times the last one, or does not fit. -/
theorem mulInt_capacity (n B : ℕ) :
    (mulInt (2 * 10 ^ n * B : ℕ) 10 = .ok (2 * 10 ^ (n + 1) * B : ℕ) ∧
      2 * 10 ^ (n + 1) * B < 2 ^ 31) ∨
    (mulInt (2 * 10 ^ n * B : ℕ) 10 = .error .overflow ∧ 2 ^ 31 ≤ 2 * 10 ^ (n + 1) * B) := by
  have hpow : ((2 * 10 ^ n * B : ℕ) : Int) * 10 = (2 * 10 ^ (n + 1) * B : ℕ) := by
    push_cast
    ring
  unfold mulInt
  rw [hpow]
  generalize 2 * 10 ^ (n + 1) * B = size
  by_cases h : size < 2 ^ 31
  · exact Or.inl ⟨if_pos (by omega), h⟩
  · exact Or.inr ⟨if_neg (by omega), by omega⟩

/-- The test of `compactHelper` counts blocks. -/
theorem overflows_iff (hB : 1 ≤ B) {l : Level} (hl : LevelOk S s.disk B d l) :
    B * src.length + B * l.recordHashes.length ≥ toSizeT l.maxSize ↔
      2 * 10 ^ d ≤ src.length + l.recordHashes.length := by
  rw [hl.toSizeT_maxSize, ← Nat.mul_add, mul_comm _ B]
  exact Nat.mul_le_mul_left_iff (by omega)

/-- The levels from one on are this one and those below. -/
theorem drop_of_getElem? {l : Level} (hl : s.index.levels[d]? = some l) :
    s.index.levels.drop d = l :: s.index.levels.drop (d + 1) := by
  obtain ⟨hlt, rfl⟩ := List.getElem?_eq_some_iff.mp hl
  exact List.drop_eq_getElem_cons hlt

/-- What the recursive call is asked to do: push the list into a level that exists, where the
list is no longer than the level above may be, with fuel down to one level below the last. -/
def CompactsBelow (S : BlockStore) (B fuel : ℕ)
    (compactBelow : List BlockHeader → ℕ → IndexM S Unit) : Prop :=
  ∀ (s : IndexState S) (src : List BlockHeader) (d : ℕ), IndexOk S B s → 1 ≤ d →
    d < s.index.levels.length → SourceOk S s.disk B src → src ≠ [] → src.length ≤ 2 * 10 ^ (d - 1) →
    (s.index.levels.length + 1 ≤ d + fuel ∨ (1 ≤ fuel ∧ headersAt s d = [])) →
    Outcome (fun _ s' => Shifted S B d (runOf S s.disk src)
        (handedDown B src (s.index.levels.drop d)) s s' ∧
        (StockedFrom (d + 1) s → StockedFrom d s')) (PushFault S B d s) (compactBelow src d s)

/-- A level with room hands nothing down, nor does any level below it. -/
theorem handedDown_of_room (hB : 1 ≤ B) (hs : IndexOk S B s) (hd : 1 ≤ d) {l : Level}
    (hl : s.index.levels[d]? = some l) (hroom : src.length + l.recordHashes.length < 2 * 10 ^ d) :
    handedDown B src (s.index.levels.drop d) = noBlocks := by
  funext i
  have htest := (overflows_iff (s := s) hB (hs.levelOk d l hd hl)).not.mpr (not_le.mpr hroom)
  rw [drop_of_getElem? hl, handedDown, if_neg htest]
  rfl

/-- Where there is no level nothing is handed down. -/
theorem handedDown_of_length_le (h : s.index.levels.length ≤ d) :
    handedDown B src (s.index.levels.drop d) = noBlocks := by
  rw [List.drop_eq_nil_of_le h]
  rfl

/-- The state `s₁` is the state `s`, or that with an empty level `d` appended because there was
none: the level `d` exists now. -/
structure Grown (S : BlockStore) (B d : ℕ) (s s₁ : IndexState S) : Prop where
  indexOk : IndexOk S B s₁
  disk_eq : s₁.disk = s.disk
  headers : ∀ i, headersAt s₁ i = headersAt s i
  isPrefix : s.index.levels <+: s₁.index.levels
  levels_lt : d < s₁.index.levels.length
  length_eq : s₁.index.levels.length = s.index.levels.length ∨
    (s.index.levels.length ≤ d ∧ s₁.index.levels.length = s.index.levels.length + 1)

/-- Appending a level when there is none below. -/
theorem addLevelIf_spec (hs : IndexOk S B s) {needed : Prop} [Decidable needed]
    {size : Except Fault Int} (hd : d ≤ s.index.levels.length)
    (hneeded : needed ↔ s.index.levels.length ≤ d)
    (hsize : needed → size = mulInt (2 * 10 ^ (d - 1) * B : ℕ) 10) :
    Outcome (fun _ s' => Grown S B d s s')
      (fun e _ => e = .overflow ∧ s.index.levels.length ≤ d ∧
        2 ^ 31 ≤ 2 * 10 ^ s.index.levels.length * B)
      (addLevelIf needed size s) := by
  have hpos := hs.levels_pos
  unfold addLevelIf
  refine Outcome.ite (fun hc => ?_) fun hc => Outcome.pure ?_
  · obtain ⟨n, rfl⟩ : ∃ n, d = n + 1 := ⟨d - 1, by have := hneeded.mp hc; omega⟩
    have hlen : s.index.levels.length = n + 1 := Nat.le_antisymm (hneeded.mp hc) hd
    rw [Nat.add_sub_cancel] at hsize
    rcases mulInt_capacity n B with ⟨heq, hlt⟩ | ⟨heq, hge⟩
    · rw [hsize hc, heq]
      have hgrow := hs.growLevel (by rwa [hlen])
      rw [hlen] at hgrow
      refine Outcome.pure
        ⟨hgrow, rfl, fun i => headersAt_growLevel _, List.prefix_append _ _, ?_, ?_⟩
      · simp [IndexState.growLevel, hlen]
      · exact Or.inr ⟨hneeded.mp hc, by simp [IndexState.growLevel]⟩
    · rw [hsize hc, heq]
      exact ⟨rfl, hlen.le, hlen ▸ hge⟩
  · have hlt : d < s.index.levels.length := not_le.mp (hneeded.not.mp hc)
    exact ⟨hs, rfl, fun _ => rfl, List.prefix_rfl, hlt, Or.inl rfl⟩

namespace Grown

/-- Adding a level changes none of the others. -/
theorem getElem? (h : Grown S B d s s₁) {i : ℕ} (hi : i < s.index.levels.length) :
    s₁.index.levels[i]? = s.index.levels[i]? := by
  obtain ⟨t, ht⟩ := h.isPrefix
  rw [← ht]
  exact List.getElem?_append_left hi

/-- A level that has been added is empty. -/
theorem headersAt_nil (h : Grown S B d s s₁) (hd : s.index.levels.length ≤ d) :
    headersAt s₁ d = [] := by
  rw [h.headers]
  exact headersAt_of_length_le hd

/-- A push adds no level below one that has just been added. -/
theorem length_le (h : Grown S B d s s₁) {run : List KvsPayload}
    (hsh : Shifted S B d run hand s₁ s₂) :
    s₂.index.levels.length ≤ s.index.levels.length + 1 := by
  have hle := hsh.length_le
  rcases h.length_eq with heq | ⟨hd, heq⟩
  · omega
  · have := hsh.length_eq (h.headersAt_nil hd)
    omega

/-- What is crowded after the step was so before: a level that has been added is empty. -/
theorem crowded (h : Grown S B d s s₁) (hpos : 0 < s.index.levels.length) (hc : Crowded s₁)
    (htwo : 2 ≤ s₁.index.levels.length) :
    Crowded s ∧ s₁.index.levels.length = s.index.levels.length := by
  rcases h.length_eq with heq | ⟨hle, heq⟩
  · exact ⟨hc.congr heq fun i _ => h.headers i, heq⟩
  · have hfull := hc htwo
    obtain ⟨n, hn⟩ : ∃ n, s.index.levels.length = n + 1 := ⟨s.index.levels.length - 1, by omega⟩
    have hlast : headersAt s₁ (s₁.index.levels.length - 1) = [] := by
      rw [h.headers]
      exact headersAt_of_length_le (by omega)
    have hpow : 0 < 10 ^ n := by positivity
    rw [hlast, List.length_nil, heq, hn, Nat.add_sub_cancel, show n + 1 + 1 - 2 = n by omega,
      pow_succ] at hfull
    omega

/-- The levels below a new one have blocks: there are none. -/
theorem stocked (h : Grown S B d s s₁) (hs : StockedFrom d s) : StockedFrom (d + 1) s₁ := by
  intro i hi hlt
  rw [h.headers]
  apply hs i (by omega)
  rcases h.length_eq with heq | ⟨hle, heq⟩ <;> omega

/-- Appending an empty level changes nothing that is handed down, if the source fits into it. -/
theorem handedDown_eq (h : Grown S B d s s₁) (hB : 1 ≤ B) (hd : 1 ≤ d)
    (hsrc : src.length < 2 * 10 ^ d) :
    handedDown B src (s₁.index.levels.drop d) = handedDown B src (s.index.levels.drop d) := by
  rcases h.length_eq with hlen | ⟨hlen, -⟩
  · rw [h.isPrefix.eq_of_length hlen.symm]
  · rw [handedDown_of_length_le hlen]
    obtain ⟨l, hl⟩ : ∃ l, s₁.index.levels[d]? = some l :=
      ⟨_, List.getElem?_eq_getElem h.levels_lt⟩
    have hnil : l.recordHashes = [] := by
      rw [← headersAt_eq hl, h.headersAt_nil hlen]
    exact handedDown_of_room hB h.indexOk hd hl (by simpa [hnil] using hsrc)

end Grown

/-- A push into the levels below `d`, from a state `s₁` that differs from `s` by a new level at
most, followed by an assignment to level `d` that hands down `new`. -/
theorem Shifted.extend {new : List BlockHeader}
    (h : Shifted S B (d + 1) (runOf S s.disk new) hand s₁ s₂) (hg : Grown S B (d + 1) s s₁)
    (hdlt : d < s.index.levels.length) (hdest : headersAt s d ≠ [])
    (hlast : s.index.levels.length ≤ d + 1 → Crowded s) (hnew : new ⊆ headersAt s d)
    (hs' : IndexOk S B s') (hdisk' : s'.disk = s₂.disk)
    (hlen' : s'.index.levels.length = s₂.index.levels.length)
    (hother : ∀ i, i ≠ d → s'.index.levels[i]? = s₂.index.levels[i]?)
    (hsplit : ∀ k, Splits (find k (levelRun s d)) (find k (runOf S s.disk new))
      (find k (levelRun s' d))) :
    Shifted S B d [] (handOver new hand) s s' := by
  have hlge := h.length_ge
  have hlle := hg.length_le h
  have hge := hg.isPrefix.length_le
  refine ⟨hs', ?_, fun i hi => ?_, by omega, by omega, fun he => absurd he hdest, fun hlt => ?_,
    fun i => ?_, ?_⟩
  · rw [hdisk', ← hg.disk_eq]
    exact h.keeps
  · rw [hother i hi.ne, h.above i (by omega), hg.getElem? (hi.trans hdlt)]
  · rcases hg.length_eq with heq | ⟨hle, -⟩
    · exact (h.grown (by omega)).congr heq fun i _ => hg.headers i
    · exact hlast hle
  · cases i with
    | zero => exact hnew
    | succ i =>
      rw [← hg.headers, show d + (i + 1) = d + 1 + i by omega]
      exact h.handed i
  · exact h.pushed.cons hg.disk_eq (fun i _ => levelRun_congr hg.disk_eq (hg.headers i))
      (fun i hi => levelRun_congr hdisk' (headersAt_congr (hother i hi.ne'))) hsplit

/-- What a level hands down when it makes room for the list. -/
theorem handedDown_of_over (hB : 1 ≤ B) (hs : IndexOk S B s) (hd : 1 ≤ d) {l : Level}
    (hl : s.index.levels[d]? = some l) (hover : 2 * 10 ^ d ≤ src.length + l.recordHashes.length)
    {new rem : List BlockHeader} (hsel : selectBlocks src l.recordHashes = .ok (new, rem)) :
    handedDown B src (s.index.levels.drop d) =
      handOver new (handedDown B new (s.index.levels.drop (d + 1))) := by
  rw [drop_of_getElem? hl]
  funext i
  rw [handedDown, if_pos ((overflows_iff hB (hs.levelOk d l hd hl)).mpr hover), hsel]
  cases i <;> rfl

/-- The last level is asked for room only when it is crowded. -/
theorem crowded_of_over (hd : 1 ≤ d) {l : Level} (hl : s.index.levels[d]? = some l)
    (hlen : src.length ≤ 2 * 10 ^ (d - 1)) (hover : 2 * 10 ^ d ≤ src.length + l.recordHashes.length)
    (hle : s.index.levels.length ≤ d + 1) : Crowded s := by
  intro _
  have hdlt : d < s.index.levels.length := (List.getElem?_eq_some_iff.mp hl).1
  rw [show s.index.levels.length = d + 1 by omega, Nat.add_sub_cancel, headersAt_eq hl,
    show d + 1 - 2 = d - 1 by omega]
  have hpow : (10 : ℕ) ^ d = 10 * 10 ^ (d - 1) := by
    obtain ⟨n, rfl⟩ : ∃ n, d = n + 1 := ⟨d - 1, by omega⟩
    rw [Nat.add_sub_cancel, pow_succ, mul_comm]
  omega

/-- **Making room in a level** hands at least as many blocks down as are to come in. -/
theorem pushDown_spec (hB : 1 ≤ B) {fuel : ℕ} {compactBelow : List BlockHeader → ℕ → IndexM S Unit}
    (hbelow : CompactsBelow S B fuel compactBelow) (hs : IndexOk S B s) (hd : 1 ≤ d) {l : Level}
    (hl : s.index.levels[d]? = some l) (hne : src ≠ []) (hlen : src.length ≤ 2 * 10 ^ (d - 1))
    (hover : 2 * 10 ^ d ≤ src.length + l.recordHashes.length)
    (hfuel : s.index.levels.length ≤ d + fuel) :
    Outcome (fun _ s' => Shifted S B d [] (handedDown B src (s.index.levels.drop d)) s s' ∧
        (StockedFrom (d + 1) s → StockedFrom (d + 1) s') ∧
        ∃ l', s'.index.levels[d]? = some l' ∧ src.length + l'.recordHashes.length < 2 * 10 ^ d)
      (PushFault S B d s) (pushDown compactBelow src d s) := by
  have hlOk := hs.levelOk d l hd hl
  have hdlt : d < s.index.levels.length := (List.getElem?_eq_some_iff.mp hl).1
  have hhdr : headersAt s d = l.recordHashes := headersAt_eq hl
  have hpow : (10 : ℕ) ^ d = 10 * 10 ^ (d - 1) := by
    obtain ⟨n, rfl⟩ : ∃ n, d = n + 1 := ⟨d - 1, by omega⟩
    rw [Nat.add_sub_cancel, pow_succ, mul_comm]
  have hsrcPos := List.length_pos_iff.mpr hne
  -- the level has enough blocks to hand down
  have henough : src.length ≤ l.recordHashes.length := by omega
  have hdest : headersAt s d ≠ [] := by
    rw [hhdr, ← List.length_pos_iff]
    omega
  have hlast : s.index.levels.length ≤ d + 1 → Crowded s := crowded_of_over hd hl hlen hover
  unfold pushDown
  refine levelAt_bind hl (Outcome.get_bind ?_)
  rw [hlOk.index_eq, hs.numLevels_eq]
  refine (addLevelIf_spec (d := d + 1) hs hdlt Iff.rfl fun _ => ?_).bind
    (fun _ _ he => Or.inl ⟨he.1, hlast he.2.1, he.2.2⟩) ?_
  · rw [hlOk.maxSize_eq, Nat.add_sub_cancel]
  rintro - s₁ hg
  obtain ⟨new, rem, hsel, hperm, hsub, hmany, -⟩ := selectBlocks_spec henough
  obtain ⟨hnew, -, hsplit⟩ := selectBlocks_runs henough hlOk.headersOk hlOk.sorted hsel
  have hcount := hperm.length_eq
  rw [List.length_append] at hcount
  have hmem : ∀ h ∈ new, h ∈ l.recordHashes := fun h hh => hperm.subset (List.mem_append_left _ hh)
  have hlmax := hlOk.length_lt
  rw [hsel]
  -- the recursive call
  have hsource : SourceOk S s₁.disk B new := by
    rw [hg.disk_eq]
    exact ⟨fun h hh => (hlOk.headersOk h (hmem h hh)).contents_ne, hnew,
      fun h hh => hlOk.size_le (hmem h hh)⟩
  have hfuel₁ : s₁.index.levels.length + 1 ≤ d + 1 + fuel ∨
      (1 ≤ fuel ∧ headersAt s₁ (d + 1) = []) := by
    rcases hg.length_eq with heq | ⟨hle, heq⟩
    · exact Or.inl (by omega)
    · exact Or.inr ⟨by omega, hg.headersAt_nil hle⟩
  have hrec := hbelow s₁ new (d + 1) hg.indexOk (by omega) hg.levels_lt hsource
    (List.length_pos_iff.mp (by omega)) (by rw [Nat.add_sub_cancel]; omega) hfuel₁
  have hplan : handOver new (handedDown B new (s₁.index.levels.drop (d + 1))) =
      handedDown B src (s.index.levels.drop d) := by
    rw [hg.handedDown_eq hB (by omega) (by rw [pow_succ]; omega),
      handedDown_of_over hB hs hd hl hover hsel]
  have hrun : levelRun s d = runOf S s.disk l.recordHashes := by rw [levelRun, hhdr]
  have hl₂ : ∀ {run : List KvsPayload} {hand : ℕ → List BlockHeader} {s₂ : IndexState S},
      Shifted S B (d + 1) run hand s₁ s₂ → s₂.index.levels[d]? = some l := by
    intro run hand s₂ h
    exact (h.above d (by omega)).trans ((hg.getElem? hdlt).trans hl)
  refine hrec.bind ?_ ?_
  · rintro e s₂ (⟨he, hcramped⟩ | ⟨he, hand, h⟩)
    · obtain ⟨hcrowded, heq⟩ :=
        hg.crowded hs.levels_pos hcramped.crowded (by have := hg.levels_lt; omega)
      exact Or.inl ⟨he, hcrowded, heq ▸ hcramped.next⟩
    · -- the level has not been touched yet
      have h₀ : Shifted S B (d + 1) (runOf S s.disk []) hand s₁ s₂ := h
      refine Or.inr ⟨he, _, h₀.extend hg hdlt hdest hlast (List.nil_subset _) h.indexOk rfl rfl
        (fun _ _ => rfl) fun k => Or.inl ⟨rfl, ?_⟩⟩
      have hk : Keeps S.stored s.disk s₂.disk := hg.disk_eq ▸ h.keeps
      rw [hrun, levelRun, headersAt_eq (hl₂ h), runOf_keeps hk hlOk.headersOk.filled]
  · rintro - s₂ ⟨h, hstocked⟩
    have hk : Keeps S.stored s.disk s₂.disk := hg.disk_eq ▸ h.keeps
    have hlt₂ : d < s₂.index.levels.length := (List.getElem?_eq_some_iff.mp (hl₂ h)).1
    apply levelAt_bind (hl₂ h)
    have hrem' : levelRun (s₂.putLevel d (l.setBlocks rem)) d = runOf S s.disk rem := by
      rw [levelRun, headersAt_putLevel hlt₂, if_pos rfl]
      exact runOf_keeps hk fun h hh => (hlOk.headersOk h (hsub.subset hh)).contents_ne
    rw [hg.disk_eq] at h
    have hput : IndexOk S B (s₂.putLevel d (l.setBlocks rem)) :=
      h.indexOk.putLevel fun _ => (h.indexOk.levelOk d l hd (hl₂ h)).remaining hsub
    refine ⟨hplan ▸ h.extend hg hdlt hdest hlast (fun h hh => hhdr ▸ hmem h hh) hput rfl
      (by simp [IndexState.putLevel]) (fun i hi => ?_) fun k => ?_, fun hst => ?_, l.setBlocks rem,
      ?_, ?_⟩
    · simp [IndexState.putLevel, List.getElem?_set_ne hi.symm]
    · rw [hrem', hrun]
      exact hsplit k
    · exact (hstocked (hg.stocked hst)).putLevel hlt₂
    · simp [IndexState.putLevel, hlt₂]
    · show src.length + rem.length < _
      omega

/-- The merge that follows once the level has room. -/
theorem mergeInto_shifted (hB : 1 ≤ B) (hd : 1 ≤ d) (hsrc : SourceOk S s.disk B src)
    (hne : src ≠ []) (h : Shifted S B d [] hand s s₁) {l : Level}
    (hl : s₁.index.levels[d]? = some l)
    (hroom : src.length + l.recordHashes.length < 2 * 10 ^ d) :
    Outcome (fun _ s' => Shifted S B d (runOf S s.disk src) hand s s' ∧
        (StockedFrom (d + 1) s₁ → StockedFrom d s')) (PushFault S B d s)
      (mergeInto src d s₁) := by
  have hrun : runOf S s₁.disk src = runOf S s.disk src := runOf_keeps h.keeps hsrc.filled
  refine (mergeInto_spec hB h.indexOk hd hl (hsrc.keeps h.keeps) hne hroom).mono ?_ ?_
  · rintro - s' ⟨hs', hk, ⟨l', hset⟩, hmerge⟩
    have hother : ∀ i, i ≠ d → s'.index.levels[i]? = s₁.index.levels[i]? := fun i hi => by
      rw [hset, List.getElem?_set_ne hi.symm]
    have hlen : s'.index.levels.length = s₁.index.levels.length := by
      rw [hset, List.length_set]
    have hrest : ∀ i, d < i → levelRun s' i = levelRun s₁ i := fun i hi => by
      have hsame : headersAt s' i = headersAt s₁ i := headersAt_congr (hother i hi.ne')
      rw [levelRun, hsame]
      exact runOf_keeps hk (h.indexOk.headersOk (hd.trans hi.le)).filled
    refine ⟨⟨hs', keeps_trans h.keeps hk, fun i hi => ?_, hlen ▸ h.length_ge, hlen ▸ h.length_le,
      fun he => hlen ▸ h.length_eq he, fun hlt => h.grown (hlen ▸ hlt), h.handed, ?_⟩, ?_⟩
    · rw [hother i hi.ne, h.above i hi]
    · exact h.pushed.merge hsrc.sorted (h.indexOk.sorted hd) (hrun ▸ hmerge) hrest
    · intro hst i hi hlt
      rcases eq_or_lt_of_le hi with rfl | hlt'
      · -- the level holds the source now
        intro hnil
        rw [levelRun, hnil, runOf_nil] at hmerge
        have hsrcRun : runOf S s₁.disk src ≠ [] := hrun ▸ hsrc.run_ne hne
        exact mergeBy_ne_nil _ hsrcRun hmerge.symm
      · have hsame : headersAt s' i = headersAt s₁ i := headersAt_congr (hother i hlt'.ne')
        rw [hsame]
        exact hst i hlt' (hlen ▸ hlt)
  · rintro e _ ⟨he, d', hk, rfl⟩
    refine Or.inr ⟨he, hand, h.indexOk.keeps hk, keeps_trans h.keeps hk, h.above, h.length_ge,
      h.length_le, h.length_eq, h.grown, h.handed, fun k => ?_⟩
    obtain ⟨keep, hsp, heq⟩ := h.pushed k
    refine ⟨keep, hsp, fun i => ?_⟩
    rw [h.indexOk.levelRun_keeps hk (by omega), heq i]

/-- **Merging a list of blocks into a level**, with all that it pushes down.  By induction on the
fuel; the recursive call stands one level further down. -/
theorem compactHelper_spec (hB : 1 ≤ B) (fuel : ℕ) :
    CompactsBelow S B fuel (compactHelper fuel) := by
  induction fuel with
  | zero =>
    intro s src d hs hd hdlt hsrc hne hlen hfuel
    omega
  | succ fuel ih =>
    intro s src d hs hd hdlt hsrc hne hlen hfuel
    obtain ⟨l, hl⟩ : ∃ l, s.index.levels[d]? = some l := ⟨_, List.getElem?_eq_getElem hdlt⟩
    have hlOk := hs.levelOk d l hd hl
    have hpow : (10 : ℕ) ^ d = 10 * 10 ^ (d - 1) := by
      obtain ⟨n, rfl⟩ : ∃ n, d = n + 1 := ⟨d - 1, by omega⟩
      rw [Nat.add_sub_cancel, pow_succ, mul_comm]
    have htest : B * src.length + B * l.recordHashes.length ≥ toSizeT l.maxSize ↔
        2 * 10 ^ d ≤ src.length + l.recordHashes.length := overflows_iff hB hlOk
    rw [compactHelper]
    refine Outcome.get_bind (levelAt_bind hl ?_)
    rw [hs.blocksize_eq]
    refine Outcome.ite (fun hover => ?_) fun hroom => ?_
    · rw [htest] at hover
      -- an empty level never overflows
      have hfuel' : s.index.levels.length ≤ d + fuel := by
        rcases hfuel with h | ⟨-, h⟩
        · omega
        · rw [headersAt_eq hl] at h
          rw [h, List.length_nil] at hover
          have : 0 < 10 ^ (d - 1) := by positivity
          omega
      apply (pushDown_spec hB ih hs hd hl hne hlen hover hfuel').bind (fun _ _ he => he)
      rintro - s₁ ⟨h, hstocked, l', hl', hroom⟩
      refine (mergeInto_shifted hB hd hsrc hne h hl' hroom).mono ?_ fun _ _ he => he
      exact fun _ _ h' => ⟨h'.1, fun hst => h'.2 (hstocked hst)⟩
    · rw [htest, not_le] at hroom
      rw [handedDown_of_room hB hs hd hl hroom]
      have hrefl : Shifted S B d [] noBlocks s s := ⟨hs, keeps_refl _, fun _ _ => rfl, le_rfl,
        by omega, fun _ => rfl, fun h => absurd h (lt_irrefl _),
        fun _ => List.nil_subset _, Pushed.refl fun _ => rfl⟩
      exact mergeInto_shifted hB hd hsrc hne hrefl hl hroom

end Capsule.Analysis
