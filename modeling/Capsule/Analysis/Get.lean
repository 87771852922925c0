import Capsule.Analysis.Put

/-!
# One get

`get` looks into the memory table and then into at most one block of each level.  `plainSearch`
is what it is meant to compute: the version of the memory table, or else the first one in all the
pairs of all the levels, from the top.  For a non-empty key the two agree (`get_spec`): the block
of a level whose range covers the key is the only one that can hold it, and in L0, where ranges
may overlap, only the first block can hold a key that is not in the memory table.
-/

set_option autoImplicit false

namespace Capsule.Analysis

open Library Program Interface

variable {S : BlockStore} {B : ℕ} {w : World S} {k : Str}

/-- The search without an index: the memory table, then every pair of every level. -/
def plainSearch (w : World S) (k : Str) : Option KvsPayload :=
  (w.memtable.memtable.find? k).or
    ((List.range w.index.numLevels).findSome? fun i => find k (levelRun (indexState w) i))

/-! ## Looking into one block -/

/-- Below L0 the scan may stop at a larger key: the pairs are in key order. -/
theorem scanPairs_eq (i : ℕ) {ps : List KvsPayload} (hs : i ≠ 0 → SortedRun ps) :
    CapsuleDB.scanPairs i k ps = find k ps := by
  induction ps with
  | nil => rfl
  | cons p ps ih =>
    have htail : i ≠ 0 → SortedRun ps := fun hi => (List.pairwise_cons.mp (hs hi)).2
    rw [CapsuleDB.scanPairs, find, lookup_cons, ih htail]
    by_cases hstop : i ≠ 0 ∧ p.key > k
    · have hnone : lookup KvsPayload.key k ps = none := by
        rw [lookup_eq_none_iff]
        intro q hq
        exact (hstop.2.trans ((List.pairwise_cons.mp (hs hstop.1)).1 q hq)).ne'
      rw [if_pos hstop, if_neg hstop.2.ne', hnone]
    · rw [if_neg hstop]
      congr

/-- The block that the search of a level settles on: the first whose range covers the key. -/
theorem findCovering_spec (k : Str) (hs : List BlockHeader) :
    (Level.findCovering k hs.length hs = .ok [] ∧ ∀ h ∈ hs, ¬ (h.minKey ≤ k ∧ k ≤ h.maxKey)) ∨
    ∃ pre h post, hs = pre ++ h :: post ∧ Level.findCovering k hs.length hs = .ok h.hash ∧
      (h.minKey ≤ k ∧ k ≤ h.maxKey) ∧ ∀ g ∈ pre, ¬ (g.minKey ≤ k ∧ k ≤ g.maxKey) := by
  induction hs with
  | nil => exact Or.inl ⟨rfl, by simp⟩
  | cons g hs ih =>
    rw [List.length_cons, Level.findCovering]
    by_cases hg : g.minKey ≤ k ∧ k ≤ g.maxKey
    · exact Or.inr ⟨[], g, hs, rfl, if_pos hg, hg, by simp⟩
    · rw [if_neg hg]
      rcases ih with ⟨heq, hnone⟩ | ⟨pre, h, post, rfl, heq, hh, hpre⟩
      · exact Or.inl ⟨heq, List.forall_mem_cons.mpr ⟨hg, hnone⟩⟩
      · exact Or.inr ⟨g :: pre, h, post, rfl, heq, hh, List.forall_mem_cons.mpr ⟨hg, hpre⟩⟩

/-! ## Looking into one level -/

/-- The search of the level comes to `r`: the index points at no block, and `r` is nothing, or it
points at a block whose scan finds `r`. -/
def ComesTo (w : World S) (k : Str) (i : ℕ) (r : Option KvsPayload) (info : Str) : Prop :=
  (info = [] ∧ r = none) ∨
  ∃ h : BlockHeader, info = h.hash ∧ h.hash ≠ [] ∧ contents S w.disk h ≠ [] ∧
    CapsuleDB.scanPairs i k (contents S w.disk h) = r

/-- The search of the level comes to what the level holds for the key. -/
def Located (w : World S) (k : Str) (i : ℕ) (info : Str) : Prop :=
  ComesTo w k i (find k (levelRun (indexState w) i)) info

/-- A key is in none of the blocks exactly if each of them lacks it. -/
theorem find_runOf_eq_none {d : S.Disk} {hs : List BlockHeader} :
    find k (runOf S d hs) = none ↔ ∀ h ∈ hs, find k (contents S d h) = none := by
  simp only [find, lookup_eq_none_iff, mem_runOf]
  constructor
  · intro h g hg x hx
    exact h x ⟨g, hg, hx⟩
  · rintro h x ⟨g, hg, hx⟩
    exact h g hg x hx

/-- A key that only one of the blocks has is found there. -/
theorem find_runOf_split {d : S.Disk} {pre post : List BlockHeader} {h : BlockHeader}
    (hpre : ∀ g ∈ pre, find k (contents S d g) = none)
    (hpost : ∀ g ∈ post, find k (contents S d g) = none) :
    find k (runOf S d (pre ++ h :: post)) = find k (contents S d h) := by
  rw [runOf_append, runOf_cons, find, lookup_append, lookup_append]
  have h₁ : lookup KvsPayload.key k (runOf S d pre) = none := find_runOf_eq_none.mpr hpre
  have h₂ : lookup KvsPayload.key k (runOf S d post) = none := find_runOf_eq_none.mpr hpost
  rw [h₁, h₂, Option.none_or, Option.or_none]

/-- A block that does not cover a non-empty key does not hold it. -/
theorem find_eq_none_of_not_covers {d : S.Disk} {h : BlockHeader} (hok : HeaderOk S d h)
    (hk : k ≠ []) (hc : ¬ (h.minKey ≤ k ∧ k ≤ h.maxKey)) : find k (contents S d h) = none := by
  rw [find, lookup_eq_none_iff]
  rintro p hp rfl
  exact hc (hok.ranged.covers p hp hk)

/-- What the search of a level needs: its range covers its blocks, and after the first block that
covers the key no block holds it. -/
theorem located_of {i : ℕ} {l : Level} (hl : w.index.levels[i]? = some l)
    (hnum : l.numBlocks = l.recordHashes.length) (hok : HeadersOk S w.disk l.recordHashes)
    (hcov : ∀ h ∈ l.recordHashes, l.min_key ≤ h.minKey ∧ h.maxKey ≤ l.max_key) (hk : k ≠ [])
    (hsort : i ≠ 0 → ∀ h ∈ l.recordHashes, SortedRun (contents S w.disk h))
    (honly : ∀ pre h post, l.recordHashes = pre ++ h :: post → k ≤ h.maxKey →
      ∀ g ∈ post, find k (contents S w.disk g) = none) :
    ∃ info, l.getBlock k = .ok info ∧ Located w k i info := by
  have hrun : levelRun (indexState w) i = runOf S w.disk l.recordHashes := by
    rw [levelRun, headersAt_eq hl]
    rfl
  have hmiss : (∀ h ∈ l.recordHashes, ¬ (h.minKey ≤ k ∧ k ≤ h.maxKey)) → Located w k i [] := by
    intro hnone
    refine Or.inl ⟨rfl, ?_⟩
    rw [hrun, find_runOf_eq_none]
    intro h hh
    exact find_eq_none_of_not_covers (hok h hh) hk (hnone h hh)
  unfold Level.getBlock
  by_cases hout : k < l.min_key ∨ k > l.max_key
  · refine ⟨[], if_pos hout, hmiss fun h hh hin => ?_⟩
    have hrange := hcov h hh
    rcases hout with hlt | hlt
    · exact absurd (hrange.1.trans hin.1) hlt.not_ge
    · exact absurd (hin.2.trans hrange.2) (not_le.mpr hlt)
  · rw [if_neg hout, hnum]
    rcases findCovering_spec k l.recordHashes with ⟨heq, hnone⟩ | ⟨pre, h, post, hhs, heq, hh, hpre⟩
    · exact ⟨[], heq, hmiss hnone⟩
    · have hmem : h ∈ l.recordHashes := by simp [hhs]
      refine ⟨h.hash, heq, Or.inr ⟨h, rfl, (hok h hmem).hash_ne, (hok h hmem).contents_ne, ?_⟩⟩
      rw [scanPairs_eq i fun hi => hsort hi h hmem, hrun, hhs]
      refine (find_runOf_split (fun g hg => ?_) (honly pre h post hhs hh.2)).symm
      exact find_eq_none_of_not_covers (hok g (by simp [hhs, hg])) hk (hpre g hg)

/-- L0 can be searched for any non-empty key, as far as it is needed: with two blocks or more, no
block may begin with the empty key. -/
def Searchable (w : World S) : Prop :=
  (headersAt (indexState w) 0).length ≤ 1 ∨ ∀ h ∈ headersAt (indexState w) 0, h.minKey ≠ []

/-- **The index finds the right block of every level** for a key that is not in the memory table. -/
theorem getBlock_located (hw : Inv S B w) (hs : Searchable w) (hk : k ≠ [])
    (hmem : w.memtable.memtable.find? k = none) {i : ℕ} (hi : i < w.index.numLevels) :
    ∃ info, w.index.getBlock i k = .ok info ∧ Located w k i info := by
  have hlen : w.index.numLevels = w.index.levels.length := hw.indexOk.numLevels_eq
  unfold CapsuleIndex.getBlock
  rw [if_neg (by omega)]
  cases i with
  | zero =>
    obtain ⟨l, hl, ht⟩ := hw.top
    have hcov : ∀ h ∈ l.recordHashes, l.min_key ≤ h.minKey ∧ h.maxKey ≤ l.max_key := by
      unfold Searchable at hs
      rw [headersAt_eq hl] at hs
      intro h hh
      rcases hs with hone | hne
      · obtain ⟨g, hg⟩ : ∃ g, l.recordHashes = [g] := by
          rw [← List.length_eq_one_iff]
          have := List.length_pos_of_mem hh
          omega
        rw [hg, List.mem_singleton] at hh
        rw [hh, ← ht.range_eq hone, hg]
        exact ⟨le_rfl, le_rfl⟩
      · exact (ht.covers hne (List.ne_nil_of_mem hh)).2 h hh
    simp only [hl]
    apply located_of hl ht.numBlocks_eq ht.headersOk hcov hk (fun h => absurd rfl h)
    intro pre h post hhs _ g hg
    -- the blocks after the first are hidden by the memory table
    have htail : g ∈ l.recordHashes.tail := by
      rw [hhs]
      cases pre <;> simp [hg]
    rw [find, lookup_eq_none_iff]
    rintro p hp rfl
    simpa [hmem] using ht.shadowed g htail p hp
  | succ i =>
    obtain ⟨l, hl⟩ : ∃ l, w.index.levels[i + 1]? = some l :=
      ⟨_, List.getElem?_eq_getElem (show i + 1 < w.index.levels.length by omega)⟩
    have hlOk : LevelOk S w.disk B (i + 1) l := hw.indexOk.levelOk (i + 1) l (by omega) hl
    have hsorted := sortedRun_runOf_iff.mp hlOk.sorted
    simp only [hl]
    refine located_of hl hlOk.numBlocks_eq hlOk.headersOk (fun h hh => hlOk.covers hh) hk
      (fun _ => hsorted.1) ?_
    intro pre h post hhs hhi g hg
    -- the blocks after the first that covers the key lie above it
    have hbelow := hsorted.2
    rw [hhs, List.pairwise_append] at hbelow
    have hlt := ((List.pairwise_cons.mp hbelow.2.1).1 g hg).maxKey_lt_minKey
      (hlOk.headersOk h (by simp [hhs])) (hlOk.headersOk g (by simp [hhs, hg]))
    exact find_eq_none_of_not_covers (hlOk.headersOk g (by simp [hhs, hg])) hk
      fun hc => absurd (hc.1.trans hhi) hlt.not_ge

/-! ## The whole search -/

/-- A read changes nothing but the disk, which only gains blocks. -/
def ReadOnly (S : BlockStore) (w w' : World S) : Prop :=
  ∃ d', w' = { w with disk := d' } ∧ Keeps S.stored w.disk d'

/-- **The search through the levels** takes the first thing that the searches of the levels come
to. -/
theorem searchLevels_spec {f : ℕ → Option KvsPayload} (is : List ℕ)
    (hf : ∀ i ∈ is, ∃ info, w.index.getBlock i k = .ok info ∧ ComesTo w k i (f i) info)
    {d₁ : S.Disk} (hk₁ : Keeps S.stored w.disk d₁) :
    Outcome (fun r w' => r = is.findSome? f ∧ ReadOnly S w w')
      (fun e w' => e = .io ∧ ReadOnly S w w')
      (CapsuleDB.searchLevels k is { w with disk := d₁ }) := by
  induction is generalizing d₁ with
  | nil => exact Outcome.pure ⟨rfl, d₁, rfl, hk₁⟩
  | cons i is ih =>
    have ih' := fun {d₂ : S.Disk} (hk₂ : Keeps S.stored w.disk d₂) =>
      ih (fun j hj => hf j (by simp [hj])) hk₂
    obtain ⟨info, heq, hloc⟩ := hf i (by simp)
    rw [CapsuleDB.searchLevels, List.findSome?_cons]
    apply Outcome.get_bind
    rw [show ({ w with disk := d₁ } : World S).index = w.index from rfl, heq]
    refine Outcome.ite (fun hne => ?_) fun hnil => ?_
    · obtain ⟨h, rfl, -, hc, hscan⟩ := hloc.resolve_left fun hn => hne hn.1
      have hread : Outcome _ _ (onDisk (readIn h.hash) (indexState { w with disk := d₁ })) :=
        onDisk_spec (readIn_spec hk₁ hc)
      refine onIndex_bind hread ?_ ?_
      · rintro e _ ⟨d₂, rfl, he, hk₂⟩
        exact ⟨he, d₂, rfl, keeps_trans hk₁ hk₂⟩
      · rintro b _ ⟨d₂, rfl, hk₂, hb⟩
        rw [hb, hscan]
        cases hr : f i with
        | some p => exact Outcome.pure ⟨rfl, d₂, rfl, keeps_trans hk₁ hk₂⟩
        | none => exact ih' (keeps_trans hk₁ hk₂)
    · -- no block of this level covers the key
      rw [not_not] at hnil
      obtain ⟨-, hnone⟩ := hloc.resolve_right fun ⟨h, hinfo, hne, _⟩ => hne (hinfo ▸ hnil)
      rw [hnone]
      exact ih' hk₁

/-- A key of the memory table is looked up there, without reading a block. -/
theorem get_of_mem (hw : Inv S B w) {p : KvsPayload} (hmem : w.memtable.memtable.find? k = some p)
    (hk : k ≠ []) : CapsuleDB.get k w = .ok p w := by
  have hlock : w.memtable.locklst.find? k ≠ none := by
    rw [Ne, hw.locks, hmem]
    simp
  obtain ⟨u, hu⟩ := Option.ne_none_iff_exists'.mp hlock
  have hpk : p.key = k := hw.keyed (k, p) (SortedMap.mem_entries_iff.mpr hmem)
  have h : Outcome (fun a s => a = p ∧ s = w) (fun _ _ => False) (CapsuleDB.get k w) := by
    unfold CapsuleDB.get Memtable.get
    apply Outcome.get_bind
    simp only [hu, hmem]
    exact Outcome.lift_bind (Outcome.ite (fun h => absurd (hpk.symm.trans h) hk)
      fun _ => Outcome.pure ⟨rfl, rfl⟩)
  cases hr : CapsuleDB.get k w with
  | ok a s =>
    obtain ⟨rfl, rfl⟩ := h.of_ok hr
    rfl
  | error e s => exact (h.of_error hr).elim

/-- **One get of the engine** is the plain search. -/
theorem get_spec (hw : Inv S B w) (hs : Searchable w) (hk : k ≠ []) :
    Outcome (fun p w' => p = (plainSearch w k).getD notFound ∧ ReadOnly S w w')
      (fun e w' => e = .io ∧ ReadOnly S w w') (CapsuleDB.get k w) := by
  cases hmem : w.memtable.memtable.find? k with
  | some p =>
    rw [get_of_mem hw hmem hk, plainSearch, hmem]
    exact ⟨rfl, w.disk, rfl, keeps_refl _⟩
  | none =>
    unfold CapsuleDB.get plainSearch Memtable.get
    apply Outcome.get_bind
    have hlock : w.memtable.locklst.find? k = none := (hw.locks k).mpr hmem
    simp only [hlock]
    have hsearch := searchLevels_spec (List.range w.index.numLevels)
      (fun i hi => getBlock_located hw hs hk hmem (List.mem_range.mp hi)) (keeps_refl _)
    refine Outcome.lift_bind (Outcome.ite (fun _ => ?_) fun h => absurd rfl h)
    refine Outcome.get_bind (hsearch.bind (fun _ _ he => he) ?_)
    rintro r w' ⟨rfl, hro⟩
    rw [hmem, Option.none_or]
    cases (List.range w.index.numLevels).findSome? fun i => find k (levelRun (indexState w) i) with
    | some p => exact ⟨rfl, hro⟩
    | none => exact ⟨rfl, hro⟩

/-- A get changes the disk only. -/
theorem get_readOnly (k : Str) (w : World S) :
    Outcome (fun _ v => ReadOnly S w v) (fun _ v => ReadOnly S w v) (CapsuleDB.get k w) := by
  have hrefl : ReadOnly S w w := ⟨w.disk, rfl, keeps_refl _⟩
  have hsearch : ∀ (is : List ℕ) {v : World S}, ReadOnly S w v →
      Outcome (fun _ v => ReadOnly S w v) (fun _ v => ReadOnly S w v)
        (CapsuleDB.searchLevels k is v) := by
    intro is
    induction is with
    | nil => exact fun hv => hv
    | cons i is ih =>
      intro v hv
      rw [CapsuleDB.searchLevels]
      apply Outcome.get_bind
      cases v.index.getBlock i k with
      | error e => exact hv
      | ok info =>
        refine Outcome.ite (fun _ => ?_) fun _ => ih hv
        obtain ⟨d₁, rfl, hk₁⟩ := hv
        have hread : Outcome _ _ (onDisk (readIn info) (indexState { w with disk := d₁ })) :=
          onDisk_spec (S.get_spec info d₁)
        refine onIndex_bind hread ?_ ?_
        · rintro e _ ⟨d₂, rfl, -, hk₂⟩
          exact ⟨d₂, rfl, keeps_trans hk₁ hk₂⟩
        · rintro b _ ⟨d₂, rfl, hk₂, -⟩
          cases CapsuleDB.scanPairs i k b.kvPairs with
          | some p => exact ⟨d₂, rfl, keeps_trans hk₁ hk₂⟩
          | none => exact ih ⟨d₂, rfl, keeps_trans hk₁ hk₂⟩
  unfold CapsuleDB.get
  apply Outcome.get_bind
  cases w.memtable.get k with
  | error e => exact hrefl
  | ok p =>
    refine Outcome.ite (fun _ => Outcome.get_bind ?_) fun _ => hrefl
    apply (hsearch _ hrefl).bind (fun _ _ hv => hv)
    intro r v hv
    cases r <;> exact hv

/-- The first version in the pairs of L0 is that of the first block that has one. -/
theorem find_levelRun_zero (w : World S) (k : Str) :
    find k (levelRun (indexState w) 0) = (column w k).l0.findSome? id := by
  unfold levelRun column columnOf
  generalize headersAt (indexState w) 0 = hs
  dsimp only [indexState]
  induction hs with
  | nil => rfl
  | cons h hs ih =>
    have hcons : find k (runOf S w.disk (h :: hs)) =
        (find k (contents S w.disk h)).or (find k (runOf S w.disk hs)) := lookup_append k _ _
    rw [hcons, List.map_cons, List.findSome?_cons, ← ih]
    cases find k (contents S w.disk h) <;> rfl

/-- The plain search finds the top of the column. -/
theorem plainSearch_eq_top (hw : Inv S B w) (k : Str) : plainSearch w k = (column w k).top := by
  have hlen : w.index.numLevels = w.index.levels.length := hw.indexOk.numLevels_eq
  have hpos : 0 < w.index.levels.length := hw.indexOk.levels_pos
  obtain ⟨n, hn⟩ : ∃ n, w.index.numLevels = n + 1 := ⟨w.index.numLevels - 1, by omega⟩
  have hnone : ∀ i, n ≤ i → find k (levelRun (indexState w) (1 + i)) = none := by
    intro i hi
    rw [levelRun, headersAt_of_length_le (show w.index.levels.length ≤ 1 + i by omega)]
    rfl
  have hlv : (List.range n).findSome? (fun i => find k (levelRun (indexState w) (1 + i))) =
      firstSome (column w k).lv := findSome?_range_eq_firstSome hnone
  have hshift : (fun i => find k (levelRun (indexState w) i)) ∘ Nat.succ =
      fun i => find k (levelRun (indexState w) (1 + i)) := by
    funext i
    rw [Function.comp_apply, Nat.succ_eq_add_one, Nat.add_comm]
  unfold plainSearch Column.top
  rw [hn, List.range_succ_eq_map, List.findSome?_cons, List.findSome?_map, hshift, hlv,
    find_levelRun_zero]
  cases (column w k).l0.findSome? id <;> rfl

end Capsule.Analysis
