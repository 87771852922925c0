import Capsule.Analysis.ReadLaws

/-!
# The empty key

The empty string is a key like any other for `put`, but for `get` it is also the mark of a payload
that was not found, and for `addKVPair` that of a bound that is not set.  So a get of the empty key
goes on to the levels even when the memory table has the key, and in a level below L0 it finds the
key only if the key is alone in its block: otherwise the range of the block begins at the second
key.

`empty_key_read_iff` says when a get of the empty key still returns the last put of it.
-/

set_option autoImplicit false

namespace Capsule.Analysis

open Library Program Interface

variable {S : BlockStore} {B : ℕ} {w w' : World S} {ps : List KvsPayload} {p : KvsPayload} {i : ℕ}

/-! ## What a level shows of the empty key -/

/-- The level `i` holds the version `p` of the empty key where a search finds it: in L0, or alone in
the first block of the level. -/
def Shows (w : World S) (i : ℕ) (p : KvsPayload) : Prop :=
  p.key = [] ∧ p ∈ levelRun (indexState w) i ∧
    (i = 0 ∨ ∃ h rest, headersAt (indexState w) i = h :: rest ∧ contents S w.disk h = [p])

/-- The empty key of a sorted block stays the lower end of the range only when it is alone. -/
theorem startKey_blockOf_eq_nil {level : ℕ} {xs : List KvsPayload} (hs : SortedRun xs)
    (h : (blockOf level xs).startKey = []) : xs.length ≤ 1 := by
  rcases xs.eq_nil_or_concat' with rfl | ⟨init, last, rfl⟩
  · simp
  · -- behind another key the last one is not empty, and then neither is the bound
    rcases init.eq_nil_or_concat' with rfl | ⟨init, prev, rfl⟩
    · simp
    · have hlt : prev.key < last.key :=
        (List.pairwise_append.mp hs).2.2 prev (by simp) last (by simp)
      have hne : last.key ≠ [] := fun he => List.not_lt_nil _ (he ▸ hlt)
      rw [blockOf_concat] at h
      simp only [CapsuleBlock.addKVPair] at h
      split at h
      · rw [min_self] at h
        exact absurd h hne
      · rename_i hstart
        rcases min_choice (blockOf level (init ++ [prev])).startKey last.key with hm | hm <;>
          rw [hm] at h
        · exact absurd h hstart
        · exact absurd h hne

/-- What a search of the level `i` for the empty key comes to. -/
noncomputable def shown (w : World S) (i : ℕ) : Option KvsPayload :=
  open Classical in if h : ∃ p, Shows w i p then some h.choose else none

/-- A level is sorted, or is L0 with at most one block. -/
theorem sortedRun_levelRun (hw : Inv S B w) (hcalm : (headersAt (indexState w) 0).length ≤ 1)
    (i : ℕ) :
    SortedRun (levelRun (indexState w) i) := by
  cases i with
  | zero =>
    obtain ⟨l, hl, ht⟩ := hw.top
    rw [headersAt_eq hl] at hcalm
    have hrun : levelRun (indexState w) 0 = runOf S w.disk l.recordHashes := by
      rw [levelRun, headersAt_eq hl]
      rfl
    rw [hrun]
    cases hhs : l.recordHashes with
    | nil => exact List.Pairwise.nil
    | cons g hs =>
      cases hs with
      | nil =>
        rw [runOf_cons, runOf_nil, List.append_nil]
        exact ht.sorted g (by simp [hhs])
      | cons _ _ => simp [hhs] at hcalm
  | succ i => exact hw.indexOk.sorted (Nat.le_add_left 1 i)

/-- What a level shows of the empty key it holds. -/
theorem find_of_shows (hw : Inv S B w) (hcalm : (headersAt (indexState w) 0).length ≤ 1)
    (h : Shows w i p) : find [] (levelRun (indexState w) i) = some p :=
  (lookup_eq_some_iff (sortedRun_levelRun hw hcalm i)).mpr ⟨h.2.1, h.1⟩

/-- What a level shows, as a relation. -/
theorem shown_eq_some_iff (hw : Inv S B w) (hcalm : (headersAt (indexState w) 0).length ≤ 1) :
    shown w i = some p ↔ Shows w i p := by
  unfold shown
  constructor
  · intro h
    split at h
    · rename_i hex
      exact Option.some.inj h ▸ hex.choose_spec
    · simp at h
  · intro h
    have hex : ∃ p, Shows w i p := ⟨p, h⟩
    rw [dif_pos hex]
    have hchoice := find_of_shows hw hcalm hex.choose_spec
    rw [find_of_shows hw hcalm h] at hchoice
    exact hchoice.symm

/-- A level shows nothing exactly if it shows no payload. -/
theorem shown_eq_none_iff : shown w i = none ↔ ∀ p, ¬ Shows w i p := by
  unfold shown
  by_cases hex : ∃ p, Shows w i p
  · rw [dif_pos hex]
    simpa using hex
  · rw [dif_neg hex]
    simpa using hex

/-- The search of one level for the empty key: it looks into the first block if the range of that
block begins with the empty key. -/
theorem getBlock_nil {l : Level} (hnum : l.numBlocks = l.recordHashes.length)
    (hrange : l.setBlocks l.recordHashes = l) :
    l.getBlock [] = .ok (match l.recordHashes.head? with
      | some h => if h.minKey = [] then h.hash else []
      | none => []) := by
  have hkey : l.min_key = (l.setBlocks l.recordHashes).min_key := by rw [hrange]
  simp only [Level.setBlocks] at hkey
  unfold Level.getBlock
  cases hhs : l.recordHashes with
  | nil =>
    rw [hhs] at hkey hnum
    simp only [List.head?_nil] at hkey ⊢
    rw [if_neg (by simp [hkey]), hnum]
    rfl
  | cons g gs =>
    rw [hhs] at hkey hnum
    simp only [List.head?_cons] at hkey ⊢
    by_cases hg : g.minKey = []
    · rw [if_neg (by simp [hkey, hg]), if_pos hg, hnum, List.length_cons, Level.findCovering,
        if_pos ⟨by rw [hg], nil_le _⟩]
    · rw [if_pos (Or.inl (by rw [hkey]; exact nil_lt_iff.mpr hg)), if_neg hg]

/-- The pairs of L0 are those of its only block. -/
theorem levelRun_zero_eq {g : BlockHeader} {gs : List BlockHeader}
    (hhs : headersAt (indexState w) 0 = g :: gs) (hcalm : (headersAt (indexState w) 0).length ≤ 1) :
    levelRun (indexState w) 0 = contents S w.disk g := by
  have hgs : gs = [] := by
    rw [hhs, List.length_cons] at hcalm
    exact List.eq_nil_of_length_eq_zero (by omega)
  rw [levelRun, hhs, hgs, runOf_cons, runOf_nil, List.append_nil]
  rfl

/-- L0 shows what it holds, as its smallest key is empty then. -/
theorem shown_zero (hw : Inv S B w) (hcalm : (headersAt (indexState w) 0).length ≤ 1) :
    shown w 0 = find [] (levelRun (indexState w) 0) := by
  cases hf : find [] (levelRun (indexState w) 0) with
  | none =>
    rw [shown_eq_none_iff]
    rintro p ⟨hp, hmem, -⟩
    exact lookup_eq_none_iff.mp hf p hmem hp
  | some p =>
    rw [shown_eq_some_iff hw hcalm]
    exact ⟨lookup_key hf, lookup_mem hf, Or.inl rfl⟩

/-- A block of a level below L0 that begins with the empty key has nothing else. -/
theorem contents_eq_singleton {l : Level} (hl : LevelOk S w.disk B i l) {g : BlockHeader}
    (hg : g ∈ l.recordHashes) (hmin : g.minKey = []) :
    ∃ p, contents S w.disk g = [p] ∧ p.key = [] := by
  have hsorted := (sortedRun_runOf_iff.mp hl.sorted).1 g hg
  have hstart := (hl.minKey_eq g hg).symm.trans hmin
  have hne := (hl.headersOk g hg).contents_ne
  have hlen := startKey_blockOf_eq_nil hsorted hstart
  obtain ⟨p, hp⟩ : ∃ p, contents S w.disk g = [p] := by
    rw [← List.length_eq_one_iff]
    have := List.length_pos_iff.mpr hne
    omega
  refine ⟨p, hp, ?_⟩
  rw [hp] at hstart
  simpa [blockOf, CapsuleBlock.new, CapsuleBlock.addKVPair] using hstart

/-- **The search of a level for the empty key** comes to what the level shows. -/
theorem comesTo_shown (hw : Inv S B w) (hcalm : (headersAt (indexState w) 0).length ≤ 1)
    (hi : i < w.index.numLevels) :
    ∃ info, w.index.getBlock i [] = .ok info ∧ ComesTo w [] i (shown w i) info := by
  have hlen : w.index.numLevels = w.index.levels.length := hw.indexOk.numLevels_eq
  obtain ⟨l, hl⟩ : ∃ l, w.index.levels[i]? = some l :=
    ⟨_, List.getElem?_eq_getElem (show i < w.index.levels.length by omega)⟩
  have hhdr : headersAt (indexState w) i = l.recordHashes := headersAt_eq hl
  -- what the two kinds of level have in common
  obtain ⟨hnum, hrange, hok, hscan⟩ : l.numBlocks = l.recordHashes.length ∧
      l.setBlocks l.recordHashes = l ∧ HeadersOk S w.disk l.recordHashes ∧
      ∀ g gs, l.recordHashes = g :: gs →
        (g.minKey = [] → CapsuleDB.scanPairs i [] (contents S w.disk g) = shown w i) ∧
        (g.minKey ≠ [] → shown w i = none) := by
    cases i with
    | zero =>
      obtain ⟨l', hl', ht⟩ := hw.top
      obtain rfl : l' = l := Option.some.inj (hl'.symm.trans hl)
      have hone : l'.recordHashes.length ≤ 1 := hhdr ▸ hcalm
      refine ⟨ht.numBlocks_eq, ht.range_eq hone, ht.headersOk, fun g gs hhs => ?_⟩
      have hrun := levelRun_zero_eq (hhdr.trans hhs) hcalm
      refine ⟨fun _ => ?_, fun hne => ?_⟩
      · rw [scanPairs_eq 0 fun h => absurd rfl h, shown_zero hw hcalm, hrun]
      · rw [shown_eq_none_iff]
        rintro p ⟨hp, hmem, -⟩
        rw [hrun] at hmem
        have hle := ht.minKey_le g (by simp [hhs]) p hmem
        rw [hp] at hle
        exact hne (le_antisymm hle (nil_le _))
    | succ i =>
      have hlOk : LevelOk S w.disk B (i + 1) l :=
        hw.indexOk.levelOk (i + 1) l (Nat.le_add_left 1 i) hl
      refine ⟨hlOk.numBlocks_eq, hlOk.range_eq, hlOk.headersOk, ?_⟩
      intro g gs hhs
      refine ⟨fun hmin => ?_, fun hne => ?_⟩
      · obtain ⟨p, hc, hp⟩ := contents_eq_singleton hlOk (by simp [hhs]) hmin
        have hshows : Shows w (i + 1) p := by
          refine ⟨hp, ?_, Or.inr ⟨g, gs, hhdr.trans hhs, hc⟩⟩
          rw [levelRun, hhdr, hhs, runOf_cons]
          exact List.mem_append_left _
            (by rw [show (indexState w).disk = w.disk from rfl, hc]; simp)
        rw [(shown_eq_some_iff hw hcalm).mpr hshows, hc, CapsuleDB.scanPairs, hp, if_neg (by simp),
          if_pos rfl]
      · rw [shown_eq_none_iff]
        rintro p ⟨hp, -, h0 | ⟨h, rest, hhs', hc⟩⟩
        · omega
        · obtain ⟨rfl, -⟩ := List.cons.inj (hhs'.symm.trans (hhdr.trans hhs))
          apply hne
          rw [hlOk.minKey_eq h (by simp [hhs]), hc]
          simp [blockOf, CapsuleBlock.new, CapsuleBlock.addKVPair, hp]
  have hget : w.index.getBlock i [] = l.getBlock [] := by
    unfold CapsuleIndex.getBlock
    rw [if_neg (by omega)]
    simp only [hl]
  rw [hget, getBlock_nil hnum hrange]
  refine ⟨_, rfl, ?_⟩
  cases hhs : l.recordHashes with
  | nil =>
    refine Or.inl ⟨rfl, ?_⟩
    rw [shown_eq_none_iff]
    rintro p ⟨-, hmem, -⟩
    rw [levelRun, hhdr, hhs, runOf_nil] at hmem
    simp at hmem
  | cons g gs =>
    obtain ⟨hyes, hno⟩ := hscan g gs hhs
    have hgm : g ∈ l.recordHashes := by simp [hhs]
    simp only [List.head?_cons]
    by_cases hmin : g.minKey = []
    · rw [if_pos hmin]
      exact Or.inr ⟨g, rfl, (hok g hgm).hash_ne, (hok g hgm).contents_ne, hyes hmin⟩
    · rw [if_neg hmin]
      exact Or.inl ⟨rfl, hno hmin⟩

/-! ## What a get of the empty key returns -/

/-- **A get of the empty key** returns the first version that a level shows, and only if there is
none that of the memory table. -/
theorem get_nil_spec (hw : Inv S B w) (hcalm : (headersAt (indexState w) 0).length ≤ 1) :
    Outcome
      (fun a _ => a = ((List.range w.index.numLevels).findSome? (shown w)).getD
        ((w.memtable.memtable.find? []).getD notFound))
      ReadFault (CapsuleDB.get [] w) := by
  obtain ⟨kv, hkv, hkey, hval⟩ : ∃ kv, w.memtable.get [] = .ok kv ∧ kv.key = [] ∧
      kv = (w.memtable.memtable.find? []).getD notFound := by
    unfold Memtable.get
    cases hmem : w.memtable.memtable.find? [] with
    | none =>
      rw [(hw.locks []).mpr hmem]
      exact ⟨notFound, rfl, rfl, rfl⟩
    | some x =>
      have hlock : w.memtable.locklst.find? [] ≠ none := by
        rw [Ne, hw.locks, hmem]
        simp
      obtain ⟨u, hu⟩ := Option.ne_none_iff_exists'.mp hlock
      rw [hu]
      exact ⟨x, rfl, hw.keyed ([], x) (SortedMap.mem_entries_iff.mpr hmem), rfl⟩
  have hsearch := searchLevels_spec (List.range w.index.numLevels)
    (fun i hi => comesTo_shown hw hcalm (List.mem_range.mp hi)) (keeps_refl w.disk)
  unfold CapsuleDB.get
  apply Outcome.get_bind
  rw [hkv]
  apply Outcome.lift_bind
  rw [if_pos hkey, ← hval]
  refine Outcome.get_bind (hsearch.bind (fun _ _ he => he.1) ?_)
  rintro r w' ⟨rfl, -⟩
  cases (List.range w.index.numLevels).findSome? (shown w) <;> exact rfl

/-! ## Runs with increasing timestamps -/

/-- What the level `i` holds of the empty key. -/
def held (w : World S) (i : ℕ) : Option KvsPayload := find [] (levelRun (indexState w) i)

/-- Every version of the empty key is newer than those in places below. -/
structure Falling (w : World S) : Prop where
  mem : ∀ i x y, w.memtable.memtable.find? [] = some x → held w i = some y →
    y.txn_timestamp < x.txn_timestamp
  levels : ∀ i j x y, i < j → held w i = some x → held w j = some y →
    y.txn_timestamp < x.txn_timestamp

/-- Where a level holds a version of the empty key, so does the column. -/
theorem column_of_held {x : KvsPayload} (h : held w i = some x) :
    (i = 0 ∧ some x ∈ (column w []).l0) ∨ ∃ j, i = j + 1 ∧ (column w []).lv j = some x := by
  cases i with
  | zero =>
    rw [held, find_levelRun_zero] at h
    obtain ⟨a, ha, rfl⟩ := List.exists_of_findSome?_eq_some h
    exact Or.inl ⟨rfl, ha⟩
  | succ j => exact Or.inr ⟨j, rfl, by rw [← h, Nat.add_comm]; rfl⟩

/-- Versions in strict order fall. -/
theorem Falling.of_strictlyOrdered
    (ho : (column w []).StrictlyOrdered KvsPayload.txn_timestamp) : Falling w := by
  refine ⟨fun i x y hx hy => ?_, fun i j x y hij hx hy => ?_⟩
  · rcases column_of_held hy with ⟨-, hy⟩ | ⟨j, -, hy⟩
    · exact ho.mem_l0 x y hx hy
    · exact ho.tops x j y (Or.inl hx) hy
  · rcases column_of_held hy with ⟨rfl, -⟩ | ⟨j', rfl, hlvy⟩
    · omega
    · rcases column_of_held hx with ⟨-, hl0⟩ | ⟨i', rfl, hlvx⟩
      · exact ho.tops x j' y (Or.inr hl0) hlvy
      · exact ho.levels i' j' x y (by omega) hlvx hlvy

/-- **Where timestamps increase, versions fall from level to level.** -/
theorem puts_falling (hB : 1 ≤ B) (hmax : 2 * B < 2 ^ 31) (d : S.Disk) (ps : List KvsPayload)
    (hts : Increasing ps) :
    Outcome (fun _ w => Inv S B w ∧ RunInv ps w ∧ OrderedAt w [] ∧ Falling w) Assumed
      (CapsuleDB.puts ps (spawnDB B d)) := by
  have hrun := puts_run hB hmax d
    (P := fun ps w => RunInv ps w ∧ (column w []).StrictlyOrdered KvsPayload.txn_timestamp)
    ⟨RunInv.spawnDB d, by rw [column_spawnDB]; exact ⟨by simp, by simp, by simp, by simp⟩⟩ ps ?_
  · refine hrun.mono ?_ fun _ _ he => he
    rintro - w ⟨hw, h, ho⟩
    refine ⟨hw, h, ⟨fun x y hx hy => (ho.mem_l0 x y hx hy).le, ?_,
      fun x i y hx hy => (ho.tops x i y hx hy).le,
      fun i j x y hij hx hy => (ho.levels i j x y hij hx hy).le⟩, Falling.of_strictlyOrdered ho⟩
    exact ho.l0.imp fun hlt x y hx hy => (hlt x y hx hy).le
  · intro pre p w w' hat _ ⟨h, ho⟩ hp
    refine ⟨h.step hp, (hp.put []).strictlyOrdered ho fun x hx _ y hy => ?_⟩
    obtain ⟨rfl, hk⟩ := versionFor_eq_some.mp hx
    obtain ⟨hput, hkey⟩ := h.source _ y hy
    exact (List.pairwise_append.mp (hts.sublist hat.initial.sublist)).2.2 y hput p (by simp)
      (hkey.trans hk.symm)

/-- Below the lowest level nothing is held. -/
theorem held_of_le (hw : Inv S B w) (hi : w.index.numLevels ≤ i) : held w i = none := by
  have hlen : w.index.numLevels = w.index.levels.length := hw.indexOk.numLevels_eq
  rw [held, levelRun, headersAt_of_length_le (show w.index.levels.length ≤ i by omega)]
  rfl

/-- What a level shows it holds. -/
theorem held_of_shown (hw : Inv S B w) (hcalm : (headersAt (indexState w) 0).length ≤ 1)
    (h : shown w i = some p) : held w i = some p :=
  find_of_shows hw hcalm ((shown_eq_some_iff hw hcalm).mp h)

/-- The version to be returned, level by level. -/
theorem top_nil_eq (hw : Inv S B w) :
    (column w []).top = (w.memtable.memtable.find? []).or (firstSome (held w)) := by
  rw [← plainSearch_eq_top hw, plainSearch,
    ← findSome?_range_eq_firstSome fun i hi => held_of_le hw hi]
  rfl

/-- A get of the empty key still finds its newest version: no level shows an older one while the
memory table has the key, and otherwise the first level that holds the key shows it. -/
def EmptyKeyReadable (w : World S) : Prop :=
  match w.memtable.memtable.find? [] with
  | some _ => ∀ i p, ¬ Shows w i p
  | none => ∃ i p, Shows w i p ∧ ∀ j < i, held w j = none

/-- The versions found and shown agree exactly in a readable state. -/
theorem readable_iff (hw : Inv S B w) (hcalm : (headersAt (indexState w) 0).length ≤ 1)
    (hfall : Falling w) {x : KvsPayload} (hx : (column w []).top = some x) :
    (EmptyKeyReadable w →
      (firstSome (shown w)).getD ((w.memtable.memtable.find? []).getD notFound) = x) ∧
    ((firstSome (shown w)).getD ((w.memtable.memtable.find? []).getD notFound) = x →
      EmptyKeyReadable w ∨ x = notFound) := by
  rw [top_nil_eq hw] at hx
  unfold EmptyKeyReadable
  cases hmem : w.memtable.memtable.find? [] with
  | some m =>
    obtain rfl : m = x := by simpa [hmem] using hx
    constructor
    · intro hno
      have hnone : firstSome (shown w) = none :=
        firstSome_eq_none_iff.mpr fun i => shown_eq_none_iff.mpr (hno i)
      rw [hnone]
      rfl
    · intro ha
      apply Or.inl
      intro i p hp
      -- the first version that is shown is older than the one of the memory table
      cases hf : firstSome (shown w) with
      | none =>
        have := firstSome_eq_none_iff.mp hf i
        rw [(shown_eq_some_iff hw hcalm).mpr hp] at this
        simp at this
      | some q =>
        rw [hf, Option.getD_some] at ha
        subst ha
        obtain ⟨j, hj, -⟩ := firstSome_eq_some_iff.mp hf
        exact absurd (hfall.mem j q q hmem (held_of_shown hw hcalm hj)) (lt_irrefl _)
  | none =>
    have hheld : firstSome (held w) = some x := by simpa [hmem] using hx
    obtain ⟨i, hi, hbefore⟩ := firstSome_eq_some_iff.mp hheld
    constructor
    · rintro ⟨j, p, hp, hj⟩
      have hpj := (shown_eq_some_iff hw hcalm).mpr hp
      have hfirst : firstSome (shown w) = some p := by
        refine firstSome_eq_some_iff.mpr ⟨j, hpj, fun j' hj' => ?_⟩
        rw [Option.eq_none_iff_forall_ne_some]
        intro q hq
        have hnone := hj j' hj'
        rw [held_of_shown hw hcalm hq] at hnone
        simp at hnone
      have htop : firstSome (held w) = some p :=
        firstSome_eq_some_iff.mpr ⟨j, held_of_shown hw hcalm hpj, hj⟩
      rw [hfirst, Option.getD_some]
      exact Option.some.inj (htop.symm.trans hheld)
    · intro ha
      cases hf : firstSome (shown w) with
      | none =>
        rw [hf] at ha
        exact Or.inr ha.symm
      | some q =>
        rw [hf, Option.getD_some] at ha
        subst ha
        obtain ⟨j, hj, -⟩ := firstSome_eq_some_iff.mp hf
        have hqj := held_of_shown hw hcalm hj
        refine Or.inl ⟨j, q, (shown_eq_some_iff hw hcalm).mp hj, fun j' hj' => ?_⟩
        -- a level above would hold a newer version, and the top one is `q`
        rcases Nat.lt_trichotomy i j with hij | rfl | hij
        · exact absurd (hfall.levels i j q q hij hi hqj) (lt_irrefl _)
        · exact hbefore j' hj'
        · rw [hbefore j hij] at hqj
          simp at hqj

/-- **When the empty key reads like any other.**  After any sequence of puts in which the
timestamps of every key increase, a get of the empty key returns the payload of the last put to
it exactly if the state is readable for it.  The one payload that cannot be told apart is
`notFound`, which a get also returns when it finds nothing. -/
theorem empty_key_read_iff (hB : 1 ≤ B) (hmax : 2 * B < 2 ^ 31) (d : S.Disk)
    (ps : List KvsPayload) (hts : Increasing ps) (x : KvsPayload) (hx : lastPut [] ps = some x) :
    Outcome
      (fun _ w => Outcome
        (fun a _ => (EmptyKeyReadable w → a = x) ∧ (a = x → EmptyKeyReadable w ∨ x = notFound))
        ReadFault (CapsuleDB.get [] w))
      Assumed (CapsuleDB.puts ps (spawnDB B d)) := by
  refine (puts_falling hB hmax d ps hts).mono ?_ fun _ _ he => he
  rintro - w ⟨hw, h, ho, hfall⟩
  refine (get_nil_spec hw h.calm).mono ?_ fun _ _ he => he
  rintro a - rfl
  have hnone : ∀ i, w.index.numLevels ≤ i → shown w i = none := by
    intro i hi
    rw [Option.eq_none_iff_forall_ne_some]
    intro q hq
    have := held_of_le hw hi
    rw [held_of_shown hw h.calm hq] at this
    simp at this
  rw [findSome?_range_eq_firstSome hnone]
  exact readable_iff hw h.calm hfall ((h.top_eq_lastPut hts ho).trans hx)

/-- A run that puts the empty key twice, with another key between. -/
@[irreducible] def sampleEmpty : List KvsPayload :=
  [⟨[], [1], 1, []⟩, sample 97 1 1, ⟨[], [2], 2, []⟩]

/-- The theorem at a run that puts the empty key. -/
theorem empty_key_read_iff_sample :
    Outcome
      (fun _ w => Outcome
        (fun a _ => (EmptyKeyReadable w → a = ⟨[], [2], 2, []⟩) ∧
          (a = ⟨[], [2], 2, []⟩ → EmptyKeyReadable w ∨ (⟨[], [2], 2, []⟩ : KvsPayload) = notFound))
        ReadFault (CapsuleDB.get [] w))
      Assumed (CapsuleDB.puts sampleEmpty (spawnDB 1 [] : World memoryStore)) :=
  empty_key_read_iff (S := memoryStore) (B := 1) (by decide) (by decide) [] sampleEmpty
    (by unfold sampleEmpty; decide) ⟨[], [2], 2, []⟩ (by unfold sampleEmpty; decide)

/-- The older version of the empty key, in a level, hides the newer one in the memory table. -/
theorem older_empty_key_is_read :
    Increasing [⟨[], [1], 1, []⟩, sample 97 1 1, ⟨[], [2], 2, []⟩] ∧
    lastPut [] [⟨[], [1], 1, []⟩, sample 97 1 1, ⟨[], [2], 2, []⟩] = some ⟨[], [2], 2, []⟩ ∧
    answer memoryStore 1 [] [⟨[], [1], 1, []⟩, sample 97 1 1, ⟨[], [2], 2, []⟩] [] =
      some ⟨[], [1], 1, []⟩ := by
  decide +kernel

end Capsule.Analysis
