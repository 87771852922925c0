import Capsule.Analysis.Runs

/-!
# What faults can do

A put that throws because the block store failed has changed nothing that a get can see
(`failed_put_invisible`), also after earlier failures: a copy of the memory table may have joined
L0, and lower levels may have handed blocks down, but every version is still found where readers
look first.  The laws of `Column.Fail` carry the proof; `AttemptInv` is what holds after a sequence
of puts some of which failed.

Beyond the block store and the capacities there are no faults (`puts_stay_in_range`): no access and
no iterator leaves its container, nothing that is dereferenced is missing, and every loop and every
recursion ends within its fuel.
-/

set_option autoImplicit false

namespace Capsule.Analysis

open Library Program Interface

variable {S : BlockStore} {B : ℕ} {w w' : World S} {ps : List KvsPayload} {p : KvsPayload} {k : Str}
  {d : S.Disk}

/-! ## Sequences of puts that may fail -/

/-- The state after a sequence of puts, each of which returned or threw because the block store
failed. -/
inductive Attempts (S : BlockStore) (B : ℕ) (d : S.Disk) : List KvsPayload → World S → Prop
  /-- a new engine -/
  | start : Attempts S B d [] (spawnDB B d)
  /-- the put returned -/
  | done {ps : List KvsPayload} {p : KvsPayload} {w w' : World S} (h : Attempts S B d ps w)
      (hput : CapsuleDB.put p w = .ok () w') : Attempts S B d (ps ++ [p]) w'
  /-- the put threw -/
  | failed {ps : List KvsPayload} {p : KvsPayload} {w w' : World S} (h : Attempts S B d ps w)
      (hput : CapsuleDB.put p w = .error .io w') : Attempts S B d (ps ++ [p]) w'

/-- What holds after any such sequence with increasing timestamps: what is stored was put, only the
first block of L0 has keys that are not in the memory table, and a version read before another is at
least as new. -/
structure AttemptInv (S : BlockStore) (B : ℕ) (ps : List KvsPayload) (w : World S) : Prop where
  inv : Inv S B w
  source : ∀ k x, (column w k).Holds x → x ∈ ps ∧ x.key = k
  shadowed : ∀ k, (column w k).Shadowed
  ordered : ∀ k, OrderedAt w k

/-- Of the puts to one key no two carry the same timestamp. -/
theorem eq_of_timestamp_eq (h : Increasing ps) {x y : KvsPayload} (hx : x ∈ ps) (hy : y ∈ ps)
    (hk : x.key = y.key) (hts : x.txn_timestamp = y.txn_timestamp) : x = y := by
  have hpair : ps.Pairwise fun p q => p.key = q.key → p.txn_timestamp = q.txn_timestamp → p = q :=
    h.imp fun hlt hk hst => absurd hst (hlt hk).ne
  have hflip : ps.Pairwise
      (flip fun p q => p.key = q.key → p.txn_timestamp = q.txn_timestamp → p = q) :=
    hpair.imp fun himp hk hst => (himp hk.symm hst.symm).symm
  exact hpair.forall_of_forall_of_flip (fun _ _ _ _ => rfl) hflip hx hy hk hts

/-- So nothing that is stored for a key is tied. -/
theorem AttemptInv.tieFree (h : AttemptInv S B ps w) (hts : Increasing ps) (k : Str) :
    (column w k).TieFree KvsPayload.txn_timestamp := by
  intro x y hx hy hst
  obtain ⟨hxmem, hxk⟩ := h.source k x hx
  obtain ⟨hymem, hyk⟩ := h.source k y hy
  exact eq_of_timestamp_eq hts hxmem hymem (hxk.trans hyk.symm) hst

/-- **A put that returns keeps it.** -/
theorem AttemptInv.done (h : AttemptInv S B ps w) (hts : Increasing (ps ++ [p]))
    (hp : PutDone S B p w w') : AttemptInv S B (ps ++ [p]) w' := by
  refine ⟨hp.inv, fun k x hx => ?_, fun k => (hp.put k).shadowed (h.shadowed k), fun k => ?_⟩
  · rcases (hp.put k).source hx with hx | hx
    · have hsrc := h.source k x hx
      exact ⟨by simp [hsrc.1], hsrc.2⟩
    · obtain ⟨rfl, hk⟩ := versionFor_eq_some.mp hx
      exact ⟨by simp, hk⟩
  · apply (hp.put k).ordered (h.ordered k)
    intro x hx _ y hy
    obtain ⟨rfl, rfl⟩ := versionFor_eq_some.mp hx
    obtain ⟨hymem, hyk⟩ := h.source _ y hy
    exact ((List.pairwise_append.mp hts).2.2 y hymem p (by simp) hyk).le

/-- More puts may have been attempted. -/
theorem AttemptInv.subset {qs : List KvsPayload} (h : AttemptInv S B ps w) (hsub : ps ⊆ qs) :
    AttemptInv S B qs w :=
  ⟨h.inv, fun k x hx => (h.source k x hx).imp_left fun hmem => hsub hmem, h.shadowed, h.ordered⟩

/-- A put that fails stores nothing. -/
theorem AttemptInv.kept (h : AttemptInv S B ps w) (hw' : Inv S B w')
    (hf : ∀ k, Column.Fail KvsPayload.txn_timestamp (column w k) (column w' k)) :
    AttemptInv S B ps w' :=
  ⟨hw', fun k x hx => h.source k x ((hf k).source hx), fun k => (hf k).shadowed (h.shadowed k),
    fun k => (hf k).ordered (h.ordered k)⟩

/-- **A put that fails keeps it.** -/
theorem AttemptInv.failed (h : AttemptInv S B ps w) (hw' : Inv S B w')
    (hf : ∀ k, Column.Fail KvsPayload.txn_timestamp (column w k) (column w' k)) :
    AttemptInv S B (ps ++ [p]) w' := (h.kept hw' hf).subset (List.subset_append_left _ _)

/-- **Every sequence of attempts.** -/
theorem attempts_inv (hB : 1 ≤ B) (hmax : 2 * B < 2 ^ 31) (h : Attempts S B d ps w)
    (hts : Increasing ps) : AttemptInv S B ps w := by
  induction h with
  | start =>
    have hrun : RunInv [] (spawnDB B d : World S) := RunInv.spawnDB d
    exact ⟨Inv.spawnDB hmax d, hrun.source, hrun.shadowed, fun k => OrderedAt.spawnDB d k⟩
  | @done ps p w w' _ hput ih =>
    have hw := ih (List.pairwise_append.mp hts).1
    exact hw.done hts ((put_spec hB hw.inv p).of_ok hput)
  | @failed ps p w w' _ hput ih =>
    have hw := ih (List.pairwise_append.mp hts).1
    rcases (put_spec hB hw.inv p).of_error hput with he | ⟨-, hw', hf⟩
    · simp at he
    · exact hw.failed hw' hf

/-- Where no key is empty every block of L0 can be searched. -/
theorem searchable_of_keys (hw : Inv S B w) (hkeys : ∀ k x, (column w k).Holds x → x.key ≠ []) :
    Searchable w := by
  obtain ⟨l, hl, ht⟩ := hw.top
  apply Or.inr
  intro g hg
  have hg' : g ∈ l.recordHashes := by
    rw [headersAt_eq hl] at hg
    exact hg
  obtain ⟨x, hx, hmin⟩ := (ht.headersOk g hg').ranged.lo_mem
  have hhold : (column w x.key).Holds x := by
    refine Or.inr (Or.inl ?_)
    rw [column, columnOf, headersAt_eq hl]
    exact List.mem_map.mpr ⟨g, hg', (lookup_eq_some_iff (ht.sorted g hg')).mpr ⟨hx, rfl⟩⟩
  rw [← hmin]
  exact hkeys _ x hhold

/-- Without empty keys every level can be searched, also after failures. -/
theorem AttemptInv.searchable (h : AttemptInv S B ps w) (hkeys : ∀ p ∈ ps, p.key ≠ []) :
    Searchable w := searchable_of_keys h.inv fun k x hx => hkeys x (h.source k x hx).1

/-- **A put that fails midway leaves the readable contents as they were.**  After any sequence of
puts with increasing timestamps and non-empty keys, some of which may have failed in the same way,
a put either returns, overflows a capacity, or throws because the block store failed; then, once
reads succeed, every get returns what it returned before. -/
theorem failed_put_invisible (hB : 1 ≤ B) (hmax : 2 * B < 2 ^ 31) {d : S.Disk}
    {ps : List KvsPayload} {w : World S} (h : Attempts S B d ps w) (p : KvsPayload)
    (hts : Increasing (ps ++ [p])) (hkeys : ∀ q ∈ ps ++ [p], q.key ≠ []) :
    Outcome (fun _ _ => True)
      (fun e w' => e = .overflow ∨
        (e = .io ∧ ∀ k, k ≠ [] → Answers k w w' fun a a' => a' = a))
      (CapsuleDB.put p w) := by
  have hps : Increasing ps := (List.pairwise_append.mp hts).1
  have hw := attempts_inv hB hmax h hps
  apply (put_spec hB hw.inv p).mono (fun _ _ _ => trivial)
  rintro e w' (he | ⟨he, hw', hf⟩)
  · exact Or.inl he
  · refine Or.inr ⟨he, fun k hk => ?_⟩
    have hfail : AttemptInv S B (ps ++ [p]) w' := hw.failed hw' hf
    have htop := (hf k).top_eq (hw.ordered k) (hw.tieFree hps k)
    refine (get_spec hw.inv (hw.searchable fun q hq => hkeys q (by simp [hq])) hk).mono ?_
      fun _ _ he => he.1
    rintro a - ⟨rfl, -⟩
    refine (get_spec hw' (hfail.searchable hkeys) hk).mono ?_ fun _ _ he => he.1
    rintro a' - ⟨rfl, -⟩
    rw [plainSearch_eq_top hw.inv, plainSearch_eq_top hw', htop]

/-- A put whose compaction cannot read a block, after one that failed in the same way: L0 has
three blocks in the end. -/
theorem failed_put_invisible_sample :
    ∃ w, Attempts faultyStore 1 ([], [false, false, true, false, true])
        [sample 107 1 1, sample 97 1 1, sample 98 1 1] w ∧
      (∃ w', CapsuleDB.put (sample 99 1 1) w = .error .io w') ∧
      Outcome (fun _ _ => True)
        (fun e w' => e = .overflow ∨
          (e = .io ∧ ∀ k, k ≠ [] → Answers k w w' fun a a' => a' = a))
        (CapsuleDB.put (sample 99 1 1) w) := by
  have h : Attempts faultyStore 1 ([], [false, false, true, false, true])
      [sample 107 1 1, sample 97 1 1, sample 98 1 1] _ :=
    Attempts.failed (Attempts.done (Attempts.done Attempts.start rfl) rfl) rfl
  exact ⟨_, h, ⟨_, rfl⟩, failed_put_invisible (S := faultyStore) (B := 1) (by decide) (by decide) h
    (sample 99 1 1) (by decide) (by decide)⟩

/-! ## Nothing leaves its range, and everything ends -/

/-- The index answers for every key, the empty one included. -/
theorem getBlock_ok (hw : Inv S B w) (k : Str) {i : ℕ} (hi : i < w.index.numLevels) :
    ∃ info, w.index.getBlock i k = .ok info := by
  have hlen : w.index.numLevels = w.index.levels.length := hw.indexOk.numLevels_eq
  obtain ⟨l, hl⟩ : ∃ l, w.index.levels[i]? = some l :=
    ⟨_, List.getElem?_eq_getElem (show i < w.index.levels.length by omega)⟩
  have hnum : l.numBlocks = l.recordHashes.length := by
    cases i with
    | zero =>
      obtain ⟨l', hl', ht⟩ := hw.top
      obtain rfl : l' = l := Option.some.inj (hl'.symm.trans hl)
      exact ht.numBlocks_eq
    | succ i => exact (hw.indexOk.levelOk (i + 1) l (Nat.le_add_left 1 i) hl).numBlocks_eq
  unfold CapsuleIndex.getBlock
  rw [if_neg (by omega)]
  simp only [hl]
  unfold Level.getBlock
  by_cases hout : k < l.min_key ∨ k > l.max_key
  · exact ⟨[], if_pos hout⟩
  · rw [if_neg hout, hnum]
    rcases findCovering_spec k l.recordHashes with ⟨heq, -⟩ | ⟨-, h, -, -, heq, -, -⟩
    · exact ⟨_, heq⟩
    · exact ⟨_, heq⟩

/-- The search through the levels reads no level that does not exist. -/
theorem searchLevels_safe (hw : Inv S B w) (k : Str) (is : List ℕ)
    (his : ∀ i ∈ is, i < w.index.numLevels) (d : S.Disk) :
    Outcome (fun _ _ => True) ReadFault (CapsuleDB.searchLevels k is { w with disk := d }) := by
  induction is generalizing d with
  | nil => exact trivial
  | cons i is ih =>
    have ih' := fun d => ih (fun j hj => his j (by simp [hj])) d
    obtain ⟨info, heq⟩ := getBlock_ok hw k (his i (by simp))
    rw [CapsuleDB.searchLevels]
    apply Outcome.get_bind
    rw [show ({ w with disk := d } : World S).index = w.index from rfl, heq]
    refine Outcome.ite (fun _ => ?_) fun _ => ih' d
    refine onIndex_bind (onDisk_spec (S.get_spec info _)) ?_ ?_
    · rintro e _ ⟨d₁, -, he, -⟩
      exact he
    · rintro b _ ⟨d₁, rfl, -, -⟩
      cases CapsuleDB.scanPairs i k b.kvPairs with
      | some x => exact trivial
      | none => exact ih' d₁

/-- A get of any key, also of the empty one, fails only if a read does. -/
theorem get_safe (hw : Inv S B w) (k : Str) :
    Outcome (fun _ _ => True) ReadFault (CapsuleDB.get k w) := by
  have hsearch := searchLevels_safe hw k (List.range w.index.numLevels)
    (fun i hi => List.mem_range.mp hi) w.disk
  obtain ⟨kv, hkv⟩ : ∃ kv, w.memtable.get k = .ok kv := by
    unfold Memtable.get
    cases hlock : w.memtable.locklst.find? k with
    | none => exact ⟨_, rfl⟩
    | some u =>
      have hmem : w.memtable.memtable.find? k ≠ none := by
        rw [Ne, ← hw.locks, hlock]
        simp
      obtain ⟨x, hx⟩ := Option.ne_none_iff_exists'.mp hmem
      exact ⟨x, by simp only [hx]⟩
  unfold CapsuleDB.get
  apply Outcome.get_bind
  rw [hkv]
  refine Outcome.lift_bind (Outcome.ite (fun _ => ?_) fun _ => trivial)
  refine Outcome.get_bind (hsearch.bind (fun _ _ he => he) ?_)
  rintro r w' -
  cases r <;> exact trivial

/-- The cursor has gone one pair on. -/
def StepsTo (c c' : Cursor) : Prop :=
  (c'.blockInd = c.blockInd ∧ c'.pairInd = c.pairInd + 1) ∨
  (c'.blockInd = c.blockInd + 1 ∧ c'.pairInd = 0)

/-- A cursor moves on by one pair. -/
theorem advance_stepsTo (blocks : List BlockHeader) (c : Cursor) (d : S.Disk) :
    Outcome (fun c' _ => StepsTo c c') (fun _ _ => True) (c.advance blocks d) := by
  unfold Cursor.advance
  refine Outcome.ite (fun _ => ?_) fun _ => Outcome.pure (Or.inl ⟨rfl, rfl⟩)
  cases blocks[c.blockInd + 1]? with
  | none => exact Outcome.pure (Or.inr ⟨rfl, rfl⟩)
  | some h =>
    apply (S.get_spec h.hash d).bind (fun _ _ _ => trivial)
    intro b d' _
    exact Outcome.pure (Or.inr ⟨rfl, rfl⟩)

/-- A cursor moves on by one pair if it is told to. -/
theorem advanceIf_stepsTo (flag : Bool) (blocks : List BlockHeader) (c : Cursor) (d : S.Disk) :
    Outcome (fun c' _ => (flag = true ∧ StepsTo c c') ∨ (flag = false ∧ c' = c)) (fun _ _ => True)
      (c.advanceIf flag blocks d) := by
  unfold Cursor.advanceIf
  cases flag with
  | true => exact (advance_stepsTo blocks c d).mono (fun _ _ h => Or.inl ⟨rfl, h⟩) fun _ _ h => h
  | false => exact Outcome.pure (Or.inr ⟨rfl, rfl⟩)

/-- Both parts of a sequence that returns have returned. -/
theorem except_bind_eq_ok {ε α β : Type} {x : Except ε α} {f : α → Except ε β} {b : β}
    (h : (x >>= f) = .ok b) : ∃ a, x = .ok a ∧ f a = .ok b := by
  cases x with
  | error e => simp [bind, Except.bind] at h
  | ok a => exact ⟨a, rfl, h⟩

/-- The next pair of the output uses up a pair of one of the lists. -/
theorem nextKVPair_flags {a b : List BlockHeader} {st : MergeState} {p : KvsPayload} {fa fb : Bool}
    (h : nextKVPair a b st = .ok (p, fa, fb)) : fa = true ∨ fb = true := by
  have hpure : ∀ {q : KvsPayload} {ga gb : Bool}, ga = true ∨ gb = true →
      (pure (q, ga, gb) : Except Fault (KvsPayload × Bool × Bool)) = .ok (p, fa, fb) →
      fa = true ∨ fb = true := by
    rintro q ga gb hg heq
    obtain ⟨-, rfl, rfl⟩ := Prod.ext_iff.mp (Except.ok.inj heq) |>.imp id Prod.ext_iff.mp
    exact hg
  unfold nextKVPair at h
  split at h
  · obtain ⟨y, -, h⟩ := except_bind_eq_ok h
    exact hpure (Or.inr rfl) h
  · split at h
    · obtain ⟨x, -, h⟩ := except_bind_eq_ok h
      exact hpure (Or.inl rfl) h
    · obtain ⟨x, -, h⟩ := except_bind_eq_ok h
      obtain ⟨y, -, h⟩ := except_bind_eq_ok h
      split at h
      · exact hpure (Or.inr rfl) h
      · split at h
        · exact hpure (Or.inl rfl) h
        · split at h <;> exact hpure (Or.inl rfl) h

/-- **Every iteration of the merge consumes an entry**: one of the cursors goes a pair on, and
neither goes back. -/
theorem mergeStep_consumes (a b : List BlockHeader) (lvl : Int) (st : MergeState) (d : S.Disk) :
    Outcome
      (fun st' _ => (StepsTo st.a st'.a ∨ StepsTo st.b st'.b) ∧
        (StepsTo st.a st'.a ∨ st'.a = st.a) ∧ (StepsTo st.b st'.b ∨ st'.b = st.b))
      (fun _ _ => True) (mergeStep B a b lvl st d) := by
  unfold mergeStep
  cases hnext : nextKVPair a b st with
  | error e => exact trivial
  | ok r =>
    obtain ⟨p, fa, fb⟩ := r
    have hflags := nextKVPair_flags hnext
    apply Outcome.lift_bind
    apply (advanceIf_stepsTo fa a st.a d).bind (fun _ _ _ => trivial)
    intro curA d₁ hA
    apply (advanceIf_stepsTo fb b st.b d₁).bind (fun _ _ _ => trivial)
    intro curB d₂ hB
    refine Outcome.bind (Q := fun _ _ => True) (E := fun _ _ => True) ?_ (fun _ _ _ => trivial) ?_
    · cases pushPair B lvl st.next_cb st.output p d₂ <;> exact trivial
    · rintro ⟨cb, out⟩ d₃ -
      refine Outcome.pure ⟨?_, hA.imp And.right And.right, hB.imp And.right And.right⟩
      rcases hA with ⟨-, hA⟩ | ⟨rfl, -⟩
      · exact Or.inl hA
      · rcases hB with ⟨-, hB⟩ | ⟨rfl, -⟩
        · exact Or.inr hB
        · simp at hflags

/-- **Compaction ends and stays within its ranges.**  After any sequence of puts, a further put
fails only if the block store does or a capacity overflows: no access, iterator or dereference is
out of range, no merge begins with an empty list, and no loop or recursion runs out of fuel.  It
adds one level at most.  A get fails only if a read does.  And every iteration of a merge consumes
an entry. -/
theorem puts_stay_in_range (hB : 1 ≤ B) (hmax : 2 * B < 2 ^ 31) (d : S.Disk)
    (ps : List KvsPayload) :
    Outcome
      (fun _ w =>
        (∀ p, Outcome (fun _ w' => w'.index.levels.length ≤ w.index.levels.length + 1) Assumed
          (CapsuleDB.put p w)) ∧
        ∀ k, Outcome (fun _ _ => True) ReadFault (CapsuleDB.get k w))
      Assumed (CapsuleDB.puts ps (spawnDB B d)) ∧
    ∀ (a b : List BlockHeader) (lvl : Int) (st : MergeState) (d : S.Disk),
      Outcome
        (fun st' _ => (StepsTo st.a st'.a ∨ StepsTo st.b st'.b) ∧
          (StepsTo st.a st'.a ∨ st'.a = st.a) ∧ (StepsTo st.b st'.b ∨ st'.b = st.b))
        (fun _ _ => True) (mergeStep B a b lvl st d) := by
  refine ⟨(puts_runInv hB hmax d ps).mono ?_ fun _ _ he => he, mergeStep_consumes⟩
  rintro - w ⟨hw, -⟩
  refine ⟨fun p => ?_, fun k => get_safe hw k⟩
  exact (put_spec hB hw p).mono (fun _ _ hp => hp.length_le) fun _ _ he => he.assumed

/-- The theorem at a run with a memory table of one payload. -/
theorem puts_stay_in_range_sample :
    Outcome
      (fun _ w =>
        (∀ p, Outcome (fun _ w' => w'.index.levels.length ≤ w.index.levels.length + 1) Assumed
          (CapsuleDB.put p w)) ∧
        ∀ k, Outcome (fun _ _ => True) ReadFault (CapsuleDB.get k w))
      Assumed (CapsuleDB.puts sampleRun (spawnDB 1 [] : World memoryStore)) ∧
    ∀ (a b : List BlockHeader) (lvl : Int) (st : MergeState) (d : memoryStore.Disk),
      Outcome
        (fun st' _ => (StepsTo st.a st'.a ∨ StepsTo st.b st'.b) ∧
          (StepsTo st.a st'.a ∨ st'.a = st.a) ∧ (StepsTo st.b st'.b ∨ st'.b = st.b))
        (fun _ _ => True) (mergeStep 1 a b lvl st d) :=
  puts_stay_in_range (S := memoryStore) (B := 1) (by decide) (by decide) [] sampleRun

end Capsule.Analysis
