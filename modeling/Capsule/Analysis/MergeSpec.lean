import Capsule.Analysis.MergeCursor

/-!
# What a merge writes

`merge` of two filled lists of blocks writes the merge of their runs, cut into blocks of
`blocksize` pairs (`merge_spec`).  The loop is handled by an invariant: the blocks written so far
and the block under construction together hold the payloads put out so far (`Pending`), and what
is ahead of the two cursors is still to be merged.  Each iteration takes at least one payload
off what is ahead (`mergeStep_spec`), so the payloads of both lists are fuel enough.
-/

set_option autoImplicit false

namespace Capsule.Analysis

open Library Program Interface

variable {S : BlockStore} {d₀ d : S.Disk} {B : ℕ} {lvl : Int}

/-! ## Blocks as the merge writes them -/

/-- The header of a block that was built by `addKVPair` for level `lvl` and written: its range is
what `addKVPair` computed. -/
structure Written (S : BlockStore) (d : S.Disk) (lvl : Int) (h : BlockHeader) : Prop where
  hash_ne : h.hash ≠ []
  storedAt : StoredAt S d lvl h
  minKey_eq : h.minKey = (blockOf lvl (contents S d h)).startKey
  maxKey_eq : h.maxKey = (blockOf lvl (contents S d h)).endKey

/-- A written block stays so while the disk keeps it. -/
theorem Written.keeps {d' : S.Disk} {h : BlockHeader} (hw : Written S d lvl h)
    (hne : contents S d h ≠ []) (hk : Keeps S.stored d d') : Written S d' lvl h := by
  refine ⟨hw.hash_ne, hw.storedAt.keeps hk, ?_, ?_⟩ <;> rw [contents_keeps hk hne]
  · exact hw.minKey_eq
  · exact hw.maxKey_eq

/-- The header of a written block is true. -/
theorem Written.headerOk {h : BlockHeader} (hw : Written S d lvl h)
    (hs : SortedRun (contents S d h)) (hne : contents S d h ≠ []) : HeaderOk S d h := by
  refine ⟨hw.hash_ne, ?_⟩
  rw [hw.minKey_eq, hw.maxKey_eq]
  exact ranged_blockOf lvl hs hne

/-- Writing a block that `addKVPair` built makes a proper header of it. -/
theorem writeHeader_spec (d : S.Disk) (lvl : Int) (ps : List KvsPayload) :
    Outcome (fun h d' => Keeps S.stored d d' ∧ Written S d' lvl h ∧ contents S d' h = ps)
      (IoFault S d) (writeHeader (blockOf lvl ps) d) := by
  refine (S.put_spec (blockOf lvl ps) d).bind (fun _ _ he => he) fun hash d' hput =>
    Outcome.pure ?_
  obtain ⟨hne, hkd, b, hb, hlvl, hkv⟩ := hput
  have hc : contents S d' ⟨hash, (blockOf lvl ps).startKey, (blockOf lvl ps).endKey⟩ = ps := by
    rw [contents_of_stored hb, hkv, kvPairs_blockOf]
  refine ⟨hkd, ⟨hne, ⟨b, hb, ?_⟩, ?_, ?_⟩, hc⟩
  · rw [hlvl, level_blockOf]
  · rw [hc]
  · rw [hc]

/-! ## Putting out one payload -/

/-- The written blocks `out`, all full, and the block `cb` under construction, which has room, hold
the payloads `zs`. -/
structure Pending (S : BlockStore) (d : S.Disk) (B : ℕ) (lvl : Int) (cb : CapsuleBlock)
    (out : List BlockHeader) (zs : List KvsPayload) : Prop where
  full : ∀ h ∈ out, Written S d lvl h ∧ (contents S d h).length = B
  rest : ∃ cur, cb = blockOf lvl cur ∧ cur.length < B ∧ runOf S d out ++ cur = zs

/-- Nothing has been merged at first. -/
theorem Pending.start (hB : 1 ≤ B) : Pending S d B lvl (CapsuleBlock.new lvl) [] [] :=
  ⟨by simp, [], rfl, by simpa using Nat.pos_of_ne_zero (by omega), rfl⟩

/-- The finished blocks of a merge are filled. -/
theorem Pending.filled (hB : 1 ≤ B) {cb : CapsuleBlock} {out : List BlockHeader}
    {zs : List KvsPayload} (hp : Pending S d B lvl cb out zs) : Filled S d out := fun h hh => by
  have hlen := (hp.full h hh).2
  apply List.length_pos_iff.mp
  omega

/-- The output of a merge stays while the disk keeps its blocks. -/
theorem Pending.keeps {d' : S.Disk} (hB : 1 ≤ B) {cb : CapsuleBlock} {out : List BlockHeader}
    {zs : List KvsPayload} (hp : Pending S d B lvl cb out zs) (hk : Keeps S.stored d d') :
    Pending S d' B lvl cb out zs := by
  obtain ⟨cur, hcb, hlt, hrun⟩ := hp.rest
  refine ⟨fun h hh => ?_, cur, hcb, hlt, ?_⟩
  · have hne := hp.filled hB h hh
    exact ⟨(hp.full h hh).1.keeps hne hk, by rw [contents_keeps hk hne]; exact (hp.full h hh).2⟩
  · rw [runOf_keeps hk (hp.filled hB), hrun]

/-- **Taking a pair**: the output holds one pair more, cut into full blocks. -/
theorem pushPair_spec (hB : 1 ≤ B) {cb : CapsuleBlock} {out : List BlockHeader}
    {zs : List KvsPayload} (hp : Pending S d B lvl cb out zs) (p : KvsPayload) :
    Outcome (fun r d' => Keeps S.stored d d' ∧ Pending S d' B lvl r.1 r.2 (zs ++ [p]))
      (IoFault S d) (pushPair B lvl cb out p d) := by
  obtain ⟨cur, rfl, hlt, rfl⟩ := hp.rest
  unfold pushPair
  simp only [← blockOf_concat, kvPairs_blockOf]
  refine Outcome.ite (fun hfull => ?_) fun hroom =>
    Outcome.pure ⟨keeps_refl d, hp.full, cur ++ [p], rfl, ?_, ?_⟩
  · refine (writeHeader_spec d lvl (cur ++ [p])).bind (fun _ _ he => he) fun bh d' hbh =>
      Outcome.pure ⟨hbh.1, fun h hh => ?_, [], rfl, hB, ?_⟩
    · rcases List.mem_append.mp hh with hh | hh
      · exact (hp.keeps hB hbh.1).full h hh
      · rw [List.mem_singleton.mp hh]
        exact ⟨hbh.2.1, by rw [hbh.2.2]; exact hfull⟩
    · rw [runOf_append, runOf_keeps hbh.1 (hp.filled hB), runOf_cons, hbh.2.2]
      simp
  · simp only [List.length_append, List.length_singleton] at hroom ⊢
    omega
  · simp

/-! ## The loop -/

section Loop

variable {a b : List BlockHeader} {st : MergeState} {xs ys zs : List KvsPayload}

/-- **Moving on**: the cursor drops its pair if it is told to. -/
theorem advanceIf_spec {hs : List BlockHeader} (hf : Filled S d₀ hs) (hk : Keeps S.stored d₀ d)
    {c : Cursor} (hc : CursorAt S d₀ hs c xs) (flag : Bool) (hne : flag = true → xs ≠ []) :
    Outcome (fun c' d' => Keeps S.stored d d' ∧
        CursorAt S d₀ hs c' (if flag then xs.tail else xs))
      (IoFault S d) (c.advanceIf flag hs d) := by
  cases flag with
  | false => exact Outcome.pure ⟨keeps_refl d, hc⟩
  | true =>
    obtain ⟨x, xs, rfl⟩ := List.exists_cons_of_ne_nil (hne rfl)
    exact advance_spec hf hk hc

/-- The state of the loop: `xs` and `ys` are ahead of the cursors and `zs` has been put out. -/
structure LoopAt (S : BlockStore) (d₀ d : S.Disk) (B : ℕ) (lvl : Int) (a b : List BlockHeader)
    (st : MergeState) (xs ys zs : List KvsPayload) : Prop where
  keeps : Keeps S.stored d₀ d
  left : CursorAt S d₀ a st.a xs
  right : CursorAt S d₀ b st.b ys
  pending : Pending S d B lvl st.next_cb st.output zs

/-- **One iteration** puts out the next payload of the merge and takes at least one payload off
what is ahead. -/
theorem mergeStep_spec (hB : 1 ≤ B) (hfa : Filled S d₀ a) (hfb : Filled S d₀ b)
    (hl : LoopAt S d₀ d B lvl a b st xs ys zs) (hne : xs ≠ [] ∨ ys ≠ []) :
    ∃ xs' ys' p, mergeRuns xs ys = p :: mergeRuns xs' ys' ∧
      xs'.length + ys'.length < xs.length + ys.length ∧
      Outcome (fun st' d' => Keeps S.stored d d' ∧ LoopAt S d₀ d' B lvl a b st' xs' ys' (zs ++ [p]))
        (IoFault S d) (mergeStep B a b lvl st d) := by
  obtain ⟨p, moveA, moveB, hnext, hneA, hneB, hmove, hmerge⟩ := nextKVPair_spec hl.left hl.right hne
  refine ⟨_, _, p, hmerge, ?_, ?_⟩
  · -- a cursor that moves has a payload ahead
    have hlen : ∀ (flag : Bool) (zs : List KvsPayload), (flag = true → zs ≠ []) →
        (if flag then zs.tail else zs).length + flag.toNat = zs.length := by
      intro flag zs hzs
      cases flag with
      | false => rfl
      | true =>
        obtain ⟨z, zs, rfl⟩ := List.exists_cons_of_ne_nil (hzs rfl)
        rfl
    have hA := hlen moveA xs hneA
    have hB := hlen moveB ys hneB
    have hflag : 1 ≤ moveA.toNat + moveB.toNat := by
      rcases hmove with rfl | rfl <;> simp
    omega
  · unfold mergeStep
    rw [hnext]
    apply (advanceIf_spec hfa hl.keeps hl.left moveA hneA).bind (fun _ _ he => he)
    intro curA d₁ ⟨hk₁, hcurA⟩
    refine (advanceIf_spec hfb (keeps_trans hl.keeps hk₁) hl.right moveB hneB).bind
      (fun _ _ he => he.after hk₁) ?_
    intro curB d₂ ⟨hk₂, hcurB⟩
    have hk : Keeps S.stored d d₂ := keeps_trans hk₁ hk₂
    apply (pushPair_spec hB (hl.pending.keeps hB hk) p).bind (fun _ _ he => he.after hk)
    intro r d₃ ⟨hk₃, hp⟩
    have hk' : Keeps S.stored d d₃ := keeps_trans hk hk₃
    exact Outcome.pure ⟨hk', keeps_trans hl.keeps hk', hcurA, hcurB, hp⟩

/-- **The loop** merges all that is ahead, with one unit of fuel for each payload. -/
theorem mergeLoop_spec (hB : 1 ≤ B) (hfa : Filled S d₀ a) (hfb : Filled S d₀ b) (fuel : ℕ)
    (hl : LoopAt S d₀ d B lvl a b st xs ys zs) (hfuel : xs.length + ys.length ≤ fuel) :
    Outcome (fun st' d' => Keeps S.stored d d' ∧
        Pending S d' B lvl st'.next_cb st'.output (zs ++ mergeRuns xs ys))
      (IoFault S d) (mergeLoop B a b lvl fuel st d) := by
  have hend : (st.a.blockInd = a.length ∧ st.b.blockInd = b.length) ↔ xs = [] ∧ ys = [] := by
    rw [hl.left.atEnd_iff, hl.right.atEnd_iff]
  -- nothing ahead: the loop ends
  have hdone :
      xs = [] ∧ ys = [] → Pending S d B lvl st.next_cb st.output (zs ++ mergeRuns xs ys) := by
    rintro ⟨rfl, rfl⟩
    simpa using hl.pending
  induction fuel generalizing d st xs ys zs with
  | zero =>
    have hxs : xs = [] := List.eq_nil_of_length_eq_zero (by omega)
    have hys : ys = [] := List.eq_nil_of_length_eq_zero (by omega)
    rw [mergeLoop, if_pos (hend.mpr ⟨hxs, hys⟩)]
    exact Outcome.pure ⟨keeps_refl d, hdone ⟨hxs, hys⟩⟩
  | succ fuel ih =>
    rw [mergeLoop]
    apply Outcome.ite (fun h => Outcome.pure ⟨keeps_refl d, hdone (hend.mp h)⟩)
    intro h
    have hne : xs ≠ [] ∨ ys ≠ [] := by
      rw [hend] at h
      tauto
    obtain ⟨xs', ys', p, hmerge, hlt, hstep⟩ := mergeStep_spec hB hfa hfb hl hne
    apply hstep.bind (fun _ _ he => he)
    intro st' d' ⟨hk, hl'⟩
    rw [hmerge, List.append_cons]
    refine (ih hl' (by omega) ?_ ?_).mono (fun _ _ hr => ⟨keeps_trans hk hr.1, hr.2⟩)
      fun _ _ he => he.after hk
    · rw [hl'.left.atEnd_iff, hl'.right.atEnd_iff]
    · rintro ⟨rfl, rfl⟩
      simpa using hl'.pending

end Loop

/-! ## The whole merge -/

/-- What a merge hands back: written blocks, full but for the last, that hold the payloads. -/
structure Cut (S : BlockStore) (d : S.Disk) (B : ℕ) (lvl : Int) (out : List BlockHeader)
    (ps : List KvsPayload) : Prop where
  written : ∀ h ∈ out, Written S d lvl h
  fullCut : FullCut B (out.map (contents S d))
  run_eq : runOf S d out = ps

/-- The blocks of a finished merge are filled. -/
theorem Cut.filled {out : List BlockHeader} {ps : List KvsPayload} (hc : Cut S d B lvl out ps) :
    Filled S d out := fun _ hh =>
  List.length_pos_iff.mp (hc.fullCut.size _ (List.mem_map_of_mem hh)).1

/-- A finished merge has as few blocks as its pairs need. -/
theorem Cut.length_le {out : List BlockHeader} {ps : List KvsPayload} (hc : Cut S d B lvl out ps)
    {n : ℕ} (hn : ps.length ≤ n * B) : out.length ≤ n := by
  have hlen := hc.run_eq ▸ hn
  simpa using hc.fullCut.length_le hlen

/-- Closing the output writes the block under construction, unless it is empty. -/
theorem Pending.close (hB : 1 ≤ B) {cb : CapsuleBlock} {out : List BlockHeader}
    {zs : List KvsPayload} (hp : Pending S d B lvl cb out zs) :
    Outcome (fun out' d' => Keeps S.stored d d' ∧ Cut S d' B lvl out' zs) (IoFault S d)
      ((if cb.kvPairs.length > 0 then do
          let bh ← writeHeader cb
          pure (out ++ [bh])
        else pure out : DiskM S (List BlockHeader)) d) := by
  obtain ⟨cur, rfl, hlt, rfl⟩ := hp.rest
  have hfull : ∀ c ∈ out.map (contents S d), c.length = B := by
    simpa using fun h hh => (hp.full h hh).2
  rw [kvPairs_blockOf]
  refine Outcome.ite (fun hcur => ?_) fun hcur => ?_
  · apply (writeHeader_spec d lvl cur).bind (fun _ _ he => he)
    intro bh d' ⟨hk, hw, hc⟩
    have hp' := hp.keeps hB hk
    have hmap := map_contents_keeps hk (hp.filled hB)
    refine Outcome.pure ⟨hk, fun h hh => ?_, ?_, ?_⟩
    · rcases List.mem_append.mp hh with hh | hh
      · exact (hp'.full h hh).1
      · rwa [List.mem_singleton.mp hh]
    · rw [List.map_append, hmap, List.map_singleton, hc]
      exact FullCut.concat hfull hcur hlt.le
    · rw [runOf_append, runOf_keeps hk (hp.filled hB), runOf_cons, hc, runOf_nil, List.append_nil]
  · have hnil : cur = [] := List.eq_nil_of_length_eq_zero (by omega)
    refine Outcome.pure ⟨keeps_refl d, fun h hh => (hp.full h hh).1, FullCut.of_full hB hfull, ?_⟩
    rw [hnil, List.append_nil]

/-- **The merge of two lists of blocks** holds the merge of their runs, cut into full blocks. -/
theorem merge_spec (hB : 1 ≤ B) {a b : List BlockHeader} (ha : a ≠ []) (hfa : Filled S d a)
    (hfb : Filled S d b) (lvl : Int) :
    Outcome (fun out d' => Keeps S.stored d d' ∧
        Cut S d' B lvl out (mergeRuns (runOf S d a) (runOf S d b)))
      (IoFault S d) (merge B a b lvl d) := by
  unfold merge
  rw [if_neg ha]
  apply (openCursor_spec hfa (keeps_refl d)).bind (fun _ _ he => he)
  intro curA d₁ ⟨hk₁, hcurA⟩
  apply (openCursor_spec hfb hk₁).bind (fun _ _ he => he.after hk₁)
  intro curB d₂ ⟨hk₂, hcurB⟩
  have hk : Keeps S.stored d d₂ := keeps_trans hk₁ hk₂
  apply Outcome.get_bind
  have hstart : LoopAt S d d₂ B lvl a b ⟨curA, curB, CapsuleBlock.new lvl, []⟩ (runOf S d a)
      (runOf S d b) [] := ⟨hk, hcurA, hcurB, Pending.start hB⟩
  -- the fuel counts the pairs that can be read
  have hfuel : (runOf S d a).length + (runOf S d b).length ≤ entryCount S d₂ (a ++ b) := by
    rw [← length_runOf, runOf_append, List.length_append, runOf_keeps hk hfa, runOf_keeps hk hfb]
  apply (mergeLoop_spec hB hfa hfb _ hstart hfuel).bind (fun _ _ he => he.after hk)
  intro st d₃ ⟨hk₃, hp⟩
  have hk' : Keeps S.stored d d₃ := keeps_trans hk hk₃
  rw [List.nil_append] at hp
  exact (hp.close hB).mono (fun _ _ hr => ⟨keeps_trans hk' hr.1, hr.2⟩) fun _ _ he => he.after hk'

end Capsule.Analysis
