import Capsule.Library.Lockstep
import Capsule.Program.Engine
import Capsule.Analysis.MergeCursor

/-!
# Engines that differ in values only

The engine looks at the key and the timestamp of a payload and copies the rest.  To say so, two
states are compared whose payloads differ by a function `f` that keeps key and timestamp
(`Relabels`).  Their blocks lie on two disks, which may be those of two different stores, under
different hashes; `SameHeader` relates two headers whose blocks hold corresponding payloads, and
likewise for levels and whole states.

This file relates the states and runs a merge on both sides.
-/

set_option autoImplicit false

namespace Capsule.Analysis

open Library Program Interface

variable {S S' : BlockStore} {f : KvsPayload → KvsPayload} {d e : S.Disk} {d' e' : S'.Disk}

/-- A change of payloads that the engine does not notice: keys, timestamps and the answer for a key
that is not found stay. -/
structure Relabels (f : KvsPayload → KvsPayload) : Prop where
  key : ∀ p, (f p).key = p.key
  timestamp : ∀ p, (f p).txn_timestamp = p.txn_timestamp
  notFound : f notFound = notFound

/-- Changing nothing relabels. -/
theorem relabels_id : Relabels id := ⟨fun _ => rfl, fun _ => rfl, rfl⟩

/-- Both sides do the same; an input or output fault on either side excuses both. -/
abbrev InStep {σ σ' α α' : Type} (R : α → σ → α' → σ' → Prop) :
    EStateM.Result Fault σ α → EStateM.Result Fault σ' α' → Prop :=
  Lockstep (fun e => e = Fault.io) R

/-! ## Corresponding states -/

/-- Both disks only gained blocks. -/
structure KeepBoth (S : BlockStore) {S' : BlockStore} (d : S.Disk) (d' : S'.Disk) (e : S.Disk)
    (e' : S'.Disk) : Prop where
  left : Keeps S.stored d e
  right : Keeps S'.stored d' e'

/-- Nothing has been lost where nothing has happened. -/
theorem KeepBoth.refl : KeepBoth S d d' d d' := ⟨keeps_refl d, keeps_refl d'⟩

/-- What both sides keep over two stretches they keep over the whole. -/
theorem KeepBoth.trans {g : S.Disk} {g' : S'.Disk} (h : KeepBoth S d d' e e')
    (h' : KeepBoth S e e' g g') : KeepBoth S d d' g g' :=
  ⟨keeps_trans h.left h'.left, keeps_trans h.right h'.right⟩

/-- Two headers of one range, for stored blocks with corresponding payloads. -/
structure SameHeader (S : BlockStore) {S' : BlockStore} (f : KvsPayload → KvsPayload)
    (d : S.Disk) (d' : S'.Disk) (h h' : BlockHeader) : Prop where
  minKey_eq : h'.minKey = h.minKey
  maxKey_eq : h'.maxKey = h.maxKey
  hash_ne : h.hash ≠ [] ∧ h'.hash ≠ []
  block : ∃ b b', S.stored d h.hash = some b ∧ S'.stored d' h'.hash = some b' ∧
    b'.kvPairs = b.kvPairs.map f

/-- Two lists of corresponding headers. -/
abbrev SameHeaders (S : BlockStore) {S' : BlockStore} (f : KvsPayload → KvsPayload)
    (d : S.Disk) (d' : S'.Disk) : List BlockHeader → List BlockHeader → Prop :=
  List.Forall₂ (SameHeader S f d d')

/-- Two levels with corresponding blocks. -/
structure SameLevel (S : BlockStore) {S' : BlockStore} (f : KvsPayload → KvsPayload)
    (d : S.Disk) (d' : S'.Disk) (l l' : Level) : Prop where
  index_eq : l'.index = l.index
  numBlocks_eq : l'.numBlocks = l.numBlocks
  maxSize_eq : l'.maxSize = l.maxSize
  min_key_eq : l'.min_key = l.min_key
  max_key_eq : l'.max_key = l.max_key
  headers : SameHeaders S f d d' l.recordHashes l'.recordHashes

/-- Two indices with corresponding levels. -/
structure SameIndex (S : BlockStore) {S' : BlockStore} (f : KvsPayload → KvsPayload)
    (d : S.Disk) (d' : S'.Disk) (x x' : CapsuleIndex) : Prop where
  numLevels_eq : x'.numLevels = x.numLevels
  blocksize_eq : x'.blocksize = x.blocksize
  levels : List.Forall₂ (SameLevel S f d d') x.levels x'.levels

/-- Corresponding headers stay so while both disks keep their blocks. -/
theorem SameHeader.keeps {h h' : BlockHeader} (hs : SameHeader S f d d' h h')
    (hk : KeepBoth S d d' e e') : SameHeader S f e e' h h' := by
  obtain ⟨b, b', hb, hb', hkv⟩ := hs.block
  exact ⟨hs.minKey_eq, hs.maxKey_eq, hs.hash_ne, b, b', hk.left _ _ hb, hk.right _ _ hb', hkv⟩

/-- Corresponding lists of headers stay so while both disks keep their blocks. -/
theorem SameHeaders.keeps {hs hs' : List BlockHeader} (h : SameHeaders S f d d' hs hs')
    (hk : KeepBoth S d d' e e') : SameHeaders S f e e' hs hs' :=
  h.imp fun _ _ hg => hg.keeps hk

/-- Corresponding levels stay so while both disks keep their blocks. -/
theorem SameLevel.keeps {l l' : Level} (h : SameLevel S f d d' l l') (hk : KeepBoth S d d' e e') :
    SameLevel S f e e' l l' := { h with headers := SameHeaders.keeps h.headers hk }

/-- Corresponding indexes stay so while both disks keep their blocks. -/
theorem SameIndex.keeps {x x' : CapsuleIndex} (h : SameIndex S f d d' x x')
    (hk : KeepBoth S d d' e e') : SameIndex S f e e' x x' :=
  { h with levels := h.levels.imp fun _ _ hl => hl.keeps hk }

/-- Both sides refer to the same number of blocks. -/
theorem SameHeaders.length_eq {hs hs' : List BlockHeader} (h : SameHeaders S f d d' hs hs') :
    hs'.length = hs.length := (List.Forall₂.length_eq h).symm

/-- Both sides refer to the same number of pairs, so that both merges have the same fuel. -/
theorem SameHeaders.entryCount_eq {hs hs' : List BlockHeader} (h : SameHeaders S f d d' hs hs') :
    entryCount S' d' hs' = entryCount S d hs := by
  unfold entryCount
  induction h with
  | nil => rfl
  | @cons g g' _ _ hg _ ih =>
    obtain ⟨b, b', hb, hb', hkv⟩ := hg.block
    have hlen : (contents S' d' g').length = (contents S d g).length := by
      simp only [contents, hb, hb', hkv, List.length_map]
    simp only [List.map_cons, List.sum_cons, ih, hlen]

/-- The block under construction on both sides. -/
structure SameBlock (f : KvsPayload → KvsPayload) (b b' : CapsuleBlock) : Prop where
  startKey_eq : b'.startKey = b.startKey
  endKey_eq : b'.endKey = b.endKey
  kvPairs_eq : b'.kvPairs = b.kvPairs.map f

/-- New blocks correspond. -/
theorem SameBlock.new (f : KvsPayload → KvsPayload) (lvl : Int) :
    SameBlock f (CapsuleBlock.new lvl) (CapsuleBlock.new lvl) := ⟨rfl, rfl, rfl⟩

/-- Corresponding blocks to which corresponding payloads are added correspond. -/
theorem SameBlock.addKVPair (hf : Relabels f) {b b' : CapsuleBlock} (h : SameBlock f b b')
    (p : KvsPayload) : SameBlock f (b.addKVPair p) (b'.addKVPair (f p)) := by
  refine ⟨?_, ?_, ?_⟩ <;>
    simp [CapsuleBlock.addKVPair, h.startKey_eq, h.endKey_eq, h.kvPairs_eq, hf.key]

/-! ## Reading and writing -/

/-- **A read**: both sides read the same pairs up to relabelling. -/
theorem readIn_inStep {h h' : BlockHeader} (hs : SameHeader S f d d' h h') :
    InStep (fun b e b' e' => KeepBoth S d d' e e' ∧ b'.kvPairs = b.kvPairs.map f)
      (readIn h.hash d) (readIn h'.hash d') := by
  obtain ⟨b₀, b₀', hb, hb', hkv⟩ := hs.block
  refine (Lockstep.of_outcomes (S.get_spec h.hash d) (S'.get_spec h'.hash d') (fun _ _ he => he.1)
    fun _ _ he => he.1).mono ?_
  rintro b e b' e' ⟨⟨hk, hread⟩, hk', hread'⟩
  refine ⟨⟨hk, hk'⟩, ?_⟩
  rw [hread b₀ hb, hread' b₀' hb', hkv]

/-- **A write**: the headers that both sides make of corresponding blocks correspond. -/
theorem writeOut_inStep {b b' : CapsuleBlock} (hb : b'.kvPairs = b.kvPairs.map f) (lo hi : Str) :
    InStep (fun hash e hash' e' => KeepBoth S d d' e e' ∧
        SameHeader S f e e' ⟨hash, lo, hi⟩ ⟨hash', lo, hi⟩)
      (writeOut b d) (writeOut b' d') := by
  refine (Lockstep.of_outcomes (S.put_spec b d) (S'.put_spec b' d') (fun _ _ he => he.1)
    fun _ _ he => he.1).mono ?_
  rintro hash e hash' e' ⟨⟨hne, hk, c, hc, -, hkv⟩, hne', hk', c', hc', -, hkv'⟩
  exact ⟨⟨hk, hk'⟩, rfl, rfl, ⟨hne, hne'⟩, c, c', hc, hc', by rw [hkv, hkv', hb]⟩

/-- The headers of finished blocks of a merge correspond. -/
theorem writeHeader_inStep {b b' : CapsuleBlock} (hb : SameBlock f b b') :
    InStep (fun h e h' e' => KeepBoth S d d' e e' ∧ SameHeader S f e e' h h')
      (writeHeader b d) (writeHeader b' d') := by
  apply (writeOut_inStep hb.kvPairs_eq b.startKey b.endKey).bind
  rintro hash e hash' e' ⟨hk, hs⟩
  refine Lockstep.pure ⟨hk, ?_⟩
  rw [hb.startKey_eq, hb.endKey_eq]
  exact hs

/-! ## A merge on both sides -/

/-- Cursors at corresponding places. -/
structure SameCursor (f : KvsPayload → KvsPayload) (c c' : Cursor) : Prop where
  blockInd_eq : c'.blockInd = c.blockInd
  pairInd_eq : c'.pairInd = c.pairInd
  kvPairs_eq : c'.block.kvPairs = c.block.kvPairs.map f

/-- Corresponding cursors are at corresponding payloads, or both have left their block. -/
theorem SameCursor.pair_eq {c c' : Cursor} (h : SameCursor f c c') :
    c'.pair = c.pair.map f := by
  unfold Cursor.pair
  rw [h.kvPairs_eq, h.pairInd_eq, List.getElem?_map]
  cases c.block.kvPairs[c.pairInd]? <;> rfl

/-- At every position there is a header on both sides or on none. -/
theorem SameHeaders.getElem? {hs hs' : List BlockHeader} (h : SameHeaders S f d d' hs hs') (i : ℕ) :
    (hs[i]? = none ∧ hs'[i]? = none) ∨
    ∃ g g', hs[i]? = some g ∧ hs'[i]? = some g' ∧ SameHeader S f d d' g g' := by
  have hrel := List.forall₂_iff_get.mp h
  by_cases hi : i < hs.length
  · have hi' : i < hs'.length := by rw [h.length_eq]; exact hi
    exact Or.inr ⟨_, _, List.getElem?_eq_getElem hi, List.getElem?_eq_getElem hi', hrel.2 i hi hi'⟩
  · have hi' : ¬ i < hs'.length := by rw [h.length_eq]; exact hi
    exact Or.inl ⟨List.getElem?_eq_none (not_lt.mp hi), List.getElem?_eq_none (not_lt.mp hi')⟩

/-- Corresponding cursors move on to corresponding places. -/
theorem advanceIf_inStep {hs hs' : List BlockHeader} (hsame : SameHeaders S f d d' hs hs')
    {c c' : Cursor} (hc : SameCursor f c c') (flag : Bool) :
    InStep (fun c e c' e' => KeepBoth S d d' e e' ∧ SameCursor f c c')
      (c.advanceIf flag hs d) (c'.advanceIf flag hs' d') := by
  unfold Cursor.advanceIf Cursor.advance
  refine Lockstep.ite Iff.rfl (fun _ => ?_) fun _ => Lockstep.pure ⟨KeepBoth.refl, hc⟩
  have hlen : c'.block.kvPairs.length = c.block.kvPairs.length := by
    rw [hc.kvPairs_eq, List.length_map]
  refine Lockstep.ite (by rw [hc.pairInd_eq, hlen]) (fun _ => ?_) fun _ => ?_
  · rw [hc.blockInd_eq]
    rcases hsame.getElem? (c.blockInd + 1) with ⟨hg, hg'⟩ | ⟨g, g', hg, hg', hsg⟩
    · rw [hg, hg']
      exact Lockstep.pure ⟨KeepBoth.refl, rfl, rfl, hc.kvPairs_eq⟩
    · rw [hg, hg']
      apply (readIn_inStep hsg).bind
      rintro b e b' e' ⟨hk, hkv⟩
      exact Lockstep.pure ⟨hk, rfl, rfl, hkv⟩
  · exact Lockstep.pure ⟨KeepBoth.refl, hc.blockInd_eq, by rw [hc.pairInd_eq], hc.kvPairs_eq⟩

/-- The local variables of a merge on both sides. -/
structure SameMerge (S : BlockStore) {S' : BlockStore} (f : KvsPayload → KvsPayload)
    (d : S.Disk) (d' : S'.Disk) (st st' : MergeState) : Prop where
  a : SameCursor f st.a st'.a
  b : SameCursor f st.b st'.b
  next_cb : SameBlock f st.next_cb st'.next_cb
  output : SameHeaders S f d d' st.output st'.output

/-- Both merges choose the same side: a relabelling keeps keys and timestamps. -/
theorem nextKVPair_map (hf : Relabels f) {a a' b b' : List BlockHeader} (ha : a'.length = a.length)
    (hb : b'.length = b.length) {st st' : MergeState} (hst : SameMerge S f d d' st st') :
    nextKVPair a' b' st' = (nextKVPair a b st).map fun r => (f r.1, r.2) := by
  unfold nextKVPair
  rw [hst.a.blockInd_eq, hst.b.blockInd_eq, ha, hb, hst.a.pair_eq, hst.b.pair_eq]
  split
  · cases st.b.pair <;> rfl
  · split
    · cases st.a.pair <;> rfl
    · cases st.a.pair with
      | error e => rfl
      | ok p =>
        cases st.b.pair with
        | error e => rfl
        | ok q =>
          simp only [bind, Except.bind, Except.map, hf.key, hf.timestamp]
          split_ifs <;> rfl

/-- Both merges cut their output at the same places. -/
theorem pushPair_inStep (hf : Relabels f) (B : ℕ) (lvl : Int) {cb cb' : CapsuleBlock}
    (hcb : SameBlock f cb cb') {out out' : List BlockHeader} (hout : SameHeaders S f d d' out out')
    (p : KvsPayload) :
    InStep (fun r e r' e' => KeepBoth S d d' e e' ∧ SameBlock f r.1 r'.1 ∧
        SameHeaders S f e e' r.2 r'.2)
      (pushPair B lvl cb out p d) (pushPair B lvl cb' out' (f p) d') := by
  have hadd := hcb.addKVPair hf p
  have hlen : (cb'.addKVPair (f p)).kvPairs.length = (cb.addKVPair p).kvPairs.length := by
    rw [hadd.kvPairs_eq, List.length_map]
  refine Lockstep.ite (by rw [hlen]) (fun _ => ?_) fun _ => ?_
  · apply (writeHeader_inStep hadd).bind
    rintro h e h' e' ⟨hk, hs⟩
    refine Lockstep.pure ⟨hk, SameBlock.new f lvl, ?_⟩
    exact List.rel_append (SameHeaders.keeps hout hk) (List.Forall₂.cons hs List.Forall₂.nil)
  · exact Lockstep.pure ⟨KeepBoth.refl, hadd, hout⟩

/-- **A step of both merges** keeps them in correspondence. -/
theorem mergeStep_inStep (hf : Relabels f) (B : ℕ) (lvl : Int) {a a' b b' : List BlockHeader}
    (ha : SameHeaders S f d d' a a') (hb : SameHeaders S f d d' b b') {st st' : MergeState}
    (hst : SameMerge S f d d' st st') :
    InStep (fun t e t' e' => KeepBoth S d d' e e' ∧ SameMerge S f e e' t t')
      (mergeStep B a b lvl st d) (mergeStep B a' b' lvl st' d') := by
  apply Lockstep.lift_bind (nextKVPair_map hf ha.length_eq hb.length_eq hst)
  rintro ⟨p, fa, fb⟩ -
  apply (advanceIf_inStep ha hst.a fa).bind
  rintro curA e₁ curA' e₁' ⟨hk₁, hA⟩
  apply (advanceIf_inStep (SameHeaders.keeps hb hk₁) hst.b fb).bind
  rintro curB e₂ curB' e₂' ⟨hk₂, hB⟩
  have hk := hk₁.trans hk₂
  apply (pushPair_inStep hf B lvl hst.next_cb (SameHeaders.keeps hst.output hk) p).bind
  rintro ⟨cb, out⟩ e₃ ⟨cb', out'⟩ e₃' ⟨hk₃, hcb, hout⟩
  exact Lockstep.pure ⟨hk.trans hk₃, hA, hB, hcb, hout⟩

/-- The loops of both merges end in correspondence: by induction on the fuel. -/
theorem mergeLoop_inStep (hf : Relabels f) (B : ℕ) (lvl : Int) {a a' b b' : List BlockHeader}
    (ha : SameHeaders S f d d' a a') (hb : SameHeaders S f d d' b b') (fuel : ℕ)
    {st st' : MergeState} (hst : SameMerge S f d d' st st') :
    InStep (fun t e t' e' => KeepBoth S d d' e e' ∧ SameMerge S f e e' t t')
      (mergeLoop B a b lvl fuel st d) (mergeLoop B a' b' lvl fuel st' d') := by
  induction fuel generalizing st st' d d' with
  | zero =>
    refine Lockstep.ite ?_ (fun _ => Lockstep.pure ⟨KeepBoth.refl, hst⟩) fun _ => Lockstep.throw
    rw [hst.a.blockInd_eq, hst.b.blockInd_eq, ha.length_eq, hb.length_eq]
  | succ fuel ih =>
    refine Lockstep.ite ?_ (fun _ => Lockstep.pure ⟨KeepBoth.refl, hst⟩) fun _ => ?_
    · rw [hst.a.blockInd_eq, hst.b.blockInd_eq, ha.length_eq, hb.length_eq]
    · apply (mergeStep_inStep hf B lvl ha hb hst).bind
      rintro t e t' e' ⟨hk, ht⟩
      apply (ih (SameHeaders.keeps ha hk) (SameHeaders.keeps hb hk) ht).mono
      rintro u g u' g' ⟨hk', hu⟩
      exact ⟨hk.trans hk', hu⟩

/-- Both merges open the same block first. -/
theorem openCursor_inStep {hs hs' : List BlockHeader} (hsame : SameHeaders S f d d' hs hs') :
    InStep (fun c e c' e' => KeepBoth S d d' e e' ∧ SameCursor f c c')
      (openCursor hs d) (openCursor hs' d') := by
  cases hsame with
  | nil => exact Lockstep.pure ⟨KeepBoth.refl, rfl, rfl, rfl⟩
  | cons hg _ =>
    apply (readIn_inStep hg).bind
    rintro b e b' e' ⟨hk, hkv⟩
    exact Lockstep.pure ⟨hk, rfl, rfl, hkv⟩

/-- **A merge on both sides** makes corresponding blocks. -/
theorem merge_inStep (hf : Relabels f) (B : ℕ) {a a' b b' : List BlockHeader}
    (ha : SameHeaders S f d d' a a') (hb : SameHeaders S f d d' b b') (lvl : Int) :
    InStep (fun out e out' e' => KeepBoth S d d' e e' ∧ SameHeaders S f e e' out out')
      (merge B a b lvl d) (merge B a' b' lvl d') := by
  have hnil : a' = [] ↔ a = [] := by
    rw [← List.length_eq_zero_iff, ← List.length_eq_zero_iff, ha.length_eq]
  unfold merge
  apply Lockstep.ite hnil (fun _ => Lockstep.throw)
  intro _
  apply (openCursor_inStep ha).bind
  rintro curA e₁ curA' e₁' ⟨hk₁, hA⟩
  apply (openCursor_inStep (SameHeaders.keeps hb hk₁)).bind
  rintro curB e₂ curB' e₂' ⟨hk₂, hB⟩
  have hk := hk₁.trans hk₂
  have ha₂ := SameHeaders.keeps ha hk
  have hb₂ := SameHeaders.keeps hb hk
  apply Lockstep.get_bind
  rw [SameHeaders.entryCount_eq (List.rel_append ha₂ hb₂)]
  refine (mergeLoop_inStep hf B lvl ha₂ hb₂ _
    ⟨hA, hB, SameBlock.new f lvl, List.Forall₂.nil⟩).bind ?_
  rintro st e₃ st' e₃' ⟨hk₃, hst⟩
  have hlen : st'.next_cb.kvPairs.length = st.next_cb.kvPairs.length := by
    rw [hst.next_cb.kvPairs_eq, List.length_map]
  refine Lockstep.ite (by rw [hlen]) (fun _ => ?_) fun _ => ?_
  · apply (writeHeader_inStep hst.next_cb).bind
    rintro h e₄ h' e₄' ⟨hk₄, hs⟩
    refine Lockstep.pure ⟨(hk.trans hk₃).trans hk₄, ?_⟩
    exact List.rel_append (SameHeaders.keeps hst.output hk₄)
      (List.Forall₂.cons hs List.Forall₂.nil)
  · exact Lockstep.pure ⟨hk.trans hk₃, hst.output⟩

end Capsule.Analysis
