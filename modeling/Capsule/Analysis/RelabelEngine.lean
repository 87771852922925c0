import Capsule.Analysis.Relabel
import Capsule.Analysis.Select

/-!
# The engine on both sides

`Analysis.Relabel` runs a merge on two disks, of one store or of two, whose payloads differ by `f`.
Here the index, the memory table, `put` and `get` are run that way: compaction looks at the ranges
of the blocks, the memory table at keys and timestamps, so both sides take every branch together.

`put_inStep` and `get_inStep` are the results.
-/

set_option autoImplicit false

namespace Capsule.Analysis

open Library Program Interface

variable {S S' : BlockStore} {f : KvsPayload → KvsPayload} {d : S.Disk} {d' : S'.Disk}

/-! ## Choosing and sorting blocks -/

/-- Splitting corresponding lists at the first place where a test fails on both sides. -/
theorem forall₂_takeWhile_dropWhile {α : Type} {R : α → α → Prop} {p q : α → Bool} {l l' : List α}
    (h : List.Forall₂ R l l') (hpq : ∀ a b, R a b → q b = p a) :
    List.Forall₂ R (l.takeWhile p) (l'.takeWhile q) ∧
      List.Forall₂ R (l.dropWhile p) (l'.dropWhile q) := by
  induction h with
  | nil => exact ⟨List.Forall₂.nil, List.Forall₂.nil⟩
  | @cons a b l l' hab hl ih =>
    rw [List.takeWhile_cons, List.takeWhile_cons, List.dropWhile_cons, List.dropWhile_cons,
      hpq a b hab]
    cases p a with
    | false => exact ⟨List.Forall₂.nil, List.Forall₂.cons hab hl⟩
    | true => exact ⟨List.Forall₂.cons hab ih.1, ih.2⟩

/-- Sorting corresponding lists by a comparison that cannot tell the sides apart. -/
theorem forall₂_stdSort {α : Type} {R : α → α → Prop} {lt : α → α → Bool} {l l' : List α}
    (h : List.Forall₂ R l l') (hlt : ∀ a b a' b', R a a' → R b b' → lt b' a' = lt b a) :
    List.Forall₂ R (stdSort lt l) (stdSort lt l') := by
  have hinsert : ∀ {a a' : α} {l l' : List α}, R a a' → List.Forall₂ R l l' →
      List.Forall₂ R (l.orderedInsert (fun a b => lt b a = false) a)
        (l'.orderedInsert (fun a b => lt b a = false) a') := by
    intro a a' l l' ha hl
    induction hl with
    | nil => exact List.Forall₂.cons ha List.Forall₂.nil
    | @cons b b' l l' hb hl ih =>
      rw [List.orderedInsert_cons, List.orderedInsert_cons, hlt a b a' b' ha hb]
      split
      · exact List.Forall₂.cons ha (List.Forall₂.cons hb hl)
      · exact List.Forall₂.cons hb ih
  unfold stdSort
  induction h with
  | nil => exact List.Forall₂.nil
  | cons hab _ ih => exact hinsert hab ih

/-- The loop over the blocks of the destination picks the same blocks on both sides. -/
theorem affectedBlocks_same {source source' dest dest' out out' rest rest' : List BlockHeader}
    (hs : SameHeaders S f d d' source source') (hd : SameHeaders S f d d' dest dest')
    (hout : SameHeaders S f d d' out out') (hrest : SameHeaders S f d d' rest rest') :
    SameHeaders S f d d' (affectedBlocks source dest out rest).1
        (affectedBlocks source' dest' out' rest').1 ∧
      SameHeaders S f d d' (affectedBlocks source dest out rest).2
        (affectedBlocks source' dest' out' rest').2 := by
  fun_induction affectedBlocks source dest out rest generalizing source' dest' out' rest' with
  | case1 s source e dest out rest hc below =>
    rename_i ih
    cases hs with
    | @cons _ s' _ source' hss hsource =>
    cases hd with
    | @cons _ e' _ dest' hee hdest =>
      have hc' : s'.minKey > e'.minKey ∧ s'.minKey > e'.maxKey := by
        rw [hss.minKey_eq, hee.minKey_eq, hee.maxKey_eq]
        exact hc
      have hbelow : ∀ a b, SameHeader S f d d' a b → decide (s'.maxKey > b.maxKey) = below a := by
        intro a b hab
        rw [hss.maxKey_eq, hab.maxKey_eq]
      have hsplit := forall₂_takeWhile_dropWhile (List.Forall₂.cons hee hdest) hbelow
      rw [affectedBlocks, if_pos hc']
      exact ih hsource hsplit.2 (List.rel_append hout hsplit.1) hrest
  | case2 s source e dest out rest hc ih =>
    cases hs with
    | @cons _ s' _ source' hss hsource =>
    cases hd with
    | @cons _ e' _ dest' hee hdest =>
      have hc' : ¬ (s'.minKey > e'.minKey ∧ s'.minKey > e'.maxKey) := by
        rw [hss.minKey_eq, hee.minKey_eq, hee.maxKey_eq]
        exact hc
      rw [affectedBlocks, if_neg hc']
      exact ih (List.Forall₂.cons hss hsource) hdest hout
        (List.rel_append hrest (List.Forall₂.cons hee List.Forall₂.nil))
  | case3 source dest out rest hne =>
    have hdone : affectedBlocks source' dest' out' rest' = (out', rest' ++ dest') := by
      rw [affectedBlocks]
      rintro s' source₁ e' dest₁ rfl rfl
      obtain ⟨s, source₀, -, -, rfl⟩ := List.forall₂_cons_right_iff.mp hs
      obtain ⟨e, dest₀, -, -, rfl⟩ := List.forall₂_cons_right_iff.mp hd
      exact hne s source₀ e dest₀ rfl rfl
    rw [hdone]
    exact ⟨hout, List.rel_append hrest hd⟩

/-- Both sides hand down the same blocks, or both find the source empty. -/
theorem selectBlocks_same {source source' dest dest' : List BlockHeader}
    (hs : SameHeaders S f d d' source source') (hd : SameHeaders S f d d' dest dest') :
    (∃ e, selectBlocks source dest = .error e ∧ selectBlocks source' dest' = .error e) ∨
    ∃ r r', selectBlocks source dest = .ok r ∧ selectBlocks source' dest' = .ok r' ∧
      SameHeaders S f d d' r.1 r'.1 ∧ SameHeaders S f d d' r.2 r'.2 := by
  obtain ⟨hnew, hrem⟩ := affectedBlocks_same hs hd List.Forall₂.nil List.Forall₂.nil
  have hlt : ∀ a b a' b', SameHeader S f d d' a a' → SameHeader S f d d' b b' →
      compareHeaders b' a' = compareHeaders b a := by
    intro a b a' b' ha hb
    unfold compareHeaders
    rw [ha.minKey_eq, hb.minKey_eq]
  unfold selectBlocks
  simp only [hnew.length_eq, hrem.length_eq, SameHeaders.length_eq hs]
  split
  · split
    · exact Or.inl ⟨_, rfl, rfl⟩
    · refine Or.inr ⟨_, _, rfl, rfl, ?_, List.forall₂_drop _ hrem⟩
      exact forall₂_stdSort (List.rel_append hnew (List.forall₂_take _ hrem)) hlt
  · exact Or.inr ⟨_, _, rfl, rfl, hnew, hrem⟩

/-! ## The methods of the index -/

/-- Two states of the index with corresponding levels. -/
abbrev SameState (f : KvsPayload → KvsPayload) (s : IndexState S) (s' : IndexState S') : Prop :=
  SameIndex S f s.disk s'.disk s.index s'.index

/-- The disks of one pair of states gained blocks on the way to another. -/
abbrev GrowBoth (s : IndexState S) (s' : IndexState S') (t : IndexState S) (t' : IndexState S') :
    Prop := KeepBoth S s.disk s'.disk t.disk t'.disk

variable {s : IndexState S} {s' : IndexState S'}

/-- What a step of the index does on both sides. -/
abbrev StepBoth (f : KvsPayload → KvsPayload) (s : IndexState S) (s' : IndexState S') :
    Unit → IndexState S → Unit → IndexState S' → Prop :=
  fun _ t _ t' => GrowBoth s s' t t' ∧ SameState f t t'

/-- Both sides find corresponding levels, or none. -/
theorem levelAt_inStep (h : SameState f s s') (i : ℕ) :
    InStep (fun l t l' t' => t = s ∧ t' = s' ∧ SameLevel S f s.disk s'.disk l l')
      (levelAt i s) (levelAt i s') := by
  unfold levelAt
  apply Lockstep.get_bind
  have hrel := List.forall₂_iff_get.mp h.levels
  by_cases hi : i < s.index.levels.length
  · have hi' : i < s'.index.levels.length := hrel.1 ▸ hi
    rw [List.getElem?_eq_getElem hi, List.getElem?_eq_getElem hi']
    exact Lockstep.pure ⟨rfl, rfl, hrel.2 i hi hi'⟩
  · have hi' : ¬ i < s'.index.levels.length := hrel.1 ▸ hi
    rw [List.getElem?_eq_none (not_lt.mp hi), List.getElem?_eq_none (not_lt.mp hi')]
    exact Lockstep.throw

/-- Replacing a level by corresponding ones keeps the indexes in correspondence. -/
theorem SameIndex.putLevel (h : SameState f s s') {l l' : Level} (i : ℕ)
    (hl : SameLevel S f s.disk s'.disk l l') : SameState f (s.putLevel i l) (s'.putLevel i l') := by
  refine ⟨h.numLevels_eq, h.blocksize_eq, ?_⟩
  show List.Forall₂ _ (s.index.levels.set i l) (s'.index.levels.set i l')
  have hrel := List.forall₂_iff_get.mp h.levels
  refine List.forall₂_iff_get.mpr ⟨by rw [List.length_set, List.length_set, hrel.1], ?_⟩
  intro j hj hj'
  simp only [List.get_eq_getElem, List.getElem_set]
  split
  · exact hl
  · exact hrel.2 j (by simpa using hj) (by simpa using hj')

/-- Storing corresponding levels is a step of both sides. -/
theorem setLevel_inStep (h : SameState f s s') {l l' : Level} (i : ℕ)
    (hl : SameLevel S f s.disk s'.disk l l') :
    InStep (StepBoth f s s') (setLevel i l s) (setLevel i l' s') :=
  ⟨KeepBoth.refl, h.putLevel i hl⟩

/-- A computation on the disks leaves both indexes as they are. -/
theorem onDisk_inStep {α α' : Type} {R : α → S.Disk → α' → S'.Disk → Prop} {x : DiskM S α}
    {x' : DiskM S' α'} (h : InStep R (x s.disk) (x' s'.disk)) :
    InStep (fun a t a' t' => ∃ e e', t = { s with disk := e } ∧ t' = { s' with disk := e' } ∧
      R a e a' e') (onDisk x s) (onDisk x' s') := Lockstep.zoom h

/-- What follows a look at a level has to be shown for corresponding levels only. -/
theorem levelAt_bind_inStep {α α' : Type} {R : α → IndexState S → α' → IndexState S' → Prop}
    (h : SameState f s s') (i : ℕ) {k : Level → IndexM S α} {k' : Level → IndexM S' α'}
    (hk : ∀ l l', SameLevel S f s.disk s'.disk l l' → InStep R (k l s) (k' l' s')) :
    InStep R ((levelAt i >>= k) s) ((levelAt i >>= k') s') := by
  apply (levelAt_inStep h i).bind
  rintro l t l' t' ⟨ht, ht', hl⟩
  rw [ht, ht']
  exact hk l l' hl

/-- What follows a computation on the disks starts from the disks it leaves. -/
theorem onDisk_bind_inStep {α α' β β' : Type} {R : α → S.Disk → α' → S'.Disk → Prop}
    {Q : β → IndexState S → β' → IndexState S' → Prop} {x : DiskM S α} {x' : DiskM S' α'}
    {k : α → IndexM S β} {k' : α' → IndexM S' β'} (h : InStep R (x s.disk) (x' s'.disk))
    (hk : ∀ a e a' e', R a e a' e' →
      InStep Q (k a { s with disk := e }) (k' a' { s' with disk := e' })) :
    InStep Q ((onDisk x >>= k) s) ((onDisk x' >>= k') s') := by
  apply (onDisk_inStep h).bind
  rintro a _ a' _ ⟨e, e', rfl, rfl, hr⟩
  exact hk a e a' e' hr

/-- A step of both sides after another one is a step from where that one started. -/
theorem StepBoth.after {t : IndexState S} {t' : IndexState S'}
    {r : EStateM.Result Fault (IndexState S) Unit} {r' : EStateM.Result Fault (IndexState S') Unit}
    (hk : GrowBoth s s' t t') (h : InStep (StepBoth f t t') r r') : InStep (StepBoth f s s') r r' :=
  h.mono fun _ _ _ _ hr => ⟨hk.trans hr.1, hr.2⟩

/-- Corresponding levels with corresponding new blocks correspond. -/
theorem SameLevel.setBlocks {l l' : Level} (h : SameLevel S f d d' l l')
    {hs hs' : List BlockHeader} (hb : SameHeaders S f d d' hs hs') :
    SameLevel S f d d' (l.setBlocks hs) (l'.setBlocks hs') := by
  refine ⟨h.index_eq, hb.length_eq, h.maxSize_eq, ?_, ?_, hb⟩
  · dsimp only [Level.setBlocks]
    rw [List.head?_eq_getElem?, List.head?_eq_getElem?]
    rcases hb.getElem? 0 with ⟨hg, hg'⟩ | ⟨g, g', hg, hg', hsg⟩
    · rw [hg, hg']
    · rw [hg, hg']
      exact hsg.minKey_eq
  · dsimp only [Level.setBlocks]
    rw [List.getLast?_eq_getElem?, List.getLast?_eq_getElem?, hb.length_eq]
    rcases hb.getElem? (hs.length - 1) with ⟨hg, hg'⟩ | ⟨g, g', hg, hg', hsg⟩
    · rw [hg, hg']
    · rw [hg, hg']
      exact hsg.maxKey_eq

/-- Both sides add a level of the same capacity, or neither does. -/
theorem addLevelIf_inStep (h : SameState f s s') {c c' : Prop} [Decidable c] [Decidable c']
    (hc : c' ↔ c) (size : Except Fault Int) :
    InStep (StepBoth f s s') (addLevelIf c size s) (addLevelIf c' size s') := by
  refine Lockstep.ite hc (fun _ => ?_) fun _ => Lockstep.pure ⟨KeepBoth.refl, h⟩
  cases size with
  | error e => exact Or.inl rfl
  | ok n =>
    refine ⟨KeepBoth.refl, by simp [IndexState.growLevel, h.numLevels_eq], h.blocksize_eq, ?_⟩
    show List.Forall₂ _ (s.index.levels ++ _) (s'.index.levels ++ _)
    rw [h.numLevels_eq]
    exact List.rel_append h.levels (List.Forall₂.cons ⟨rfl, rfl, rfl, rfl, rfl, List.Forall₂.nil⟩
      List.Forall₂.nil)

/-- Merging corresponding blocks into a level is a step of both sides. -/
theorem mergeInto_inStep (hf : Relabels f) (h : SameState f s s') {src src' : List BlockHeader}
    (hsrc : SameHeaders S f s.disk s'.disk src src') (i : ℕ) :
    InStep (StepBoth f s s') (mergeInto src i s) (mergeInto src' i s') := by
  unfold mergeInto
  refine Lockstep.get_bind (levelAt_bind_inStep h i fun l l' hl => ?_)
  rw [h.blocksize_eq]
  apply onDisk_bind_inStep (merge_inStep hf _ hsrc hl.headers i)
  rintro out e out' e' ⟨hk, hout⟩
  have h₁ : SameState f { s with disk := e } { s' with disk := e' } := SameIndex.keeps h hk
  apply levelAt_bind_inStep h₁ i
  intro m m' hm
  exact StepBoth.after hk (setLevel_inStep h₁ i (hm.setBlocks hout))

/-- Sorted blocks handed to a level, on both sides. -/
abbrev CompactsBoth (f : KvsPayload → KvsPayload) (c : List BlockHeader → ℕ → IndexM S Unit)
    (c' : List BlockHeader → ℕ → IndexM S' Unit) : Prop :=
  ∀ {s : IndexState S} {s' : IndexState S'} {src src' : List BlockHeader} (i : ℕ),
    SameState f s s' → SameHeaders S f s.disk s'.disk src src' →
    InStep (StepBoth f s s') (c src i s) (c' src' i s')

/-- Handing down blocks is a step of both sides, if the recursive call below is. -/
theorem pushDown_inStep {c : List BlockHeader → ℕ → IndexM S Unit}
    {c' : List BlockHeader → ℕ → IndexM S' Unit} (hc : CompactsBoth f c c')
    (h : SameState f s s') {src src' : List BlockHeader}
    (hsrc : SameHeaders S f s.disk s'.disk src src') (i : ℕ) :
    InStep (StepBoth f s s') (pushDown c src i s) (pushDown c' src' i s') := by
  unfold pushDown
  refine levelAt_bind_inStep h i fun l l' hl => Lockstep.get_bind ?_
  rw [hl.maxSize_eq]
  apply (addLevelIf_inStep h (by rw [hl.index_eq, h.numLevels_eq]) _).bind
  rintro - t - t' ⟨hk₁, ht⟩
  have hsel := selectBlocks_same (SameHeaders.keeps hsrc hk₁) (SameHeaders.keeps hl.headers hk₁)
  rcases hsel with ⟨e, he, he'⟩ | ⟨⟨new, rem⟩, ⟨new', rem'⟩, hr, hr', hnew, hrem⟩
  · rw [he, he']
    exact Or.inl rfl
  rw [hr, hr']
  show InStep (StepBoth f s s') ((c new (i + 1) >>= _) t) ((c' new' (i + 1) >>= _) t')
  apply (hc (i + 1) ht hnew).bind
  rintro - u - u' ⟨hk₂, hu⟩
  apply levelAt_bind_inStep hu i
  intro m m' hm
  exact StepBoth.after (hk₁.trans hk₂)
    (setLevel_inStep hu i (hm.setBlocks (SameHeaders.keeps hrem hk₂)))

/-- **Merging into a level and below**, by induction on the depth. -/
theorem compactHelper_inStep (hf : Relabels f) (fuel : ℕ) :
    CompactsBoth f (compactHelper (S := S) fuel) (compactHelper (S := S') fuel) := by
  induction fuel with
  | zero => exact fun _ _ _ => Lockstep.throw
  | succ fuel ih =>
    intro s s' src src' i h hsrc
    unfold compactHelper
    refine Lockstep.get_bind (levelAt_bind_inStep h i fun l l' hl => ?_)
    rw [h.blocksize_eq, hsrc.length_eq, hl.headers.length_eq, hl.maxSize_eq]
    refine Lockstep.ite Iff.rfl (fun _ => ?_) fun _ => mergeInto_inStep hf h hsrc i
    apply (pushDown_inStep ih h hsrc i).bind
    rintro - t - t' ⟨hk, ht⟩
    exact StepBoth.after hk (mergeInto_inStep hf ht (SameHeaders.keeps hsrc hk) i)

/-- Sorting by keys and timestamps does not see a relabelling. -/
theorem stdSort_map (hf : Relabels f) (l : List KvsPayload) :
    stdSort comparePayloads (l.map f) = (stdSort comparePayloads l).map f := by
  unfold stdSort
  refine (List.map_insertionSort _ _ f l fun a _ b _ => ?_).symm
  simp only [comparePayloads, hf.key]

/-- The blocks of L0 are sorted alike: by induction on the number of blocks left. -/
theorem sortBlocks_inStep (hf : Relabels f) (n : ℕ) {s : IndexState S} {s' : IndexState S'} (i : ℕ)
    (h : SameState f s s') : InStep (StepBoth f s s') (sortBlocks n i s) (sortBlocks n i s') := by
  induction n generalizing s s' i with
  | zero => exact Lockstep.pure ⟨KeepBoth.refl, h⟩
  | succ n ih =>
    unfold sortBlocks
    apply levelAt_bind_inStep h 0
    intro l l' hl
    rcases hl.headers.getElem? i with ⟨hg, hg'⟩ | ⟨g, g', hg, hg', hsg⟩
    · rw [hg, hg']
      exact Lockstep.throw
    rw [hg, hg']
    apply onDisk_bind_inStep (readIn_inStep hsg)
    rintro b e b' e' ⟨hk₁, hkv⟩
    have hsorted : stdSort comparePayloads b'.kvPairs = (stdSort comparePayloads b.kvPairs).map f :=
      hkv ▸ stdSort_map hf b.kvPairs
    apply onDisk_bind_inStep (writeOut_inStep hsorted g.minKey g.maxKey)
    rintro hash e₂ hash' e₂' ⟨hk₂, hsh⟩
    have hk := hk₁.trans hk₂
    have h₂ : SameState f { s with disk := e₂ } { s' with disk := e₂' } := SameIndex.keeps h hk
    have hheaders : SameHeaders S f e₂ e₂' (l.recordHashes.set i { g with hash := hash })
        (l'.recordHashes.set i { g' with hash := hash' }) := by
      have hrel := List.forall₂_iff_get.mp (SameHeaders.keeps hl.headers hk)
      refine List.forall₂_iff_get.mpr ⟨by rw [List.length_set, List.length_set, hrel.1], ?_⟩
      intro j hj hj'
      simp only [List.get_eq_getElem, List.getElem_set]
      split
      · exact ⟨hsg.minKey_eq, hsg.maxKey_eq, hsh.hash_ne, hsh.block⟩
      · exact hrel.2 j (by simpa using hj) (by simpa using hj')
    have hl₂ : SameLevel S f e₂ e₂' { l with recordHashes := l.recordHashes.set i _ }
        { l' with recordHashes := l'.recordHashes.set i _ } :=
      ⟨hl.index_eq, hl.numBlocks_eq, hl.maxSize_eq, hl.min_key_eq, hl.max_key_eq, hheaders⟩
    apply (setLevel_inStep h₂ 0 hl₂).bind
    rintro - t - t' ⟨hk₃, ht⟩
    exact StepBoth.after (hk.trans hk₃) (ih (i + 1) ht)

/-- The blocks of L0 are merged alike: by induction on the blocks left. -/
theorem mergeL0_inStep (hf : Relabels f) (B : ℕ) {rest rest' out out' : List BlockHeader}
    {d : S.Disk} {d' : S'.Disk} (hout : SameHeaders S f d d' out out')
    (hrest : SameHeaders S f d d' rest rest') :
    InStep (fun out e out' e' => KeepBoth S d d' e e' ∧ SameHeaders S f e e' out out')
      (mergeL0 B out rest d) (mergeL0 B out' rest' d') := by
  induction rest generalizing out out' rest' d d' with
  | nil =>
    cases hrest
    exact Lockstep.pure ⟨KeepBoth.refl, hout⟩
  | cons g rest ih =>
    cases hrest with
    | @cons _ g' _ rest' hg hrest =>
      apply (merge_inStep hf B hout (List.Forall₂.cons hg List.Forall₂.nil) 0).bind
      rintro m e m' e' ⟨hk, hm⟩
      apply (ih hm (SameHeaders.keeps hrest hk)).mono
      rintro o t o' t' ⟨hk', ho⟩
      exact ⟨hk.trans hk', ho⟩

/-- **A compaction** on both sides. -/
theorem compact_inStep (hf : Relabels f) (h : SameState f s s') :
    InStep (StepBoth f s s') (compact s) (compact s') := by
  unfold compact
  refine Lockstep.get_bind (levelAt_bind_inStep h 0 fun l l' hl => ?_)
  rw [h.blocksize_eq, hl.numBlocks_eq, hl.maxSize_eq]
  apply Lockstep.ite Iff.rfl (fun _ => Lockstep.pure ⟨KeepBoth.refl, h⟩)
  intro _
  have hsort : InStep (StepBoth f s s') (sortL0 s) (sortL0 s') := by
    unfold sortL0
    apply levelAt_bind_inStep h 0
    intro l l' hl
    rw [hl.headers.length_eq]
    exact sortBlocks_inStep hf _ 0 h
  apply hsort.bind
  rintro - t - t' ⟨hk₁, ht⟩
  apply levelAt_bind_inStep ht 0
  intro m m' hm
  obtain ⟨hmi, hmn, hmx, -, -, hmh⟩ := hm
  rw [hmx]
  revert hmh
  generalize m.recordHashes = hs
  generalize m'.recordHashes = hs'
  intro hmh
  cases hmh with
  | nil => exact Lockstep.throw
  | @cons g g' rest rest' hg hrest =>
    refine onDisk_bind_inStep
      (mergeL0_inStep hf _ (List.Forall₂.cons hg List.Forall₂.nil) hrest) ?_
    rintro out e out' e' ⟨hk₂, hout⟩
    have h₂ : SameState f { t with disk := e } { t' with disk := e' } := SameIndex.keeps ht hk₂
    apply Lockstep.get_bind
    apply (addLevelIf_inStep h₂ (by rw [h₂.numLevels_eq]) _).bind
    rintro - u - u' ⟨hk₃, hu⟩
    apply Lockstep.get_bind
    rw [hu.numLevels_eq]
    apply (compactHelper_inStep hf _ 1 hu (SameHeaders.keeps hout hk₃)).bind
    rintro - v - v' ⟨hk₄, hv⟩
    apply levelAt_bind_inStep hv 0
    intro n n' hn
    exact StepBoth.after (((hk₁.trans hk₂).trans hk₃).trans hk₄)
      (setLevel_inStep hv 0 (hn.setBlocks List.Forall₂.nil))

/-- Adding corresponding blocks to corresponding levels, with the same answer. -/
theorem SameLevel.addBlock {l l' : Level} (h : SameLevel S f d d' l l') {cb cb' : CapsuleBlock}
    (hcb : SameBlock f cb cb') {hash hash' : Str}
    (hs : SameHeader S f d d' ⟨hash, cb.startKey, cb.endKey⟩ ⟨hash', cb'.startKey, cb'.endKey⟩) :
    SameLevel S f d d' (l.addBlock cb hash).1 (l'.addBlock cb' hash').1 ∧
      (l'.addBlock cb' hash').2 = (l.addBlock cb hash).2 := by
  have happ := List.rel_append h.headers (List.Forall₂.cons hs List.Forall₂.nil)
  unfold Level.addBlock
  simp only [h.min_key_eq, h.max_key_eq, h.index_eq, h.numBlocks_eq, hcb.startKey_eq,
    hcb.endKey_eq] at happ ⊢
  split_ifs
  · exact ⟨⟨rfl, rfl, h.maxSize_eq, rfl, rfl, happ⟩, rfl⟩
  · exact ⟨⟨rfl, rfl, h.maxSize_eq, rfl, rfl, happ⟩, rfl⟩
  · exact ⟨h, rfl⟩

/-- Both indexes take a new block. -/
theorem addHash_inStep (hf : Relabels f) (h : SameState f s s') (lvl : ℕ) {cb cb' : CapsuleBlock}
    (hcb : SameBlock f cb cb') {hash hash' : Str}
    (hs : SameHeader S f s.disk s'.disk ⟨hash, cb.startKey, cb.endKey⟩
      ⟨hash', cb'.startKey, cb'.endKey⟩) :
    InStep (fun _ t _ t' => GrowBoth s s' t t' ∧ SameState f t t')
      (addHash lvl hash cb s) (addHash lvl hash' cb' s') := by
  unfold addHash
  apply Lockstep.get_bind
  rw [h.numLevels_eq]
  apply Lockstep.ite Iff.rfl (fun _ => Lockstep.pure ⟨KeepBoth.refl, h⟩)
  intro _
  apply levelAt_bind_inStep h lvl
  intro l l' hl
  have hadd := hl.addBlock hcb hs
  apply (setLevel_inStep h lvl hadd.1).bind
  rintro - t - t' ⟨hk, ht⟩
  apply (compact_inStep hf ht).bind
  rintro - u - u' ⟨hk', hu⟩
  exact Lockstep.pure ⟨hk.trans hk', hu⟩

/-- Both indexes name corresponding blocks for a key, or none, or fail alike. -/
theorem getBlock_same {x x' : CapsuleIndex} (h : SameIndex S f d d' x x') {i : ℕ} {k : Str}
    (hi : i < x.numLevels) :
    (∃ e, x.getBlock i k = .error e ∧ x'.getBlock i k = .error e) ∨
    (x.getBlock i k = .ok [] ∧ x'.getBlock i k = .ok []) ∨
    ∃ g g', SameHeader S f d d' g g' ∧ x.getBlock i k = .ok g.hash ∧
      x'.getBlock i k = .ok g'.hash := by
  have hfind : ∀ (n : ℕ) {hs hs' : List BlockHeader}, SameHeaders S f d d' hs hs' →
      (∃ e, Level.findCovering k n hs = .error e ∧ Level.findCovering k n hs' = .error e) ∨
      (Level.findCovering k n hs = .ok [] ∧ Level.findCovering k n hs' = .ok []) ∨
      ∃ g g', SameHeader S f d d' g g' ∧ Level.findCovering k n hs = .ok g.hash ∧
        Level.findCovering k n hs' = .ok g'.hash := by
    intro n
    induction n with
    | zero => exact fun _ => Or.inr (Or.inl ⟨rfl, rfl⟩)
    | succ n ih =>
      intro hs hs' hsame
      cases hsame with
      | nil => exact Or.inl ⟨_, rfl, rfl⟩
      | @cons g g' hs hs' hg hrest =>
        rw [Level.findCovering, Level.findCovering, hg.minKey_eq, hg.maxKey_eq]
        split
        · exact Or.inr (Or.inr ⟨g, g', hg, rfl, rfl⟩)
        · exact ih hrest
  unfold CapsuleIndex.getBlock
  rw [h.numLevels_eq, if_neg (not_le.mpr hi), if_neg (not_le.mpr hi)]
  have hrel := List.forall₂_iff_get.mp h.levels
  by_cases hlt : i < x.levels.length
  · have hlt' : i < x'.levels.length := hrel.1 ▸ hlt
    rw [List.getElem?_eq_getElem hlt, List.getElem?_eq_getElem hlt']
    have hl : SameLevel S f d d' x.levels[i] x'.levels[i] := hrel.2 i hlt hlt'
    simp only [Level.getBlock, hl.min_key_eq, hl.max_key_eq, hl.numBlocks_eq]
    split
    · exact Or.inr (Or.inl ⟨rfl, rfl⟩)
    · exact hfind _ hl.headers
  · have hlt' : ¬ i < x'.levels.length := hrel.1 ▸ hlt
    rw [List.getElem?_eq_none (not_lt.mp hlt), List.getElem?_eq_none (not_lt.mp hlt')]
    exact Or.inl ⟨_, rfl, rfl⟩

/-! ## The engine -/

/-- **Two engines with corresponding contents.** -/
structure SameWorld (f : KvsPayload → KvsPayload) (w : World S) (w' : World S') : Prop where
  max_size_eq : w'.memtable.max_size = w.memtable.max_size
  locklst_eq : w'.memtable.locklst = w.memtable.locklst
  memtable_eq : w'.memtable.memtable = w.memtable.memtable.mapValues f
  index : SameIndex S f w.disk w'.disk w.index w'.index

/-- What a call of the engine does on both sides. -/
abbrev CallBoth {α : Type} (f : KvsPayload → KvsPayload) (R : α → α → Prop) :
    α → World S → α → World S' → Prop :=
  fun a w a' w' => R a a' ∧ SameWorld f w w'

/-- New engines correspond under every relabelling. -/
theorem spawnDB_same (f : KvsPayload → KvsPayload) (n : ℕ) (d : S.Disk) (d' : S'.Disk) :
    SameWorld f (spawnDB n d) (spawnDB n d') :=
  ⟨rfl, rfl, rfl, rfl, rfl, List.Forall₂.cons ⟨rfl, rfl, rfl, rfl, rfl, List.Forall₂.nil⟩
    List.Forall₂.nil⟩

variable {w : World S} {w' : World S'}

/-- What follows a computation on the index starts from the index it leaves. -/
theorem onIndex_bind_inStep {α α' β β' : Type} {R : α → IndexState S → α' → IndexState S' → Prop}
    {Q : β → World S → β' → World S' → Prop} {x : IndexM S α} {x' : IndexM S' α'}
    {k : α → EngineM S β} {k' : α' → EngineM S' β'}
    (h : InStep R (x ⟨w.index, w.disk⟩) (x' ⟨w'.index, w'.disk⟩))
    (hk : ∀ a s a' s', R a s a' s' → InStep Q (k a { w with index := s.index, disk := s.disk })
      (k' a' { w' with index := s'.index, disk := s'.disk })) :
    InStep Q ((onIndex x >>= k) w) ((onIndex x' >>= k') w') := by
  have hz : InStep (fun a u a' u' => ∃ (s : IndexState S) (s' : IndexState S'),
      u = { w with index := s.index, disk := s.disk } ∧
      u' = { w' with index := s'.index, disk := s'.disk } ∧ R a s a' s') (onIndex x w)
      (onIndex x' w') := Lockstep.zoom h
  apply hz.bind
  rintro a _ a' _ ⟨s, s', rfl, rfl, hr⟩
  exact hk a s a' s' hr

/-- Corresponding memory tables are written out as corresponding blocks. -/
theorem toBlock_same (hf : Relabels f) (first : Str) (entries : List (Str × KvsPayload)) :
    SameBlock f (Memtable.toBlock first entries)
      (Memtable.toBlock first (entries.map fun e => (e.1, f e.2))) := by
  have hadd : ∀ {b b' : CapsuleBlock}, SameBlock f b b' →
      SameBlock f (entries.foldl (fun b e => b.addKVPair e.2) b)
        ((entries.map fun e => (e.1, f e.2)).foldl (fun b e => b.addKVPair e.2) b') := by
    induction entries with
    | nil => exact id
    | cons e entries ih => exact fun hb => ih (hb.addKVPair hf e.2)
  refine ⟨?_, ?_, (hadd (SameBlock.new f 0)).kvPairs_eq⟩
  · simp [Memtable.toBlock, CapsuleBlock.setMinKey, CapsuleBlock.setMaxKey, List.foldl_map]
  · simp [Memtable.toBlock, CapsuleBlock.setMinKey, CapsuleBlock.setMaxKey, List.foldl_map]

/-- **A flush** is taken by both engines or by neither, and keeps them in correspondence. -/
theorem writeOutIfFull_inStep (hf : Relabels f) (h : SameWorld f w w') :
    InStep (CallBoth f fun _ _ => True) (writeOutIfFull w) (writeOutIfFull w') := by
  unfold writeOutIfFull
  apply Lockstep.get_bind
  rw [h.memtable_eq, h.max_size_eq, SortedMap.size_mapValues]
  refine Lockstep.ite Iff.rfl (fun _ => ?_) fun _ => Lockstep.pure ⟨trivial, h⟩
  rw [SortedMap.entries_mapValues]
  cases w.memtable.memtable.entries with
  | nil => exact Lockstep.throw
  | cons first rest =>
    have hcb := toBlock_same hf first.1 (first :: rest)
    refine onIndex_bind_inStep (onDisk_inStep (writeOut_inStep hcb.kvPairs_eq
      (Memtable.toBlock first.1 (first :: rest)).startKey
      (Memtable.toBlock first.1 (first :: rest)).endKey)) ?_
    rintro hash _ hash' _ ⟨e, e', rfl, rfl, hk, hs⟩
    have h₁ : SameState f ⟨w.index, e⟩ ⟨w'.index, e'⟩ := SameIndex.keeps h.index hk
    refine onIndex_bind_inStep (addHash_inStep hf h₁ 0 hcb ?_) ?_
    · rw [hcb.startKey_eq, hcb.endKey_eq]
      exact hs
    rintro - s - s' ⟨-, hs'⟩
    exact ⟨trivial, h.max_size_eq, rfl, rfl, hs'⟩

/-- Storing corresponding payloads in both memory tables keeps the engines in correspondence. -/
theorem SameWorld.store (hf : Relabels f) (h : SameWorld f w w') (p : KvsPayload) :
    SameWorld f { w with memtable := w.memtable.store p }
      { w' with memtable := w'.memtable.store (f p) } := by
  refine ⟨h.max_size_eq, h.locklst_eq, ?_, h.index⟩
  simp only [Memtable.store, h.memtable_eq, SortedMap.mapValues_insert, hf.key]

/-- **A put on both sides.** -/
theorem put_inStep (hf : Relabels f) (h : SameWorld f w w') (p : KvsPayload) :
    InStep (CallBoth f fun _ _ => True) (CapsuleDB.put p w) (CapsuleDB.put (f p) w') := by
  have hput : InStep (CallBoth f fun _ _ => True) (Memtable.put p w) (Memtable.put (f p) w') := by
    unfold Memtable.put
    apply Lockstep.get_bind
    simp only [h.locklst_eq, h.memtable_eq, hf.key, hf.timestamp, SortedMap.find?_mapValues]
    cases w.memtable.locklst.find? p.key with
    | some u =>
      cases w.memtable.memtable.find? p.key with
      | none => exact Lockstep.throw
      | some prev =>
        simp only [Option.map_some, hf.timestamp]
        apply Lockstep.ite Iff.rfl (fun _ => Lockstep.pure ⟨trivial, h⟩)
        intro _
        exact Lockstep.modify_bind (Lockstep.pure ⟨trivial, h.store hf p⟩)
    | none =>
      apply (writeOutIfFull_inStep hf h).bind
      rintro - v - v' ⟨-, hv⟩
      refine Lockstep.modify_bind (Lockstep.modify_bind (Lockstep.pure ⟨trivial, ?_⟩))
      have hlocks : v'.memtable.locklst.insert p.key () = v.memtable.locklst.insert p.key () := by
        rw [hv.locklst_eq]
      have hlocked : SameWorld f
          { v with memtable := { v.memtable with locklst := v.memtable.locklst.insert p.key () } }
          { v' with memtable :=
            { v'.memtable with locklst := v'.memtable.locklst.insert p.key () } } :=
        ⟨hv.max_size_eq, hlocks, hv.memtable_eq, hv.index⟩
      exact hlocked.store hf p
  exact hput.bind fun _ _ _ _ hr => Lockstep.pure hr

/-- The scan of a block stops at the same pair on both sides. -/
theorem scanPairs_map (hf : Relabels f) (i : ℕ) (k : Str) (ps : List KvsPayload) :
    CapsuleDB.scanPairs i k (ps.map f) = (CapsuleDB.scanPairs i k ps).map f := by
  induction ps with
  | nil => rfl
  | cons p ps ih =>
    rw [List.map_cons, CapsuleDB.scanPairs, CapsuleDB.scanPairs, hf.key, ih]
    split_ifs <;> rfl

/-- **The search through the levels** ends at the same level on both sides. -/
theorem searchLevels_inStep (hf : Relabels f) (k : Str) (is : List ℕ) {w : World S} {w' : World S'}
    (h : SameWorld f w w') (his : ∀ i ∈ is, i < w.index.numLevels) :
    InStep (CallBoth f fun r r' => r' = r.map f) (CapsuleDB.searchLevels k is w)
      (CapsuleDB.searchLevels k is w') := by
  induction is generalizing w w' with
  | nil => exact Lockstep.pure ⟨rfl, h⟩
  | cons i is ih =>
    have hrest : ∀ j ∈ is, j < w.index.numLevels := fun j hj => his j (List.mem_cons_of_mem i hj)
    unfold CapsuleDB.searchLevels
    apply Lockstep.get_bind
    rcases getBlock_same h.index (k := k) (his i List.mem_cons_self) with
      ⟨e, he, he'⟩ | ⟨hn, hn'⟩ | ⟨g, g', hg, hb, hb'⟩
    · rw [he, he']
      exact Or.inl rfl
    · rw [hn, hn']
      exact ih h hrest
    · rw [hb, hb']
      show InStep _ ((if g.hash ≠ [] then _ else _ : EngineM S (Option KvsPayload)) w)
        ((if g'.hash ≠ [] then _ else _ : EngineM S' (Option KvsPayload)) w')
      rw [if_pos hg.hash_ne.1, if_pos hg.hash_ne.2]
      apply onIndex_bind_inStep (onDisk_inStep (readIn_inStep hg))
      rintro b _ b' _ ⟨e, e', rfl, rfl, hk, hkv⟩
      have h₁ : SameWorld f { w with disk := e } { w' with disk := e' } :=
        { h with index := h.index.keeps hk }
      rw [hkv, scanPairs_map hf]
      cases CapsuleDB.scanPairs i k b.kvPairs with
      | some p => exact Lockstep.pure ⟨rfl, h₁⟩
      | none => exact ih h₁ hrest

/-- **A get on both sides** finds corresponding payloads. -/
theorem get_inStep (hf : Relabels f) (h : SameWorld f w w') (k : Str) :
    InStep (CallBoth f fun p p' => p' = f p) (CapsuleDB.get k w) (CapsuleDB.get k w') := by
  have hmem : w'.memtable.get k = (w.memtable.get k).map f := by
    unfold Memtable.get
    rw [h.locklst_eq, h.memtable_eq, SortedMap.find?_mapValues]
    cases w.memtable.locklst.find? k with
    | none => exact congrArg Except.ok hf.notFound.symm
    | some u => cases w.memtable.memtable.find? k <;> rfl
  unfold CapsuleDB.get
  refine Lockstep.get_bind (Lockstep.lift_bind hmem fun p _ => ?_)
  refine Lockstep.ite (by rw [hf.key]) (fun _ => ?_) fun _ => Lockstep.pure ⟨rfl, h⟩
  apply Lockstep.get_bind
  rw [h.index.numLevels_eq]
  apply (searchLevels_inStep hf k _ h fun i hi => List.mem_range.mp hi).bind
  rintro r v r' v' ⟨rfl, hv⟩
  cases r with
  | some q => exact Lockstep.pure ⟨rfl, hv⟩
  | none => exact Lockstep.pure ⟨rfl, hv⟩

end Capsule.Analysis
