import Capsule.Analysis.CompactHelper
import Capsule.Interface.TopInvariant
import Capsule.Library.VersionColumn

/-!
# Compacting L0

`compact` sorts the blocks of L0, merges them into one run and pushes the run into the levels.
The blocks come sorted out of the memory table, so sorting only writes them anew (`Rewritten`).
The merged run is that of all blocks (`mergedRun`); since the memory table has every key of the
blocks after the first, it is no longer than two blocks, which is what the first level expects of
its source.  L0 is emptied last: up to there an exception leaves its blocks in place.
-/

set_option autoImplicit false

namespace Capsule.Analysis

open Library Program Interface

variable {S : BlockStore} {B : ℕ} {m : SortedMap Str KvsPayload} {s s₁ s₂ s' : IndexState S}
  {l : Level} {hand : ℕ → List BlockHeader}

/-! ## Sorting the blocks of L0 -/

/-- Sorting a sorted block changes nothing. -/
theorem stdSort_sortedRun {ps : List KvsPayload} (hs : SortedRun ps) :
    stdSort comparePayloads ps = ps := by
  unfold stdSort
  refine List.Pairwise.insertionSort_eq (hs.imp fun h => ?_)
  simp only [comparePayloads, decide_eq_false_iff_not]
  exact h.asymm

/-- Storing a level where it is changes nothing. -/
theorem putLevel_self {i : ℕ} (hl : s.index.levels[i]? = some l) : s.putLevel i l = s := by
  obtain ⟨hi, rfl⟩ := List.getElem?_eq_some_iff.mp hl
  simp [IndexState.putLevel]

/-- The state `s'` is `s` with the blocks of L0 written anew or not. -/
def TopRewritten (S : BlockStore) (s : IndexState S) (l : Level) (s' : IndexState S) : Prop :=
  ∃ hs', s' = { s with disk := s'.disk }.putLevel 0 { l with recordHashes := hs' } ∧
    Rewritten S s.disk l.recordHashes s'.disk hs'

/-- A computation on the disk that keeps the blocks rewrites nothing of L0. -/
theorem TopRewritten.of_keeps {d' : S.Disk} (hl : s.index.levels[0]? = some l)
    (ht : TopOk S s.disk B m l) (hk : Keeps S.stored s.disk d') :
    TopRewritten S s l { s with disk := d' } :=
  ⟨l.recordHashes, (putLevel_self (s := { s with disk := d' }) hl).symm,
    Rewritten.of_keeps hk ht.headersOk ht.storedAt⟩

/-- L0 rewritten twice is rewritten. -/
theorem TopRewritten.trans {hs₁ : List BlockHeader}
    (h : Rewritten S s.disk l.recordHashes s₁.disk hs₁)
    (hs : s₁ = { s with disk := s₁.disk }.putLevel 0 { l with recordHashes := hs₁ })
    (h' : TopRewritten S s₁ { l with recordHashes := hs₁ } s') : TopRewritten S s l s' := by
  obtain ⟨hs', heq, hr⟩ := h'
  refine ⟨hs', ?_, h.trans hr⟩
  rw [heq, hs]
  simp [IndexState.putLevel]

/-- Writing one block anew with the pairs it had. -/
theorem Rewritten.set {d d' : S.Disk} {hs : List BlockHeader} (hk : Keeps S.stored d d')
    (hok : HeadersOk S d hs) (hst : ∀ h ∈ hs, StoredAt S d 0 h) {i : ℕ} {h : BlockHeader}
    (hi : hs[i]? = some h) {hash : Str} (hne : hash ≠ []) {b : CapsuleBlock}
    (hb : S.stored d' hash = some b) (hlvl : b.level = 0) (hkv : b.kvPairs = contents S d h) :
    Rewritten S d hs d' (hs.set i { h with hash := hash }) := by
  have hold := Rewritten.of_keeps hk hok hst
  have hc : contents S d' { h with hash := hash } = contents S d h := by
    rw [contents_of_stored (h := { h with hash := hash }) hb, hkv]
  refine ⟨hk, ?_, fun g hg => ?_, fun g hg => ?_⟩
  · rw [List.map_set, hold.profiles]
    obtain ⟨hlt, rfl⟩ := List.getElem?_eq_some_iff.mp hi
    have hlt' : i < (hs.map (profile S d)).length := by simpa using hlt
    have hprofile : profile S d' { hs[i] with hash := hash } = (hs.map (profile S d))[i] := by
      rw [List.getElem_map, profile, profile, hc]
    rw [hprofile, List.set_getElem_self]
  · rcases List.mem_or_eq_of_mem_set hg with hg | rfl
    · exact hold.hash_ne g hg
    · exact hne
  · rcases List.mem_or_eq_of_mem_set hg with hg | rfl
    · exact hold.storedAt g hg
    · exact ⟨b, hb, hlvl⟩

/-- **Sorting L0** writes its blocks anew, one after the other. -/
theorem sortBlocks_spec (n i : ℕ) (hl : s.index.levels[0]? = some l) (ht : TopOk S s.disk B m l)
    (hn : i + n = l.recordHashes.length) :
    Outcome (fun _ s' => TopRewritten S s l s') (fun e s' => e = .io ∧ TopRewritten S s l s')
      (sortBlocks n i s) := by
  induction n generalizing i s l with
  | zero => exact Outcome.pure (TopRewritten.of_keeps hl ht (keeps_refl _))
  | succ n ih =>
    obtain ⟨h, hh⟩ : ∃ h, l.recordHashes[i]? = some h :=
      ⟨_, List.getElem?_eq_getElem (show i < l.recordHashes.length by omega)⟩
    have hmem : h ∈ l.recordHashes := List.mem_of_getElem? hh
    obtain ⟨b, hb, hlvl⟩ := ht.storedAt h hmem
    have hkv : b.kvPairs = contents S s.disk h := (contents_of_stored hb).symm
    rw [sortBlocks]
    apply levelAt_bind hl
    rw [hh]
    refine onDisk_bind (S.get_spec h.hash s.disk) ?_ ?_
    · rintro e d₁ ⟨he, hk⟩
      exact ⟨he, TopRewritten.of_keeps hl ht hk⟩
    · rintro b₁ d₁ ⟨hk₁, hread⟩
      obtain rfl := hread b hb
      simp only [hkv, stdSort_sortedRun (ht.sorted h hmem)]
      refine onDisk_bind (S.put_spec _ d₁) ?_ ?_
      · rintro e d₂ ⟨he, hk₂⟩
        exact ⟨he, TopRewritten.of_keeps hl ht (keeps_trans hk₁ hk₂)⟩
      · rintro hash d₂ ⟨hne, hk₂, b₂, hb₂, hlvl₂, hkv₂⟩
        have hr := Rewritten.set (keeps_trans hk₁ hk₂) ht.headersOk ht.storedAt hh hne hb₂
          (hlvl₂.trans hlvl) hkv₂
        have hlt : 0 < s.index.levels.length := (List.getElem?_eq_some_iff.mp hl).1
        apply Outcome.modify_bind
        refine (ih (i + 1) (by simp [IndexState.putLevel, hlt]) (ht.rewritten hr)
          (by simp; omega)).mono ?_ ?_
        · intro _ s' h'
          exact TopRewritten.trans hr rfl h'
        · intro e s' he
          exact ⟨he.1, TopRewritten.trans hr rfl he.2⟩

/-! ## Merging the blocks of L0 -/

/-- The merge of a list of runs, from the left. -/
def mergedRun (runs : List (List KvsPayload)) : List KvsPayload := runs.foldl mergeRuns []

/-- One more block is merged into the others. -/
theorem mergedRun_concat (runs : List (List KvsPayload)) (r : List KvsPayload) :
    mergedRun (runs ++ [r]) = mergeRuns (mergedRun runs) r := by
  simp [mergedRun, List.foldl_append]

/-- Merged runs are sorted: by induction on their number. -/
theorem sorted_mergedRun {runs : List (List KvsPayload)} (h : ∀ r ∈ runs, SortedRun r) :
    SortedRun (mergedRun runs) := by
  induction runs using List.reverseRecOn with
  | nil => exact List.Pairwise.nil
  | append_singleton runs r ih =>
    rw [mergedRun_concat]
    exact (ih fun q hq => h q (by simp [hq])).mergeBy (h r (by simp))

/-- Merging runs adds nothing. -/
theorem mem_mergedRun {runs : List (List KvsPayload)} {p : KvsPayload} (h : p ∈ mergedRun runs) :
    ∃ r ∈ runs, p ∈ r := by
  induction runs using List.reverseRecOn with
  | nil => simp [mergedRun] at h
  | append_singleton runs r ih =>
    rw [mergedRun_concat] at h
    rcases mem_mergeBy h with h | h
    · obtain ⟨q, hq, hp⟩ := ih h
      exact ⟨q, by simp [hq], hp⟩
    · exact ⟨r, by simp, h⟩

/-- **The merge of the runs, key by key.** -/
theorem find_mergedRun {runs : List (List KvsPayload)} (h : ∀ r ∈ runs, SortedRun r) (k : Str) :
    find k (mergedRun runs) = pickAll KvsPayload.txn_timestamp (runs.map (find k)) := by
  induction runs using List.reverseRecOn with
  | nil => rfl
  | append_singleton runs r ih =>
    have hruns : ∀ q ∈ runs, SortedRun q := fun q hq => h q (by simp [hq])
    rw [mergedRun_concat, List.map_append, List.map_singleton, pickAll_concat, ← ih hruns]
    exact lookup_mergeBy (sorted_mergedRun hruns) (h r (by simp)) k

/-- **Merging the blocks of L0** into the first leaves the merge of all their runs. -/
theorem mergeL0_spec (hB : 1 ≤ B) {d : S.Disk} {acc rest : List BlockHeader}
    {runs : List (List KvsPayload)} (hacc : acc ≠ []) (hfacc : Filled S d acc)
    (hrun : runOf S d acc = mergedRun runs) (hne : mergedRun runs ≠ [])
    (hcut : rest = [] → Cut S d B 0 acc (mergedRun runs)) (hrest : Filled S d rest) :
    Outcome (fun out d' => Keeps S.stored d d' ∧ out ≠ [] ∧
        Cut S d' B 0 out (mergedRun (runs ++ rest.map (contents S d))))
      (IoFault S d) (mergeL0 B acc rest d) := by
  induction rest generalizing d acc runs with
  | nil =>
    rw [List.map_nil, List.append_nil]
    exact Outcome.pure ⟨keeps_refl d, hacc, hcut rfl⟩
  | cons h rest ih =>
    have hfh : Filled S d [h] := fun g hg => hrest g (by simp at hg; simp [hg])
    have hfrest : Filled S d rest := fun g hg => hrest g (by simp [hg])
    rw [mergeL0]
    apply (merge_spec hB hacc hfacc hfh 0).bind (fun _ _ he => he)
    rintro out d' ⟨hk, hout⟩
    rw [hrun, runOf_cons, runOf_nil, List.append_nil, ← mergedRun_concat] at hout
    have hne' : mergedRun (runs ++ [contents S d h]) ≠ [] := by
      rw [mergedRun_concat]
      exact mergeBy_ne_nil _ hne
    have hout' : out ≠ [] := by
      rintro rfl
      exact hne' hout.run_eq.symm
    refine (ih hout' hout.filled hout.run_eq hne' (fun _ => hout) (hfrest.keeps hk)).mono ?_ ?_
    · rintro out' d'' ⟨hk', hne'', hcut'⟩
      rw [map_contents_keeps hk hfrest, List.append_assoc, List.singleton_append] at hcut'
      exact ⟨keeps_trans hk hk', hne'', hcut'⟩
    · exact fun _ _ he => he.after hk

/-- The merge of L0 as `compact` begins it. -/
theorem mergeL0_first (hB : 1 ≤ B) {d : S.Disk} {first : BlockHeader} {rest : List BlockHeader}
    (hrest : rest ≠ []) (hf : Filled S d (first :: rest)) :
    Outcome (fun out d' => Keeps S.stored d d' ∧ out ≠ [] ∧
        Cut S d' B 0 out (mergedRun ((first :: rest).map (contents S d))))
      (IoFault S d) (mergeL0 B [first] rest d) := by
  have hfirst : contents S d first ≠ [] := hf first (by simp)
  have hrun : runOf S d [first] = mergedRun [contents S d first] := by
    simp [mergedRun]
  have hne : mergedRun [contents S d first] ≠ [] := by
    simpa [mergedRun] using hfirst
  exact mergeL0_spec hB (by simp) (fun h hh => hf h (by simp at hh; simp [hh])) hrun hne
    (fun h => absurd h hrest) fun h hh => hf h (by simp [hh])

/-- The merge of L0 is no longer than two blocks: the memory table has every key of the blocks
after the first, and it is full. -/
theorem length_mergedRun_le {d : S.Disk} (ht : TopOk S d B m l) (hne : l.recordHashes.tail ≠ []) :
    (mergedRun (l.recordHashes.map (contents S d))).length ≤ 2 * B := by
  obtain ⟨first, rest, hhs⟩ : ∃ first rest, l.recordHashes = first :: rest :=
    List.exists_cons_of_ne_nil fun h => hne (by rw [h, List.tail_nil])
  have hsorted : SortedRun (mergedRun (l.recordHashes.map (contents S d))) := by
    apply sorted_mergedRun
    simpa using ht.sorted
  have hkeys : ∀ p ∈ mergedRun (l.recordHashes.map (contents S d)),
      p.key ∈ (contents S d first).map KvsPayload.key ++ m.entries.map Prod.fst := by
    intro p hp
    obtain ⟨r, hr, hpr⟩ := mem_mergedRun hp
    obtain ⟨h, hh, rfl⟩ := List.mem_map.mp hr
    rw [hhs] at hh
    rcases List.mem_cons.mp hh with rfl | hh
    · exact List.mem_append_left _ (List.mem_map_of_mem hpr)
    · have hsome := ht.shadowed h (by rw [hhs]; exact hh) p hpr
      obtain ⟨v, hv⟩ := Option.isSome_iff_exists.mp hsome
      have hmem := SortedMap.mem_entries_iff.mpr hv
      exact List.mem_append_right _ (List.mem_map_of_mem (f := Prod.fst) hmem)
  have hle := hsorted.length_le hkeys
  have hfirst := ht.size_eq first (by rw [hhs]; simp)
  have hmem := ht.full hne
  rw [SortedMap.size] at hmem
  simp only [List.length_append, List.length_map] at hle
  omega

/-! ## The whole compaction -/

/-- Changing L0 does not change the levels below. -/
theorem levelRun_putLevel_zero {i : ℕ} (hi : 1 ≤ i) (hl : 0 < s.index.levels.length) (l : Level) :
    levelRun (s.putLevel 0 l) i = levelRun s i := by
  unfold levelRun
  rw [headersAt_putLevel hl, if_neg (by omega)]
  rfl

/-- What a compaction leaves below L0, and in L0 the level `l'`. -/
structure Compacted (S : BlockStore) (B : ℕ) (src : List KvsPayload) (hand : ℕ → List BlockHeader)
    (s s' : IndexState S) (l' : Level) : Prop where
  indexOk : IndexOk S B s'
  keeps : Keeps S.stored s.disk s'.disk
  length_le : s'.index.levels.length ≤ s.index.levels.length + 1
  /-- a level is added below a crowded one only -/
  grown : s.index.levels.length < s'.index.levels.length → Crowded s
  pushed : Pushed S 1 src hand s s'
  top : s'.index.levels[0]? = some l'

/-- How a compaction may fail: a capacity overflows, or the block store fails; then L0 has its
blocks still, and the levels went through a cascade without a source. -/
def CompactFault (S : BlockStore) (B : ℕ) (l : Level) (s : IndexState S) (e : Fault)
    (s' : IndexState S) : Prop :=
  (e = .overflow ∧ Cramped B s) ∨
  (e = .io ∧ ∃ hs' hand, Rewritten S s.disk l.recordHashes s'.disk hs' ∧
    Compacted S B [] hand s s' { l with recordHashes := hs' })

/-- What was pushed down depends on the levels below only. -/
theorem Pushed.congr {d : ℕ} {run : List KvsPayload} (h : Pushed S d run hand s₁ s₂)
    (hhand : ∀ k, handedVersion s₁ hand k = handedVersion s hand k)
    (hbefore : ∀ i, d ≤ i → levelRun s₁ i = levelRun s i)
    (hafter : ∀ i, d ≤ i → levelRun s' i = levelRun s₂ i) : Pushed S d run hand s s' := by
  intro k
  obtain ⟨keep, hsp, heq⟩ := h k
  rw [hhand] at hsp heq
  refine ⟨keep, fun i => ?_, fun i => ?_⟩
  · rw [← hbefore _ (by omega)]
    exact hsp i
  · rw [hafter _ (by omega)]
    exact heq i

/-- The run of a level does not change while it keeps its blocks. -/
theorem levelRun_of_keeps (hs : IndexOk S B s) (hk : Keeps S.stored s.disk s₁.disk) {i : ℕ}
    (hi : 1 ≤ i) (h : headersAt s₁ i = headersAt s i) : levelRun s₁ i = levelRun s i := by
  rw [levelRun, levelRun, h]
  exact runOf_keeps hk (hs.headersOk hi).filled

/-- Rewriting L0 does not change the levels below. -/
theorem TopRewritten.headersAt_eq (hs : IndexOk S B s) {i : ℕ} (hi : 1 ≤ i)
    (h : TopRewritten S s l s₁) : headersAt s₁ i = headersAt s i := by
  obtain ⟨hs₁, heq, hr⟩ := h
  rw [heq, headersAt_putLevel (by exact hs.levels_pos), if_neg (by omega)]
  rfl

/-- Writing the blocks of L0 anew is a compaction that has not pushed anything. -/
theorem TopRewritten.compacted (hs : IndexOk S B s) (h : TopRewritten S s l s₁) :
    ∃ hs₁, Rewritten S s.disk l.recordHashes s₁.disk hs₁ ∧
      Compacted S B [] noBlocks s s₁ { l with recordHashes := hs₁ } ∧
      s₁.index.levels.length = s.index.levels.length ∧
      s₁.index.levels.drop 1 = s.index.levels.drop 1 := by
  have hhdrs : ∀ i, headersAt s₁ (1 + i) = headersAt s (1 + i) := fun i =>
    h.headersAt_eq hs (Nat.le_add_right 1 i)
  obtain ⟨hs₁, heq, hr⟩ := h
  have hrun : ∀ i, levelRun s₁ (1 + i) = levelRun s (1 + i) := fun i =>
    levelRun_of_keeps hs hr.keeps (Nat.le_add_right 1 i) (hhdrs i)
  have hok : IndexOk S B ({ s with disk := s₁.disk }.putLevel 0 { l with recordHashes := hs₁ }) :=
    (hs.keeps hr.keeps).putLevel fun h => absurd h (by omega)
  have hlen : s₁.index.levels.length = s.index.levels.length := by
    rw [heq]
    simp [IndexState.putLevel]
  refine ⟨hs₁, hr,
    ⟨heq ▸ hok, hr.keeps, by omega, fun h => absurd h (by omega), Pushed.refl hrun, ?_⟩, hlen, ?_⟩
  · rw [heq]
    simp [IndexState.putLevel, hs.levels_pos]
  · rw [heq]
    simp [IndexState.putLevel, List.drop_set]

/-- Everything that comes after the blocks of L0 have been written anew for the last time. -/
theorem Shifted.compacted {hs₁ : List BlockHeader} (hs : IndexOk S B s)
    (hr : Rewritten S s.disk l.recordHashes s₁.disk hs₁) {run : List KvsPayload}
    {l' : Level} (htop : s₁.index.levels[0]? = some l')
    (hhdrs : ∀ i, 1 ≤ i → headersAt s₁ i = headersAt s i)
    (hlen : s'.index.levels.length ≤ s.index.levels.length + 1)
    (hgrown : s.index.levels.length < s'.index.levels.length → Crowded s)
    (h : Shifted S B 1 run hand s₁ s') : Compacted S B run hand s s' l' := by
  refine ⟨h.indexOk, keeps_trans hr.keeps h.keeps, hlen, hgrown, h.pushed.congr (fun k => ?_)
    (fun i hi => levelRun_of_keeps hs hr.keeps hi (hhdrs i hi)) fun _ _ => rfl,
    (h.above 0 (by omega)).trans htop⟩
  funext i
  have hi : 1 ≤ 1 + i := Nat.le_add_right 1 i
  have hf : Filled S s.disk (hand i) := fun g hg =>
    (hs.headersOk hi).filled g (hhdrs _ hi ▸ h.handed i hg)
  rw [handedVersion, handedVersion, runOf_keeps hr.keeps hf]

/-- The blocks of a merged run, as they are written: their headers, but for the hashes. -/
def cutHeaders (B : ℕ) (run : List KvsPayload) : List BlockHeader :=
  (cutInto B run.length run).map fun ps => ⟨[], (blockOf 0 ps).startKey, (blockOf 0 ps).endKey⟩

/-- The ranges of the written blocks can be told in advance. -/
theorem Cut.map_range (hB : 1 ≤ B) {d : S.Disk} {out : List BlockHeader} {run : List KvsPayload}
    (hc : Cut S d B 0 out run) : out.map range = (cutHeaders B run).map range := by
  have hlen : (out.map (contents S d)).length ≤ run.length := by
    rw [List.length_map]
    exact hc.length_le (Nat.le_mul_of_pos_right _ hB)
  have hcut : cutInto B run.length run = out.map (contents S d) := by
    have h := hc.fullCut.eq_cutInto hlen
    rwa [show (out.map (contents S d)).flatten = run from hc.run_eq] at h
  rw [cutHeaders, hcut, List.map_map, List.map_map]
  apply List.map_congr_left
  intro h hh
  simp only [range, Function.comp_apply, (hc.written h hh).minKey_eq, (hc.written h hh).maxKey_eq]

/-- The blocks that each level hands down when L0, with the given runs, is compacted. -/
def handedByCompact (B : ℕ) (runs : List (List KvsPayload)) (levels : List Level) :
    ℕ → List BlockHeader := handedDown B (cutHeaders B (mergedRun runs)) (levels.drop 1)

/-- The state `s₃` in which a compaction that began in `s` pushes the merged run of L0, in the
blocks `out`, into the levels: the blocks of L0 have been written anew, and there is a first level,
which has been added if there was none. -/
structure Prepared (S : BlockStore) (B : ℕ) (l : Level) (s s₃ : IndexState S)
    (hs₁ out : List BlockHeader) : Prop where
  grown : ∃ s₂, Grown S B 1 s₂ s₃ ∧ s₂.index.levels.length = s.index.levels.length
  rewritten : Rewritten S s.disk l.recordHashes s₃.disk hs₁
  top : s₃.index.levels[0]? = some { l with recordHashes := hs₁ }
  headers : ∀ i, 1 ≤ i → headersAt s₃ i = headersAt s i
  cut : Cut S s₃.disk B 0 out (mergedRun (l.recordHashes.map (contents S s.disk)))
  out_ne : out ≠ []
  out_le : out.length ≤ 2
  plan : handedDown B out (s₃.index.levels.drop 1) =
    handedByCompact B (l.recordHashes.map (contents S s.disk)) s.index.levels

/-- What is crowded once the push is prepared was so at the beginning. -/
theorem Prepared.crowded (hs : IndexOk S B s) {s₃ : IndexState S} {hs₁ out : List BlockHeader}
    (h : Prepared S B l s s₃ hs₁ out) (hc : Crowded s₃) :
    Crowded s ∧ s₃.index.levels.length = s.index.levels.length := by
  obtain ⟨s₂, hg, hlen₂⟩ := h.grown
  have hlt := hg.levels_lt
  have heq := (hg.crowded (hlen₂ ▸ hs.levels_pos) hc hlt).2.trans hlen₂
  exact ⟨hc.congr heq h.headers, heq⟩

/-- A push adds a level below a crowded one only, also when the first level is new. -/
theorem Prepared.crowded_of_grown {s₃ s₄ : IndexState S} {hs₁ out : List BlockHeader}
    {run : List KvsPayload} (h : Prepared S B l s s₃ hs₁ out) (hsh : Shifted S B 1 run hand s₃ s₄)
    (hlt : s.index.levels.length < s₄.index.levels.length) : Crowded s := by
  obtain ⟨s₂, hg, hlen₂⟩ := h.grown
  rcases hg.length_eq with heq | ⟨hle, -⟩
  · exact (hsh.grown (by omega)).congr (heq.trans hlen₂) h.headers
  · exact fun htwo => absurd htwo (by omega)

/-- The levels below the first have blocks once the push is prepared, if all had before. -/
theorem Prepared.stocked {s₃ : IndexState S} {hs₁ out : List BlockHeader}
    (h : Prepared S B l s s₃ hs₁ out) (hst : StockedFrom 1 s) : StockedFrom 2 s₃ := by
  obtain ⟨s₂, hg, hlen₂⟩ := h.grown
  intro i hi hlt
  rw [h.headers i (by omega)]
  apply hst i (by omega)
  rcases hg.length_eq with heq | ⟨hle, heq⟩ <;> omega

/-- **The run of L0 is pushed into the levels**, and L0 is emptied. -/
theorem Prepared.push (hB : 1 ≤ B) (hs : IndexOk S B s) (ht : TopOk S s.disk B m l)
    {s₃ : IndexState S} {hs₁ out : List BlockHeader} (h : Prepared S B l s s₃ hs₁ out) :
    Outcome
      (fun _ s' => ∃ l', Compacted S B (mergedRun (l.recordHashes.map (contents S s.disk)))
        (handedByCompact B (l.recordHashes.map (contents S s.disk)) s.index.levels) s s'
        (l'.setBlocks []) ∧ TopOk S s'.disk B m l' ∧ (StockedFrom 1 s → StockedFrom 1 s'))
      (CompactFault S B l s)
      ((do compactHelper (s₃.index.numLevels + 1) out 1
           setLevel 0 ((← levelAt 0).setBlocks [])) s₃) := by
  obtain ⟨s₂, hg, hlen₂⟩ := h.grown
  have hsorted : SortedRun (runOf S s₃.disk out) := by
    rw [h.cut.run_eq]
    exact sorted_mergedRun (by simpa using ht.sorted)
  have hsrc : SourceOk S s₃.disk B out := by
    refine ⟨h.cut.filled, hsorted, ?_⟩
    intro g hg
    exact (h.cut.fullCut.size _ (List.mem_map_of_mem hg)).2
  have hpush := compactHelper_spec hB (s₃.index.numLevels + 1) s₃ out 1 hg.indexOk le_rfl
    hg.levels_lt hsrc h.out_ne (by simpa using h.out_le)
    (Or.inl (by rw [hg.indexOk.numLevels_eq]; omega))
  have ht₃ := ht.rewritten h.rewritten
  rw [h.plan] at hpush
  refine hpush.bind ?_ ?_
  · rintro e s₄ (⟨he, hcramped⟩ | ⟨he, hand, hsh⟩)
    · obtain ⟨hcrowded, heq⟩ := h.crowded hs hcramped.crowded
      exact Or.inl ⟨he, hcrowded, heq ▸ hcramped.next⟩
    · have hr₄ := h.rewritten.trans (Rewritten.of_keeps hsh.keeps ht₃.headersOk ht₃.storedAt)
      exact Or.inr ⟨he, _, hand, hr₄,
        hsh.compacted hs h.rewritten h.top h.headers (hlen₂ ▸ hg.length_le hsh)
          (h.crowded_of_grown hsh)⟩
  · rintro - s₄ ⟨hsh, hstocked⟩
    have hc₄ := hsh.compacted hs h.rewritten h.top h.headers (hlen₂ ▸ hg.length_le hsh)
      (h.crowded_of_grown hsh)
    have hr₄ := h.rewritten.trans (Rewritten.of_keeps hsh.keeps ht₃.headersOk ht₃.storedAt)
    apply levelAt_bind hc₄.top
    refine ⟨_, ⟨hsh.indexOk.putLevel fun h => absurd h (by omega), hc₄.keeps, ?_, ?_, ?_, ?_⟩,
      ht.rewritten hr₄, fun hst => ?_⟩
    · simpa [IndexState.putLevel] using hc₄.length_le
    · simpa [IndexState.putLevel] using hc₄.grown
    · rw [← h.cut.run_eq]
      exact hc₄.pushed.congr (fun _ => rfl) (fun _ _ => rfl) fun i hi =>
        levelRun_putLevel_zero hi hsh.indexOk.levels_pos _
    · simp [IndexState.putLevel, hsh.indexOk.levels_pos]
    · refine (hstocked (h.stocked hst)).congr (by simp [IndexState.putLevel]) fun i hi => ?_
      rw [headersAt_putLevel hsh.indexOk.levels_pos, if_neg (by omega)]

/-- **A compaction of L0** empties it into the levels. -/
theorem compact_spec (hB : 1 ≤ B) (hs : IndexOk S B s) (hl : s.index.levels[0]? = some l)
    (ht : TopOk S s.disk B m l) (htwo : l.recordHashes.tail ≠ []) :
    Outcome
      (fun _ s' => ∃ l', Compacted S B (mergedRun (l.recordHashes.map (contents S s.disk)))
        (handedByCompact B (l.recordHashes.map (contents S s.disk)) s.index.levels) s s'
        (l'.setBlocks []) ∧ TopOk S s'.disk B m l' ∧ (StockedFrom 1 s → StockedFrom 1 s'))
      (CompactFault S B l s) (compact s) := by
  have hnot : ¬ B * l.numBlocks < toSizeT l.maxSize := by
    have hlen : 2 ≤ l.recordHashes.length := by
      have := List.length_pos_iff.mpr htwo
      rw [List.length_tail] at this
      omega
    rw [ht.numBlocks_eq, ht.toSizeT_maxSize, mul_comm 2 B, not_lt]
    exact Nat.mul_le_mul_left B hlen
  have hlt : 0 < s.index.levels.length := (List.getElem?_eq_some_iff.mp hl).1
  unfold compact
  refine Outcome.get_bind (levelAt_bind hl ?_)
  rw [hs.blocksize_eq, if_neg hnot]
  -- the blocks of L0 are written anew
  have hsort :
      Outcome (fun _ s' => TopRewritten S s l s') (fun e s' => e = .io ∧ TopRewritten S s l s')
      (sortL0 s) := levelAt_bind hl (sortBlocks_spec _ 0 hl ht (Nat.zero_add _))
  refine hsort.bind ?_ ?_
  · rintro e s₁ ⟨he, h₁⟩
    obtain ⟨hs₁, hr, hc, -⟩ := h₁.compacted hs
    exact Or.inr ⟨he, hs₁, _, hr, hc⟩
  rintro - s₁ h₁
  have hhdrs₁ : ∀ i, 1 ≤ i → headersAt s₁ i = headersAt s i := fun i hi => h₁.headersAt_eq hs hi
  obtain ⟨hs₁, hr₁, hc₁, hlen₁, hdrop₁⟩ := h₁.compacted hs
  have ht₁ := ht.rewritten hr₁
  apply levelAt_bind hc₁.top
  obtain ⟨first, rest, rfl⟩ : ∃ first rest, hs₁ = first :: rest := by
    apply List.exists_cons_of_ne_nil
    rintro rfl
    have := hr₁.tail.length_eq
    exact htwo (List.eq_nil_of_length_eq_zero this.symm)
  have hrest : rest ≠ [] := by
    rintro rfl
    have := hr₁.tail.length_eq
    exact htwo (List.eq_nil_of_length_eq_zero this.symm)
  -- they are merged into one run
  refine onDisk_bind (mergeL0_first hB hrest ht₁.filled) ?_ ?_
  · rintro e d₂ ⟨he, hk⟩
    exact Or.inr ⟨he, _, _, hr₁.trans (Rewritten.of_keeps hk ht₁.headersOk ht₁.storedAt),
      hc₁.indexOk.keeps hk, keeps_trans hr₁.keeps hk, hc₁.length_le, hc₁.grown,
      hc₁.pushed.congr (fun _ => rfl) (fun _ _ => rfl)
        fun i hi => hc₁.indexOk.levelRun_keeps hk hi, hc₁.top⟩
  rintro out d₂ ⟨hk, hne, hcut⟩
  rw [hr₁.map_contents] at hcut
  have hr₂ := hr₁.trans (Rewritten.of_keeps hk ht₁.headersOk ht₁.storedAt)
  have hs₂ := hc₁.indexOk.keeps hk
  have ht₂ := ht₁.keeps hk
  -- there is a first level
  apply Outcome.get_bind
  have hnum : s₁.index.numLevels = s₁.index.levels.length := hs₂.numLevels_eq
  have hpos : 0 < s₁.index.levels.length := hc₁.indexOk.levels_pos
  have hcap : ({ l with recordHashes := first :: rest } : Level).maxSize = (2 * B : ℕ) :=
    ht.maxSize_eq
  have hcramped : ∀ e, e = Fault.overflow ∧ s₁.index.levels.length ≤ 1 ∧
      2 ^ 31 ≤ 2 * 10 ^ s₁.index.levels.length * B → e = .overflow ∧ Cramped B s := fun e he =>
    ⟨he.1, fun htwo => absurd htwo (by omega), hlen₁ ▸ he.2.2⟩
  refine (addLevelIf_spec (d := 1) hs₂ hpos ?_ fun _ => ?_).bind
    (fun e _ he => Or.inl (hcramped e he)) ?_
  · show s₁.index.numLevels = 1 ↔ s₁.index.levels.length ≤ 1
    omega
  · rw [mulInt_comm, hcap, Nat.sub_self, pow_zero, mul_one]
  rintro - s₃ hg
  apply Outcome.get_bind
  have hdisk₃ : s₃.disk = d₂ := hg.disk_eq
  have hout : out.length ≤ 2 := hcut.length_le (length_mergedRun_le ht htwo)
  -- which blocks go down could be told from the state before
  have hplan : handedDown B out (s₃.index.levels.drop 1) =
      handedByCompact B (l.recordHashes.map (contents S s.disk)) s.index.levels := by
    have h := hg.handedDown_eq hB le_rfl (show out.length < 2 * 10 ^ 1 by omega)
    rw [h, handedByCompact, ← handedDown_congr (hcut.map_range hB), ← hdrop₁]
  have hprep : Prepared S B l s s₃ (first :: rest) out := by
    refine ⟨⟨_, hg, hlen₁⟩, hdisk₃ ▸ hr₂, (hg.getElem? hpos).trans hc₁.top, ?_, hdisk₃ ▸ hcut, hne,
      hout, hplan⟩
    intro i hi
    exact (hg.headers i).trans (hhdrs₁ i hi)
  exact hprep.push hB hs ht

end Capsule.Analysis
