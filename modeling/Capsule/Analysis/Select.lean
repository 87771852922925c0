import Capsule.Library.VersionColumn
import Capsule.Interface.BlockRun

/-!
# Which blocks an overflowing level hands down

`selectBlocks` divides the blocks of a level: each goes to exactly one of the two lists, in the
order of the level, and at least as many go down as blocks arrive (`selectBlocks_spec`).  For
that the level must have that many blocks; nothing in the source checks it, and it holds because
the level is about to overflow.
-/

set_option autoImplicit false

namespace Capsule.Analysis

open Library Program Interface

/-- Sorting with `compareHeaders` orders by the lower ends of the ranges. -/
theorem sorted_compareHeaders (l : List BlockHeader) :
    (stdSort compareHeaders l).Pairwise fun h h' => h.minKey ≤ h'.minKey := by
  unfold stdSort
  have htotal : Std.Total fun h h' : BlockHeader => compareHeaders h' h = false :=
    ⟨fun h h' => by simpa [compareHeaders] using le_total h.minKey h'.minKey⟩
  have htrans : IsTrans BlockHeader fun h h' => compareHeaders h' h = false :=
    ⟨fun h₁ h₂ h₃ => by simpa [compareHeaders] using le_trans⟩
  refine (List.pairwise_insertionSort _ l).imp fun {h h'} hlt => ?_
  simpa [compareHeaders] using hlt

/-- **The search for affected blocks** puts every block of the level into one of the two lists,
in the order of the level. -/
theorem affectedBlocks_spec (source dest new₀ rem₀ : List BlockHeader) :
    ∃ new rem, affectedBlocks source dest new₀ rem₀ = (new₀ ++ new, rem₀ ++ rem) ∧
      new.Sublist dest ∧ rem.Sublist dest ∧ (new ++ rem).Perm dest := by
  fun_induction affectedBlocks source dest new₀ rem₀ with
  | case1 s source d dest new₀ rem₀ _ below ih =>
    -- the blocks up to the upper end of the source block are affected
    obtain ⟨new, rem, heq, hnew, hrem, hperm⟩ := ih
    refine ⟨(d :: dest).takeWhile below ++ new, rem, ?_, ?_, ?_, ?_⟩
    · rw [heq, List.append_assoc]
    · have := hnew.append_left ((d :: dest).takeWhile below)
      rwa [List.takeWhile_append_dropWhile] at this
    · exact hrem.trans (List.dropWhile_sublist below)
    · have := hperm.append_left ((d :: dest).takeWhile below)
      rwa [List.takeWhile_append_dropWhile, ← List.append_assoc] at this
  | case2 s source d dest new₀ rem₀ _ ih =>
    obtain ⟨new, rem, heq, hnew, hrem, hperm⟩ := ih
    refine ⟨new, d :: rem, ?_, hnew.cons d, hrem.cons_cons d, ?_⟩
    · rw [heq, List.append_assoc, List.singleton_append]
    · exact List.perm_middle.trans (hperm.cons d)
  | case3 source dest new₀ rem₀ =>
    exact ⟨[], dest, by simp, List.nil_sublist dest, List.Sublist.refl dest, by simp⟩

/-- **The choice of blocks**: the two lists divide the level, what stays keeps its order, and
at least as many blocks go down as arrive.  What goes down is in the order of the level, or has
been sorted by the lower ends of the ranges. -/
theorem selectBlocks_spec {source dest : List BlockHeader} (hlen : source.length ≤ dest.length) :
    ∃ new rem, selectBlocks source dest = .ok (new, rem) ∧ (new ++ rem).Perm dest ∧
      rem.Sublist dest ∧ source.length ≤ new.length ∧
      (new.Sublist dest ∨ new.Pairwise fun h h' => h.minKey ≤ h'.minKey) := by
  obtain ⟨new, rem, heq, hnew, hrem, hperm⟩ := affectedBlocks_spec source dest [] []
  simp only [List.nil_append] at heq
  have hcount := hperm.length_eq
  rw [List.length_append] at hcount
  unfold selectBlocks
  simp only [heq]
  by_cases hfew : new.length < source.length
  · have hn : ¬ rem.length < source.length - new.length := by omega
    rw [if_pos hfew, if_neg hn]
    refine ⟨_, _, rfl, ?_, (List.drop_sublist _ _).trans hrem, ?_, Or.inr (sorted_compareHeaders _)⟩
    · apply ((stdSort_perm _ _).append_right _).trans
      rwa [List.append_assoc, List.take_append_drop]
    · rw [(stdSort_perm _ _).length_eq, List.length_append, List.length_take]
      omega
  · rw [if_neg hfew]
    exact ⟨new, rem, rfl, hperm, hrem, by omega, Or.inl hnew⟩

/-- The range of a header. -/
def range (h : BlockHeader) : Str × Str := (h.minKey, h.maxKey)

/-- The search for affected blocks looks at the ranges of the source only. -/
theorem affectedBlocks_congr {source source' : List BlockHeader}
    (h : source.map range = source'.map range) (dest new₀ rem₀ : List BlockHeader) :
    affectedBlocks source dest new₀ rem₀ = affectedBlocks source' dest new₀ rem₀ := by
  fun_induction affectedBlocks source dest new₀ rem₀ generalizing source' with
  | case1 s source d dest new₀ rem₀ hlt below =>
    rename_i ih
    obtain ⟨s', source', rfl, hs, hsource⟩ := List.map_eq_cons_iff.mp h.symm
    simp only [range, Prod.mk.injEq] at hs
    rw [affectedBlocks, hs.1, hs.2, if_pos hlt]
    exact ih hsource.symm
  | case2 s source d dest new₀ rem₀ hlt ih =>
    obtain ⟨s', source', rfl, hs, hsource⟩ := List.map_eq_cons_iff.mp h.symm
    have hs' := hs
    simp only [range, Prod.mk.injEq] at hs'
    rw [affectedBlocks, hs'.1, if_neg hlt]
    exact ih h
  | case3 source dest new₀ rem₀ hend =>
    rw [affectedBlocks]
    intro s' source'' d dest' hs' hd
    rw [hs', List.map_cons] at h
    obtain ⟨s, source₀, hs, -, -⟩ := List.map_eq_cons_iff.mp h
    exact hend s source₀ d dest' hs hd

/-- What is handed down depends on the ranges of the source only. -/
theorem selectBlocks_congr {source source' : List BlockHeader}
    (h : source.map range = source'.map range) (dest : List BlockHeader) :
    selectBlocks source dest = selectBlocks source' dest := by
  have hlen : source.length = source'.length := by simpa using congrArg List.length h
  unfold selectBlocks
  rw [affectedBlocks_congr h, hlen]

/-! ## The blocks that go down, level by level -/

/-- The blocks that each of the levels hands down when `src` is pushed into the first of them,
as the levels stand before the push: the choice is made from the top, and a level that has room
ends it. -/
def handedDown (blocksize : ℕ) : List BlockHeader → List Level → ℕ → List BlockHeader
  | _, [], _ => []
  | src, l :: ls, i =>
    if blocksize * src.length + blocksize * l.recordHashes.length ≥ toSizeT l.maxSize then
      match selectBlocks src l.recordHashes with
      | .error _ => []
      | .ok (newSourceVec, _) =>
        match i with
        | 0 => newSourceVec
        | i + 1 => handedDown blocksize newSourceVec ls i
    else []

/-- What is handed down further depends on the ranges of the source only. -/
theorem handedDown_congr {B : ℕ} {src src' : List BlockHeader} (h : src.map range = src'.map range)
    (ls : List Level) : handedDown B src ls = handedDown B src' ls := by
  have hlen : src.length = src'.length := by simpa using congrArg List.length h
  funext i
  cases ls with
  | nil => rfl
  | cons l ls => rw [handedDown, handedDown, hlen, selectBlocks_congr h]

/-- What is handed down comes from the destination. -/
theorem selectBlocks_subset {source dest new rem : List BlockHeader}
    (h : selectBlocks source dest = .ok (new, rem)) : new ⊆ dest := by
  obtain ⟨new₀, rem₀, heq, -, -, hperm⟩ := affectedBlocks_spec source dest [] []
  simp only [List.nil_append] at heq
  have hnew : new₀ ⊆ dest := fun g hg => hperm.subset (List.mem_append_left _ hg)
  have hrem : rem₀ ⊆ dest := fun g hg => hperm.subset (List.mem_append_right _ hg)
  unfold selectBlocks at h
  simp only [heq] at h
  split at h
  · split at h
    · simp at h
    · obtain ⟨rfl, -⟩ : stdSort compareHeaders (new₀ ++ rem₀.take _) = new ∧ _ = rem := by
        simpa using h
      intro g hg
      rcases List.mem_append.mp ((stdSort_perm _ _).subset hg) with hg | hg
      · exact hnew hg
      · exact hrem (List.mem_of_mem_take hg)
  · obtain ⟨rfl, -⟩ : new₀ = new ∧ rem₀ = rem := by simpa using h
    exact hnew

/-- What a level hands down comes from this level. -/
theorem handedDown_subset {B : ℕ} {ls : List Level} {src : List BlockHeader} {i : ℕ}
    {h : BlockHeader} (hh : h ∈ handedDown B src ls i) :
    ∃ l, ls[i]? = some l ∧ h ∈ l.recordHashes := by
  induction ls generalizing src i with
  | nil => simp [handedDown] at hh
  | cons l ls ih =>
    rw [handedDown] at hh
    split at hh
    · split at hh
      · simp at hh
      · rename_i hsel
        cases i with
        | zero => exact ⟨l, rfl, selectBlocks_subset hsel hh⟩
        | succ i => simpa using ih hh
    · simp at hh

/-! ## The runs of the two lists -/

variable {S : BlockStore} {d : S.Disk}

/-- Blocks of a level that are sorted by the lower ends of their ranges are in key order: the
warning at `compareHeaders` is heeded, since the blocks of a level do not overlap. -/
theorem pairwise_below_of_sorted {new rem dest : List BlockHeader} (hok : HeadersOk S d dest)
    (hdest : dest.Pairwise (Below S d)) (hperm : (new ++ rem).Perm dest)
    (hs : new.Pairwise fun h h' => h.minKey ≤ h'.minKey) : new.Pairwise (Below S d) := by
  -- of any two blocks of the level one is below the other
  have hcomparable : dest.Pairwise fun h h' =>
      (Below S d h h' ∧ h.minKey < h'.minKey) ∨ (Below S d h' h ∧ h'.minKey < h.minKey) :=
    hdest.imp_of_mem fun hm hm' hb => Or.inl ⟨hb, hb.minKey_lt (hok _ hm) (hok _ hm')⟩
  have hnew := (List.pairwise_append.mp
    ((hperm.pairwise_iff fun h => h.symm).mpr hcomparable)).1
  refine (hnew.and hs).imp fun h => ?_
  rcases h with ⟨⟨hb, _⟩ | ⟨_, hlt⟩, hle⟩
  · exact hb
  · exact absurd hle hlt.not_ge

/-- **What goes down and what stays are runs**, and they divide the versions of every key. -/
theorem selectBlocks_runs {source dest new rem : List BlockHeader}
    (hlen : source.length ≤ dest.length) (hok : HeadersOk S d dest)
    (hrun : SortedRun (runOf S d dest)) (hsel : selectBlocks source dest = .ok (new, rem)) :
    SortedRun (runOf S d new) ∧ SortedRun (runOf S d rem) ∧
      ∀ k, Splits (find k (runOf S d dest)) (find k (runOf S d new)) (find k (runOf S d rem)) := by
  obtain ⟨new', rem', heq, hperm, hsub, -, horder⟩ := selectBlocks_spec hlen
  obtain ⟨rfl, rfl⟩ : new' = new ∧ rem' = rem := by simpa [hsel] using heq.symm
  have hdest := sortedRun_runOf_iff.mp hrun
  have hnew : SortedRun (runOf S d new') := by
    refine sortedRun_runOf_iff.mpr ⟨fun h hh => ?_, ?_⟩
    · exact hdest.1 h (hperm.subset (List.mem_append_left _ hh))
    · rcases horder with h | h
      · exact hdest.2.sublist h
      · exact pairwise_below_of_sorted hok hdest.2 hperm h
  have hrem : SortedRun (runOf S d rem') :=
    sortedRun_runOf_iff.mpr ⟨fun h hh => hdest.1 h (hsub.subset hh), hdest.2.sublist hsub⟩
  have hruns : (runOf S d new' ++ runOf S d rem').Perm (runOf S d dest) := by
    rw [← runOf_append]
    exact (hperm.map _).flatten
  exact ⟨hnew, hrem, splits_lookup hnew hrem hrun hruns⟩

end Capsule.Analysis
