import Capsule.Analysis.Select

/-!
# Which blocks count as affected

The comment at `compactHelper` says that the blocks of the destination that the source modifies
are pushed into the level below.  What the loop pushes is something else: it goes through the
source, and pushes the blocks of the destination that end before the end of a source block, as
long as in front of each source block a block of the destination ends (`mem_affectedBlocks_iff`).
At the first source block without one, everything not yet passed stays.

`pushes_affected_iff` compares the two.
-/

set_option autoImplicit false

namespace Capsule.Analysis

open Program

variable {source dest : List BlockHeader} {d : BlockHeader}

/-- Blocks in key order that do not overlap. -/
structure KeySorted (hs : List BlockHeader) : Prop where
  ranged : ∀ h ∈ hs, h.minKey ≤ h.maxKey
  disjoint : hs.Pairwise fun h h' => h.maxKey < h'.minKey

instance (hs : List BlockHeader) : Decidable (KeySorted hs) :=
  decidable_of_iff ((∀ h ∈ hs, h.minKey ≤ h.maxKey) ∧
    hs.Pairwise fun h h' => h.maxKey < h'.minKey) ⟨fun h => ⟨h.1, h.2⟩, fun h => ⟨h.1, h.2⟩⟩

/-- The ranges of two blocks intersect. -/
def Intersects (s d : BlockHeader) : Prop := s.minKey ≤ d.maxKey ∧ d.minKey ≤ s.maxKey

instance (s d : BlockHeader) : Decidable (Intersects s d) :=
  inferInstanceAs (Decidable (s.minKey ≤ d.maxKey ∧ d.minKey ≤ s.maxKey))

/-- The block `d` ends before the end of a source block `s`, and a block of the destination ends in
the gap in front of `s` and in the gap in front of every source block before `s`. -/
def Reached (source dest : List BlockHeader) (d : BlockHeader) : Prop :=
  ∃ pre s, pre ++ [s] <+: source ∧ d.maxKey < s.maxKey ∧
    ∀ pre' s', pre' ++ [s'] <+: pre ++ [s] →
      ∃ e ∈ dest, e.maxKey < s'.minKey ∧ ∀ p ∈ pre', p.maxKey ≤ e.maxKey

/-- No block reaches a destination from an empty source. -/
theorem not_reached_nil : ¬ Reached [] dest d := by
  rintro ⟨pre, s, hpre, -⟩
  simp at hpre

/-- Passing one block of the source. -/
theorem reached_cons {s : BlockHeader} :
    Reached (s :: source) dest d ↔ (∃ e ∈ dest, e.maxKey < s.minKey) ∧
      (d.maxKey < s.maxKey ∨ Reached source (dest.filter fun e => s.maxKey ≤ e.maxKey) d) := by
  constructor
  · rintro ⟨pre, s', hpre, hlt, hgap⟩
    cases pre with
    | nil =>
      obtain ⟨rfl, -⟩ := List.cons_prefix_cons.mp hpre
      obtain ⟨e, he, hes, -⟩ := hgap [] s' (List.prefix_refl _)
      exact ⟨⟨e, he, hes⟩, Or.inl hlt⟩
    | cons p pre =>
      obtain ⟨rfl, htail⟩ := List.cons_prefix_cons.mp hpre
      obtain ⟨e, he, hes, -⟩ := hgap [] p (by simp)
      refine ⟨⟨e, he, hes⟩, Or.inr ⟨pre, s', htail, hlt, fun pre' t hpre' => ?_⟩⟩
      obtain ⟨e, he, het, hfront⟩ := hgap (p :: pre') t (by simpa using hpre')
      refine ⟨e, ?_, het, fun q hq => hfront q (by simp [hq])⟩
      simpa [he] using hfront p (by simp)
  · rintro ⟨⟨e, he, hes⟩, hlt | ⟨pre, s', hpre, hlt, hgap⟩⟩
    · refine ⟨[], s, by simp, hlt, fun pre' t hpre' => ?_⟩
      obtain ⟨rfl, rfl⟩ : pre' = [] ∧ t = s := by
        cases pre' with
        | nil => simpa using hpre'
        | cons q pre' => simp at hpre'
      exact ⟨e, he, hes, by simp⟩
    · refine ⟨s :: pre, s', by simpa using hpre, hlt, fun pre' t hpre' => ?_⟩
      cases pre' with
      | nil =>
        obtain ⟨rfl, -⟩ := List.cons_prefix_cons.mp hpre'
        exact ⟨e, he, hes, by simp⟩
      | cons q pre' =>
        obtain ⟨rfl, htail⟩ := List.cons_prefix_cons.mp hpre'
        obtain ⟨f, hf, hft, hfront⟩ := hgap pre' t htail
        simp only [List.mem_filter, decide_eq_true_eq] at hf
        exact ⟨f, hf.1, hft, List.forall_mem_cons.mpr ⟨hf.2, hfront⟩⟩

/-- In a list that is ordered by a measure, the elements below a bound come first. -/
theorem takeWhile_lt_eq_filter {α κ : Type} [LinearOrder κ] {key : α → κ} {c : κ} {p : α → Bool}
    (hp : ∀ a, p a = true ↔ key a < c) {l : List α} (hl : l.Pairwise fun a b => key a < key b) :
    l.takeWhile p = l.filter p ∧ l.dropWhile p = l.filter fun a => decide (c ≤ key a) := by
  induction l with
  | nil => exact ⟨rfl, rfl⟩
  | cons a l ih =>
    obtain ⟨hhead, htail⟩ := List.pairwise_cons.mp hl
    by_cases ha : p a = true
    · have hnot : ¬ c ≤ key a := not_le.mpr ((hp a).mp ha)
      simp [ha, hnot, ih htail]
    · have hle : c ≤ key a := not_lt.mp (mt (hp a).mpr ha)
      have hall : ∀ b ∈ l, c ≤ key b := fun b hb => hle.trans (hhead b hb).le
      have hnone : l.filter p = [] :=
        List.filter_eq_nil_iff.mpr fun b hb => mt (hp b).mp (hall b hb).not_gt
      have hsame : l.filter (fun b => decide (c ≤ key b)) = l :=
        List.filter_eq_self.mpr fun b hb => decide_eq_true (hall b hb)
      simp [ha, hle, hnone, hsame]

/-- The largest keys of key-sorted blocks increase. -/
theorem KeySorted.maxKeys (h : KeySorted dest) :
    dest.Pairwise fun d e => d.maxKey < e.maxKey :=
  h.disjoint.imp_of_mem fun _ he hlt => hlt.trans_le (h.ranged _ he)

/-- **What the loop pushes down**: the blocks that are reached. -/
theorem mem_affectedBlocks_iff (hdest : KeySorted dest) (new₀ rem₀ : List BlockHeader) :
    d ∈ (affectedBlocks source dest new₀ rem₀).1 ↔
      d ∈ new₀ ∨ (d ∈ dest ∧ Reached source dest d) := by
  fun_induction affectedBlocks source dest new₀ rem₀ with
  | case1 s source f dest new₀ rem₀ hbelow below ih =>
    -- the first block ends in front of the source block, which is passed
    have hbelowIff : ∀ e, below e = true ↔ e.maxKey < s.maxKey := fun e => decide_eq_true_iff
    obtain ⟨htake, hdrop⟩ := takeWhile_lt_eq_filter hbelowIff hdest.maxKeys
    have hrest : KeySorted ((f :: dest).dropWhile below) :=
      ⟨fun h hh => hdest.ranged h ((List.dropWhile_sublist below).subset hh),
        hdest.disjoint.sublist (List.dropWhile_sublist below)⟩
    rw [ih hrest, reached_cons, List.mem_append, htake, hdrop]
    simp only [List.mem_filter, decide_eq_true_eq, hbelowIff]
    have hgap : ∃ e ∈ f :: dest, e.maxKey < s.minKey := ⟨f, by simp, hbelow.2⟩
    constructor
    · rintro ((h | ⟨hd, hlt⟩) | ⟨⟨hd, -⟩, hreached⟩)
      · exact Or.inl h
      · exact Or.inr ⟨hd, hgap, Or.inl hlt⟩
      · exact Or.inr ⟨hd, hgap, Or.inr hreached⟩
    · rintro (h | ⟨hd, -, hreached⟩)
      · exact Or.inl (Or.inl h)
      · rcases lt_or_ge d.maxKey s.maxKey with hlt | hge
        · exact Or.inl (Or.inr ⟨hd, hlt⟩)
        · exact Or.inr ⟨⟨hd, hge⟩, hreached.resolve_left hge.not_gt⟩
  | case2 s source f dest new₀ rem₀ hbelow ih =>
    -- no block ends in front of the source block, so nothing more is pushed
    have hge : s.minKey ≤ f.maxKey := by
      by_contra hlt
      exact hbelow ⟨(hdest.ranged f (by simp)).trans_lt (not_le.mp hlt), not_le.mp hlt⟩
    have hnone : ∀ e ∈ f :: dest, ¬ e.maxKey < s.minKey := by
      intro e he hlt
      rcases List.mem_cons.mp he with rfl | he
      · exact absurd hlt hge.not_gt
      · exact absurd hlt
          (hge.trans ((List.pairwise_cons.mp hdest.maxKeys).1 e he).le).not_gt
    have hrest : KeySorted dest :=
      ⟨fun h hh => hdest.ranged h (by simp [hh]), (List.pairwise_cons.mp hdest.disjoint).2⟩
    rw [ih hrest, reached_cons, reached_cons]
    constructor
    · rintro (h | ⟨-, ⟨e, he, hlt⟩, -⟩)
      · exact Or.inl h
      · exact absurd hlt (hnone e (by simp [he]))
    · rintro (h | ⟨-, ⟨e, he, hlt⟩, -⟩)
      · exact Or.inl h
      · exact absurd hlt (hnone e he)
  | case3 source dest new₀ rem₀ hend =>
    have hnot : ¬ (d ∈ dest ∧ Reached source dest d) := by
      rintro ⟨hd, hreached⟩
      cases source with
      | nil => exact not_reached_nil hreached
      | cons s source =>
        cases dest with
        | nil => simp at hd
        | cons f dest => exact hend s source f dest rfl rfl
    simp [hnot]

/-- What does not go down in the loop stays. -/
theorem mem_remaining_iff (hdest : KeySorted dest) :
    d ∈ (affectedBlocks source dest [] []).2 ↔ d ∈ dest ∧ ¬ Reached source dest d := by
  obtain ⟨new, rem, heq, -, -, hperm⟩ := affectedBlocks_spec source dest [] []
  have hnew : d ∈ (affectedBlocks source dest [] []).1 ↔
      d ∈ [] ∨ (d ∈ dest ∧ Reached source dest d) := mem_affectedBlocks_iff hdest [] []
  have hnodup : (new ++ rem).Nodup :=
    hperm.nodup_iff.mpr (hdest.maxKeys.imp fun hlt he => absurd (he ▸ hlt) (lt_irrefl _))
  simp only [heq, List.nil_append, List.not_mem_nil, false_or] at hnew ⊢
  constructor
  · intro hd
    refine ⟨hperm.subset (List.mem_append_right _ hd), fun hreached => ?_⟩
    have hmem := hnew.mpr ⟨hperm.subset (List.mem_append_right _ hd), hreached⟩
    exact (List.nodup_append.mp hnodup).2.2 d hmem d hd rfl
  · rintro ⟨hd, hnot⟩
    rcases List.mem_append.mp (hperm.symm.subset hd) with h | h
    · exact absurd (hnew.mp h).2 hnot
    · exact h

/-- Every block of the destination whose range intersects that of a source block is handed down, and
the loop for the affected blocks does not leave it behind. -/
def PushesAffected (source dest : List BlockHeader) : Prop :=
  ∀ d ∈ dest, (∃ s ∈ source, Intersects s d) →
    d ∉ (affectedBlocks source dest [] []).2 ∧
    ∀ new rem, selectBlocks source dest = .ok (new, rem) → d ∈ new

/-- Blocks that the loop has pushed are handed down. -/
theorem affectedBlocks_subset_new {new rem : List BlockHeader}
    (hsel : selectBlocks source dest = .ok (new, rem)) :
    (affectedBlocks source dest [] []).1 ⊆ new := by
  unfold selectBlocks at hsel
  generalize affectedBlocks source dest [] [] = pushed at hsel ⊢
  simp only at hsel
  split at hsel
  · split at hsel
    · simp at hsel
    · obtain ⟨rfl, -⟩ := Prod.ext_iff.mp (Except.ok.inj hsel)
      intro g hg
      exact (stdSort_perm _ _).symm.subset (List.mem_append_left _ hg)
  · obtain ⟨rfl, -⟩ := Prod.ext_iff.mp (Except.ok.inj hsel)
    exact fun g hg => hg

/-- **When overflow pushes down the affected blocks.**  All blocks of the destination that the
source intersects go down exactly if each of them is reached: it ends before the end of a source
block in front of which, and in front of each source block before it, a block of the destination
ends. -/
theorem pushes_affected_iff (hdest : KeySorted dest) :
    PushesAffected source dest ↔
      ∀ d ∈ dest, (∃ s ∈ source, Intersects s d) → Reached source dest d := by
  apply forall₃_congr
  intro d hd _
  rw [mem_remaining_iff hdest]
  constructor
  · rintro ⟨hstay, -⟩
    by_contra hnot
    exact hstay ⟨hd, hnot⟩
  · intro hreached
    refine ⟨fun hstay => hstay.2 hreached, fun new rem hsel => ?_⟩
    exact affectedBlocks_subset_new hsel
      ((mem_affectedBlocks_iff hdest [] []).mpr (Or.inr ⟨hd, hreached⟩))

/-- A header for a range of one-byte keys. -/
def headerOf (lo hi : UInt8) : BlockHeader := ⟨[], [lo], [hi]⟩

/-- The theorem at a source block that overlaps the second block of the destination. -/
theorem pushes_affected_iff_sample :
    PushesAffected [headerOf 10 20] [headerOf 1 2, headerOf 12 15] ↔
      ∀ d ∈ [headerOf 1 2, headerOf 12 15], (∃ s ∈ [headerOf 10 20], Intersects s d) →
        Reached [headerOf 10 20] [headerOf 1 2, headerOf 12 15] d :=
  pushes_affected_iff (by decide)

/-- Eighteen blocks of one key each, from the key 98 on. -/
def sampleLevel : List BlockHeader :=
  (List.range 18).map fun i => headerOf (98 + UInt8.ofNat i) (98 + UInt8.ofNat i)

/-- A level for twenty blocks of one entry, with eighteen of them, receives the keys 97 and 115.  It
overflows, and hands down its first two blocks: its own block of the key 115 stays. -/
theorem affected_block_stays :
    KeySorted [headerOf 97 97, headerOf 115 115] ∧ KeySorted sampleLevel ∧
    1 * [headerOf 97 97, headerOf 115 115].length + 1 * sampleLevel.length ≥ toSizeT 20 ∧
    selectBlocks [headerOf 97 97, headerOf 115 115] sampleLevel =
      .ok (sampleLevel.take 2, sampleLevel.drop 2) ∧
    headerOf 115 115 ∈ sampleLevel.drop 2 ∧
    ¬ PushesAffected [headerOf 97 97, headerOf 115 115] sampleLevel := by
  have hsel : selectBlocks [headerOf 97 97, headerOf 115 115] sampleLevel =
      .ok (sampleLevel.take 2, sampleLevel.drop 2) := by decide +kernel
  refine ⟨by decide, by decide +kernel, by decide, hsel, by decide +kernel, fun h => ?_⟩
  have hmem := (h (headerOf 115 115) (by decide +kernel)
    ⟨headerOf 115 115, by decide, by decide⟩).2 _ _ hsel
  exact absurd hmem (by decide +kernel)

end Capsule.Analysis
