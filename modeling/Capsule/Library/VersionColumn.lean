import Capsule.Library.SortedRun

/-!
# The versions of one key in a log-structured tree

A log-structured merge tree keeps versions of a key in its memory table, in the unsorted runs
of its top level and in the sorted levels below.  Every operation of the tree acts key by key,
so the whole tree can be studied through the *column* of one key: which version each place
holds for it.

* `cascade stamp s down keep` is the effect of pushing a run into the levels: the source
  version `s` enters level `0`, each level either hands its version down or keeps it
  (`Splits`), and a level merges what it receives with what it kept.
* `Column.Put` lists the five things one insertion can do to the column, and `Column.Fail` what
  is left behind when a reorganisation is cut short by an exception.
* `Column.Ordered` is the order every correct reader relies on: a version stored higher is at
  least as new.

From these follow the laws of the tree, for any entries and stamps: no step loses the newest
version (`Put.retains`) or invents one (`Put.source`), the order is kept when what arrives is
new (`Put.ordered`), and what a reader sees does not change under a reorganisation
(`firstSome_cascade`), unless the visible version meets an equally stamped one.
-/

set_option autoImplicit false

namespace Capsule.Library

variable {α τ : Type}

/-! ## The first entry of a sequence of places -/

open Classical in
/-- What a reader finds who looks through the places in order and stops at the first entry. -/
noncomputable def firstSome (f : ℕ → Option α) : Option α :=
  if h : ∃ i, (f i).isSome = true then f (Nat.find h) else none

/-- The first entry is the one before which there is none. -/
theorem firstSome_eq_some_iff {f : ℕ → Option α} {x : α} :
    firstSome f = some x ↔ ∃ i, f i = some x ∧ ∀ j < i, f j = none := by
  classical
  unfold firstSome
  constructor
  · intro h
    split at h
    · rename_i hex
      refine ⟨Nat.find hex, h, fun j hj => ?_⟩
      simpa using Nat.find_min hex hj
    · simp at h
  · rintro ⟨i, hi, hlt⟩
    have hex : ∃ i, (f i).isSome = true := ⟨i, by simp [hi]⟩
    have hfind : Nat.find hex = i := by
      rw [Nat.find_eq_iff]
      exact ⟨by simp [hi], fun j hj => by simp [hlt j hj]⟩
    rw [dif_pos hex, hfind, hi]

/-- There is no first entry exactly if there is none at all. -/
theorem firstSome_eq_none_iff {f : ℕ → Option α} : firstSome f = none ↔ ∀ i, f i = none := by
  classical
  constructor
  · intro h i
    by_contra hne
    have hex : ∃ i, (f i).isSome = true := ⟨i, by simpa [Option.isSome_iff_ne_none] using hne⟩
    have hfind := Nat.find_spec hex
    unfold firstSome at h
    rw [dif_pos hex] at h
    simp [h] at hfind
  · intro h
    unfold firstSome
    rw [dif_neg]
    rintro ⟨i, hi⟩
    simp [h i] at hi

/-- Looking through the first `n` places, when the others hold nothing. -/
theorem findSome?_range_eq_firstSome {f : ℕ → Option α} {n : ℕ} (h : ∀ i, n ≤ i → f i = none) :
    (List.range n).findSome? f = firstSome f := by
  cases hf : firstSome f with
  | none =>
    rw [firstSome_eq_none_iff] at hf
    rw [List.findSome?_eq_none_iff]
    exact fun i _ => hf i
  | some x =>
    obtain ⟨i, hi, hlt⟩ := firstSome_eq_some_iff.mp hf
    have hin : i < n := by
      by_contra hge
      rw [h i (by omega)] at hi
      simp at hi
    obtain ⟨m, rfl⟩ : ∃ m, n = i + (m + 1) := ⟨n - i - 1, by omega⟩
    have hbefore : (List.range i).findSome? f = none := by
      rw [List.findSome?_eq_none_iff]
      intro j hj
      exact hlt j (List.mem_range.mp hj)
    rw [List.range_add, List.findSome?_append, hbefore, Option.none_or, List.range_succ_eq_map,
      List.map_cons, List.findSome?_cons, Nat.add_zero, hi]

/-! ## Pushing versions down the levels -/

variable [LinearOrder τ] (stamp : α → τ)

/-- A level's version is either handed down or kept. -/
def Splits (r down keep : Option α) : Prop :=
  (down = none ∧ keep = r) ∨ (down = r ∧ keep = none)

/-- The levels after a push: level `0` merges the source with what it kept, every further
level merges what the level above handed down with what it kept itself. -/
def cascade (s : Option α) (down keep : ℕ → Option α) : ℕ → Option α
  | 0 => pick stamp s (keep 0)
  | i + 1 => pick stamp (down i) (keep (i + 1))

/-- The merge of a list of versions, from the left. -/
def pickAll (l : List (Option α)) : Option α := l.foldl (pick stamp) none

/-- Every version stands in the relation `r` to those above it, the source being above all
levels. -/
structure DescendingBy (r : α → α → Prop) (s : Option α) (lv : ℕ → Option α) : Prop where
  source : ∀ x i y, s = some x → lv i = some y → r y x
  levels : ∀ i j x y, i < j → lv i = some x → lv j = some y → r y x

/-- The source is at least as new as every level, and a level as every level below it. -/
abbrev Descending (s : Option α) (lv : ℕ → Option α) : Prop :=
  DescendingBy (fun y x => stamp y ≤ stamp x) s lv

/-- The visible version does not meet an equally stamped, different version in the level that
receives it. -/
structure NoTie (s : Option α) (lv down keep : ℕ → Option α) : Prop where
  /-- the visible version is the source, and level `0` keeps a version -/
  source : ∀ x y, s = some x → keep 0 = some y → stamp x = stamp y → x = y
  /-- the visible version lies in level `i`, which hands it down -/
  moved : ∀ i x y, s = none → (∀ j < i, lv j = none) → down i = some x →
    keep (i + 1) = some y → stamp x = stamp y → x = y

variable {stamp}

/-- What is handed down of a level is what it held, and nothing stays. -/
theorem Splits.down_eq {r down keep : Option α} (h : Splits r down keep) {x : α}
    (hx : down = some x) : r = some x ∧ keep = none := by
  rcases h with ⟨h, _⟩ | ⟨h, h'⟩
  · simp [h] at hx
  · exact ⟨h ▸ hx, h'⟩

/-- What stays of a level is what it held, and nothing is handed down. -/
theorem Splits.keep_eq {r down keep : Option α} (h : Splits r down keep) {x : α}
    (hx : keep = some x) : r = some x ∧ down = none := by
  rcases h with ⟨h, h'⟩ | ⟨_, h'⟩
  · exact ⟨h' ▸ hx, h⟩
  · simp [h'] at hx

/-- An empty level neither hands down nor keeps anything. -/
theorem Splits.of_none {down keep : Option α} (h : Splits none down keep) :
    down = none ∧ keep = none := by
  rcases h with ⟨h, h'⟩ | ⟨h, h'⟩ <;> exact ⟨h, h'⟩

/-- Dividing a run divides the versions of every key. -/
theorem splits_lookup {κ : Type} [LinearOrder κ] {key : α → κ} {xs ys zs : List α}
    (hx : SortedBy key xs) (hy : SortedBy key ys) (hz : SortedBy key zs)
    (hp : (xs ++ ys).Perm zs) (k : κ) :
    Splits (lookup key k zs) (lookup key k xs) (lookup key k ys) := by
  cases hdown : lookup key k xs with
  | none =>
    refine Or.inl ⟨rfl, ?_⟩
    rw [lookup_eq_none_iff] at hdown
    ext y
    rw [lookup_eq_some_iff hy, lookup_eq_some_iff hz, ← hp.mem_iff, List.mem_append]
    constructor
    · rintro ⟨hmem, hk⟩
      exact ⟨Or.inr hmem, hk⟩
    · rintro ⟨hmem | hmem, hk⟩
      · exact absurd hk (hdown y hmem)
      · exact ⟨hmem, hk⟩
  | some x =>
    obtain ⟨hmem, hk⟩ := (lookup_eq_some_iff hx).mp hdown
    refine Or.inr ⟨?_, ?_⟩
    · rw [eq_comm, lookup_eq_some_iff hz, ← hp.mem_iff]
      exact ⟨List.mem_append_left ys hmem, hk⟩
    · rw [lookup_eq_none_iff]
      intro y hmemy hky
      have hnd := (hp.map key).nodup_iff.mpr hz.nodup_keys
      rw [List.map_append, List.nodup_append] at hnd
      exact hnd.2.2 _ (List.mem_map_of_mem hmem) _ (List.mem_map_of_mem hmemy) (hk.trans hky.symm)

/-- The first of two is the newer one if no other one is as new. -/
theorem newer_eq_left {x y : α} (h : stamp y ≤ stamp x) (ht : stamp x = stamp y → x = y) :
    newer stamp x y = x := by
  unfold newer
  split
  · exact (ht (le_antisymm ‹_› h)).symm
  · rfl

section Cascade

variable {s : Option α} {lv down keep : ℕ → Option α}

/-- A push invents no version. -/
theorem cascade_source (hsp : ∀ i, Splits (lv i) (down i) (keep i)) {i : ℕ} {y : α}
    (h : cascade stamp s down keep i = some y) : s = some y ∨ ∃ j, lv j = some y := by
  cases i with
  | zero =>
    rcases pick_eq_some h with h | h
    · exact Or.inl h
    · exact Or.inr ⟨0, ((hsp 0).keep_eq h).1⟩
  | succ i =>
    rcases pick_eq_some h with h | h
    · exact Or.inr ⟨i, ((hsp i).down_eq h).1⟩
    · exact Or.inr ⟨i + 1, ((hsp (i + 1)).keep_eq h).1⟩

variable (stamp down keep) in
/-- A push keeps, for the source, a version at least as new. -/
theorem cascade_retains_source {x : α} (h : s = some x) :
    ∃ i y, cascade stamp s down keep i = some y ∧ stamp x ≤ stamp y :=
  ⟨0, exists_pick_left stamp h⟩

variable (stamp s) in
/-- A push keeps, for every level's version, one at least as new. -/
theorem cascade_retains (hsp : ∀ i, Splits (lv i) (down i) (keep i)) {i : ℕ} {x : α}
    (h : lv i = some x) : ∃ j y, cascade stamp s down keep j = some y ∧ stamp x ≤ stamp y := by
  rcases hsp i with ⟨_, hkeep⟩ | ⟨hdown, _⟩
  · cases i with
    | zero => exact ⟨0, exists_pick_right stamp (hkeep.trans h)⟩
    | succ i => exact ⟨i + 1, exists_pick_right stamp (hkeep.trans h)⟩
  · exact ⟨i + 1, exists_pick_left stamp (hdown.trans h)⟩

/-- **A push keeps the levels in descending order.** -/
theorem DescendingBy.cascade {r : α → α → Prop} (hd : DescendingBy r s lv)
    (hsp : ∀ i, Splits (lv i) (down i) (keep i)) :
    DescendingBy r none (Library.cascade stamp s down keep) := by
  refine ⟨by simp, fun i j x y hij hx hy => ?_⟩
  obtain ⟨j, rfl⟩ : ∃ m, j = m + 1 := ⟨j - 1, by omega⟩
  -- `y` comes from level `j` or from level `j + 1` of before, both below what `x` came from
  have hy' : (down j = some y ∧ lv j = some y) ∨ (keep (j + 1) = some y ∧ lv (j + 1) = some y) := by
    rcases pick_eq_some hy with h | h
    · exact Or.inl ⟨h, ((hsp j).down_eq h).1⟩
    · exact Or.inr ⟨h, ((hsp (j + 1)).keep_eq h).1⟩
  have hx' : (keep i = some x ∧ lv i = some x) ∨
      (∃ k, i = k + 1 ∧ down k = some x ∧ lv k = some x) ∨ (i = 0 ∧ s = some x) := by
    cases i with
    | zero =>
      rcases pick_eq_some hx with h | h
      · exact Or.inr (Or.inr ⟨rfl, h⟩)
      · exact Or.inl ⟨h, ((hsp 0).keep_eq h).1⟩
    | succ i =>
      rcases pick_eq_some hx with h | h
      · exact Or.inr (Or.inl ⟨i, rfl, h, ((hsp i).down_eq h).1⟩)
      · exact Or.inl ⟨h, ((hsp (i + 1)).keep_eq h).1⟩
  rcases hx' with ⟨hkeep, hlv⟩ | ⟨k, rfl, _, hlv⟩ | ⟨rfl, hs⟩
  · rcases hy' with ⟨hdown, hlvy⟩ | ⟨_, hlvy⟩
    · rcases Nat.lt_or_ge i j with h | h
      · exact hd.levels i j x y h hlv hlvy
      · -- level `i` cannot both keep its version and hand it down
        obtain rfl : i = j := by omega
        have := ((hsp i).down_eq hdown).2
        simp [hkeep] at this
    · exact hd.levels i (j + 1) x y (by omega) hlv hlvy
  · rcases hy' with ⟨_, hlvy⟩ | ⟨_, hlvy⟩
    · exact hd.levels k j x y (by omega) hlv hlvy
    · exact hd.levels k (j + 1) x y (by omega) hlv hlvy
  · rcases hy' with ⟨_, hlvy⟩ | ⟨_, hlvy⟩
    · exact hd.source x j y hs hlvy
    · exact hd.source x (j + 1) y hs hlvy

/-- Where a level above holds nothing, and nothing arrives, the level is left as it was. -/
theorem cascade_eq_none (hsp : ∀ i, Splits (lv i) (down i) (keep i)) (hs : s = none) {i : ℕ}
    (hlv : ∀ j ≤ i, lv j = none) : cascade stamp s down keep i = none := by
  have hnone : ∀ j ≤ i, down j = none ∧ keep j = none := fun j hj =>
    Splits.of_none (hlv j hj ▸ hsp j)
  cases i with
  | zero => simp [cascade, hs, (hnone 0 le_rfl).2]
  | succ i => simp [cascade, (hnone i (by omega)).1, (hnone (i + 1) le_rfl).2]

/-- The levels above the one whose version is handed down end up empty. -/
theorem cascade_eq_none_of_down (hsp : ∀ i, Splits (lv i) (down i) (keep i)) (hs : s = none)
    {i : ℕ} {x : α} (hlv : ∀ j < i, lv j = none) (hdown : down i = some x) {j : ℕ} (hj : j ≤ i) :
    cascade stamp s down keep j = none := by
  have hkeep : keep i = none := ((hsp i).down_eq hdown).2
  have hnone : ∀ k < i, down k = none ∧ keep k = none := fun k hk =>
    Splits.of_none (hlv k hk ▸ hsp k)
  have hkeep' : ∀ k ≤ i, keep k = none := fun k hk => by
    rcases Nat.lt_or_eq_of_le hk with h | rfl
    · exact (hnone k h).2
    · exact hkeep
  cases j with
  | zero => simp [cascade, hs, hkeep' 0 (by omega)]
  | succ j => simp [cascade, (hnone j (by omega)).1, hkeep' (j + 1) hj]

/-- **A push is invisible to readers**, unless the visible version meets an equally stamped,
different one in the level that receives it. -/
theorem firstSome_cascade (hsp : ∀ i, Splits (lv i) (down i) (keep i))
    (hd : Descending stamp s lv) (ht : NoTie stamp s lv down keep) :
    firstSome (cascade stamp s down keep) = s.or (firstSome lv) := by
  cases s with
  | some x =>
    rw [Option.some_or, firstSome_eq_some_iff]
    refine ⟨0, ?_, by simp⟩
    cases hk : keep 0 with
    | none => simp [cascade, hk]
    | some y =>
      have hle := hd.source x 0 y rfl ((hsp 0).keep_eq hk).1
      simp only [cascade, hk, pick_some_some, newer_eq_left hle (ht.source x y rfl hk)]
  | none =>
    rw [Option.none_or]
    cases hf : firstSome lv with
    | none =>
      rw [firstSome_eq_none_iff] at hf ⊢
      intro i
      exact cascade_eq_none hsp rfl fun j _ => hf j
    | some x =>
      rw [firstSome_eq_some_iff] at hf ⊢
      obtain ⟨i, hi, hlt⟩ := hf
      rcases hsp i with ⟨hdown, hkeep⟩ | ⟨hdown, hkeep⟩
      · -- level `i` keeps the version, and nothing reaches it from above
        refine ⟨i, ?_, fun j hj => cascade_eq_none hsp rfl fun k hk => hlt k (hk.trans_lt hj)⟩
        rw [hi] at hkeep
        cases i with
        | zero => simp [cascade, hkeep]
        | succ i =>
          have := (Splits.of_none (hlt i (by omega) ▸ hsp i)).1
          simp [cascade, this, hkeep]
      · -- level `i` hands the version down to level `i + 1`
        rw [hi] at hdown
        refine ⟨i + 1, ?_, fun j hj =>
          cascade_eq_none_of_down hsp rfl hlt hdown (Nat.le_of_lt_succ hj)⟩
        cases hk : keep (i + 1) with
        | none => simp [cascade, hdown, hk]
        | some y =>
          have hle := hd.levels i (i + 1) x y (by omega) hi ((hsp (i + 1)).keep_eq hk).1
          simp only [cascade, hdown, hk, pick_some_some,
            newer_eq_left hle (ht.moved i x y rfl hlt hdown hk)]

/-- Conversely, a push that readers do not notice merges no tie of the visible version: of two
equally stamped versions the merge keeps the lower one. -/
theorem noTie_of_firstSome_cascade (hsp : ∀ i, Splits (lv i) (down i) (keep i))
    (heq : firstSome (cascade stamp s down keep) = s.or (firstSome lv)) :
    NoTie stamp s lv down keep := by
  have hlower : ∀ x y : α, stamp x = stamp y → newer stamp x y = y := fun x y h => by
    unfold newer
    rw [if_pos h.le]
  refine ⟨fun x y hs hk hst => ?_, fun i x y hs hlt hdown hk hst => ?_⟩
  · have htop : firstSome (cascade stamp s down keep) = some y := by
      rw [firstSome_eq_some_iff]
      exact ⟨0, by simp [cascade, hs, hk, hlower x y hst], by simp⟩
    rw [htop, hs, Option.some_or] at heq
    exact (Option.some.inj heq).symm
  · have htop : firstSome (cascade stamp s down keep) = some y := by
      rw [firstSome_eq_some_iff]
      exact ⟨i + 1, by simp [cascade, hdown, hk, hlower x y hst],
        fun j hj => cascade_eq_none_of_down hsp hs hlt hdown (by omega)⟩
    have hlv : firstSome lv = some x := by
      rw [firstSome_eq_some_iff]
      exact ⟨i, ((hsp i).down_eq hdown).1, hlt⟩
    rw [htop, hs, Option.none_or, hlv] at heq
    exact (Option.some.inj heq).symm

end Cascade

/-! ## Merging the versions of the top level -/

/-- The pick of a list with one more entry. -/
theorem pickAll_concat (l : List (Option α)) (a : Option α) :
    pickAll stamp (l ++ [a]) = pick stamp (pickAll stamp l) a := by
  simp [pickAll, List.foldl_append]

/-- The merge of the top level invents no version. -/
theorem pickAll_mem {l : List (Option α)} {z : α} (h : pickAll stamp l = some z) :
    some z ∈ l := by
  induction l using List.reverseRecOn with
  | nil => simp [pickAll] at h
  | append_singleton l a ih =>
    rw [pickAll_concat] at h
    rcases pick_eq_some h with h | h
    · exact List.mem_append_left _ (ih h)
    · simp [h]

/-- The merge of the top level keeps, for each of its versions, one at least as new. -/
theorem pickAll_retains {l : List (Option α)} {x : α} (h : some x ∈ l) :
    ∃ z, pickAll stamp l = some z ∧ stamp x ≤ stamp z := by
  induction l using List.reverseRecOn with
  | nil => simp at h
  | append_singleton l a ih =>
    rw [pickAll_concat]
    rcases List.mem_append.mp h with h | h
    · obtain ⟨z, hz, hle⟩ := ih h
      obtain ⟨w, hw, hle'⟩ := exists_pick_left stamp (b := a) hz
      exact ⟨w, hw, hle.trans hle'⟩
    · exact exists_pick_right stamp (List.mem_singleton.mp h).symm

/-- The last run of the top level wins when nothing before it is newer. -/
theorem pickAll_concat_newest {l : List (Option α)} {z : α}
    (h : ∀ x, some x ∈ l → stamp x ≤ stamp z) : pickAll stamp (l ++ [some z]) = some z := by
  rw [pickAll_concat]
  cases hl : pickAll stamp l with
  | none => rfl
  | some x =>
    have hle := h x (pickAll_mem hl)
    simp [newer, hle]

end Capsule.Library
