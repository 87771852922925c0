import Mathlib

/-!
# Sorted runs of versioned entries

A *run* is a list of entries with strictly increasing keys.  Several runs may hold an entry
for one key; the entries then differ in their stamp.  This file has the operations a
log-structured store performs on runs and the laws its proofs use:

* `lookup key k xs`, the entry of the run `xs` for the key `k`;
* `mergeBy key stamp xs ys`, the union of two runs in which, for a key of both, the entry
  with the larger stamp stays, and the one of `ys` when the stamps are equal;
* `pick stamp a b`, what that merge does to the two entries of a single key, so that
  `lookup` of a merge is `pick` of the two lookups (`lookup_mergeBy`);
* `FullCut n bs`, the shape of a run cut into blocks of `n` entries, the last one possibly
  shorter.
-/

set_option autoImplicit false

namespace Capsule.Library

variable {α κ τ : Type} [LinearOrder κ] [LinearOrder τ] (key : α → κ) (stamp : α → τ)

/-! ## Runs and their lookup -/

/-- The keys of the list increase strictly. -/
def SortedBy (xs : List α) : Prop := xs.Pairwise fun x y => key x < key y

instance (xs : List α) : Decidable (SortedBy key xs) :=
  inferInstanceAs (Decidable (xs.Pairwise _))

/-- The first entry for the key `k`. -/
def lookup (k : κ) (xs : List α) : Option α := xs.find? fun x => decide (key x = k)

variable {key stamp}

/-- Nothing is found in an empty list. -/
@[simp] theorem lookup_nil (k : κ) : lookup key k ([] : List α) = none := rfl

/-- The first element is found, or the lookup goes on. -/
theorem lookup_cons (k : κ) (x : α) (xs : List α) :
    lookup key k (x :: xs) = if key x = k then some x else lookup key k xs := by
  unfold lookup
  rw [List.find?_cons]
  by_cases h : key x = k <;> simp [h]

/-- A lookup in two lists prefers the first one. -/
theorem lookup_append (k : κ) (xs ys : List α) :
    lookup key k (xs ++ ys) = (lookup key k xs).or (lookup key k ys) := by
  unfold lookup
  exact List.find?_append

/-- What is found is in the list. -/
theorem lookup_mem {k : κ} {xs : List α} {x : α} (h : lookup key k xs = some x) : x ∈ xs :=
  List.mem_of_find?_eq_some h

/-- What is found has the key that was looked up. -/
theorem lookup_key {k : κ} {xs : List α} {x : α} (h : lookup key k xs = some x) : key x = k := by
  have := List.find?_some h
  simpa using this

/-- Nothing is found exactly if no element has the key. -/
theorem lookup_eq_none_iff {k : κ} {xs : List α} :
    lookup key k xs = none ↔ ∀ x ∈ xs, key x ≠ k := by
  unfold lookup
  rw [List.find?_eq_none]
  simp

/-- In a run the lookup finds every entry: keys do not repeat. -/
theorem lookup_eq_some_iff {k : κ} {xs : List α} {x : α} (hs : SortedBy key xs) :
    lookup key k xs = some x ↔ x ∈ xs ∧ key x = k := by
  constructor
  · intro h
    exact ⟨lookup_mem h, lookup_key h⟩
  · rintro ⟨hx, rfl⟩
    induction xs with
    | nil => simp at hx
    | cons y ys ih =>
      rw [SortedBy, List.pairwise_cons] at hs
      rw [lookup_cons]
      rcases List.mem_cons.mp hx with rfl | hx
      · simp
      · rw [if_neg (hs.1 x hx).ne]
        exact ih hs.2 hx

/-- The keys of a sorted list are all different. -/
theorem SortedBy.nodup_keys {xs : List α} (hs : SortedBy key xs) : (xs.map key).Nodup := by
  rw [List.Nodup, List.pairwise_map]
  exact hs.imp fun h => h.ne

/-- A run whose keys all lie in `ks` is no longer than `ks`. -/
theorem SortedBy.length_le {xs : List α} {ks : List κ} (hs : SortedBy key xs)
    (h : ∀ x ∈ xs, key x ∈ ks) : xs.length ≤ ks.length := by
  have hsub : xs.map key ⊆ ks := by
    intro k hk
    obtain ⟨x, hx, rfl⟩ := List.mem_map.mp hk
    exact h x hx
  simpa using (hs.nodup_keys.subperm hsub).length_le

/-! ## Merging two runs -/

variable (key stamp)

/-- Of two versions, the one with the larger stamp; the second when the stamps are equal. -/
def newer (x y : α) : α := if stamp x ≤ stamp y then y else x

/-- What a merge does to the entries of one key in its two arguments. -/
def pick : Option α → Option α → Option α
  | none, b => b
  | some x, none => some x
  | some x, some y => some (newer stamp x y)

/-- The union of two runs; a key of both keeps its newer version. -/
def mergeBy : List α → List α → List α
  | [], ys => ys
  | x :: xs, [] => x :: xs
  | x :: xs, y :: ys =>
    if key y < key x then y :: mergeBy (x :: xs) ys
    else if key x < key y then x :: mergeBy xs (y :: ys)
    else newer stamp x y :: mergeBy xs ys
termination_by xs ys => xs.length + ys.length

variable {key stamp}

/-- Merging nothing into a list. -/
@[simp] theorem mergeBy_nil_left (ys : List α) : mergeBy key stamp [] ys = ys := by
  rw [mergeBy]

/-- Merging a list into nothing. -/
@[simp] theorem mergeBy_nil_right (xs : List α) : mergeBy key stamp xs [] = xs := by
  cases xs <;> rw [mergeBy]

variable (stamp) in
/-- The newer of two is one of them. -/
theorem newer_eq_or (x y : α) : newer stamp x y = x ∨ newer stamp x y = y := by
  unfold newer
  split <;> simp

/-- The newer of two is not older than the first. -/
theorem stamp_le_newer_left (x y : α) : stamp x ≤ stamp (newer stamp x y) := by
  unfold newer
  split
  · assumption
  · exact le_rfl

/-- The newer of two is not older than the second. -/
theorem stamp_le_newer_right (x y : α) : stamp y ≤ stamp (newer stamp x y) := by
  unfold newer
  split
  · exact le_rfl
  · exact (not_le.mp ‹_›).le

/-- Where there is only the second, it is picked. -/
@[simp] theorem pick_none_left (b : Option α) : pick stamp none b = b := by cases b <;> rfl

/-- Where there is only the first, it is picked. -/
@[simp] theorem pick_none_right (a : Option α) : pick stamp a none = a := by cases a <;> rfl

/-- Of two, the newer is picked. -/
@[simp] theorem pick_some_some (x y : α) :
    pick stamp (some x) (some y) = some (newer stamp x y) := rfl

/-- `pick` invents nothing. -/
theorem pick_eq_some {a b : Option α} {z : α} (h : pick stamp a b = some z) :
    a = some z ∨ b = some z := by
  cases a with
  | none => exact Or.inr (by simpa using h)
  | some x =>
    cases b with
    | none => exact Or.inl (by simpa using h)
    | some y =>
      simp only [pick_some_some, Option.some.injEq] at h
      rcases newer_eq_or stamp x y with hz | hz
      · exact Or.inl (by rw [← h, hz])
      · exact Or.inr (by rw [← h, hz])

variable (stamp) in
/-- `pick` keeps a version at least as new as its first argument. -/
theorem exists_pick_left {a b : Option α} {x : α} (h : a = some x) :
    ∃ z, pick stamp a b = some z ∧ stamp x ≤ stamp z := by
  subst h
  cases b with
  | none => exact ⟨x, rfl, le_rfl⟩
  | some y => exact ⟨_, rfl, stamp_le_newer_left x y⟩

variable (stamp) in
/-- `pick` keeps a version at least as new as its second argument. -/
theorem exists_pick_right {a b : Option α} {y : α} (h : b = some y) :
    ∃ z, pick stamp a b = some z ∧ stamp y ≤ stamp z := by
  subst h
  cases a with
  | none => exact ⟨y, rfl, le_rfl⟩
  | some x => exact ⟨_, rfl, stamp_le_newer_right x y⟩

omit [LinearOrder κ] in
/-- Both versions have the key of their merge. -/
theorem key_newer {x y : α} (h : key x = key y) : key (newer stamp x y) = key x := by
  rcases newer_eq_or stamp x y with hz | hz <;> rw [hz]
  exact h.symm

/-- A merge adds nothing of its own. -/
theorem mem_mergeBy {xs ys : List α} {z : α} (h : z ∈ mergeBy key stamp xs ys) :
    z ∈ xs ∨ z ∈ ys := by
  fun_induction mergeBy key stamp xs ys with
  | case1 ys => exact Or.inr h
  | case2 x xs => exact Or.inl h
  | case3 x xs y ys hlt ih =>
    rcases List.mem_cons.mp h with rfl | h
    · simp
    · rcases ih h with h | h <;> simp [h]
  | case4 x xs y ys _ hlt ih =>
    rcases List.mem_cons.mp h with rfl | h
    · simp
    · rcases ih h with h | h
      · simp [h]
      · exact Or.inr h
  | case5 x xs y ys _ _ ih =>
    rcases List.mem_cons.mp h with rfl | h
    · rcases newer_eq_or stamp x y with hz | hz <;> simp [hz]
    · rcases ih h with h | h <;> simp [h]

/-- A merge with something is not empty. -/
theorem mergeBy_ne_nil {xs : List α} (ys : List α) (h : xs ≠ []) :
    mergeBy key stamp xs ys ≠ [] := by
  fun_cases mergeBy key stamp xs ys <;> simp_all

/-- A merge is no longer than both lists together. -/
theorem length_mergeBy_le (xs ys : List α) :
    (mergeBy key stamp xs ys).length ≤ xs.length + ys.length := by
  fun_induction mergeBy key stamp xs ys with
  | case1 ys => simp
  | case2 x xs => simp
  | case3 x xs y ys _ ih => simp only [List.length_cons] at ih ⊢; omega
  | case4 x xs y ys _ _ ih => simp only [List.length_cons] at ih ⊢; omega
  | case5 x xs y ys _ _ ih => simp only [List.length_cons] at ih ⊢; omega

/-- **The merge of two runs is a run.** -/
theorem SortedBy.mergeBy {xs ys : List α} (hx : SortedBy key xs) (hy : SortedBy key ys) :
    SortedBy key (mergeBy key stamp xs ys) := by
  fun_induction Library.mergeBy key stamp xs ys with
  | case1 ys => exact hy
  | case2 x xs => exact hx
  | case3 x xs y ys hlt ih =>
    have hy' := List.pairwise_cons.mp hy
    refine List.pairwise_cons.mpr ⟨fun z hz => ?_, ih hx hy'.2⟩
    rcases mem_mergeBy hz with hz | hz
    · rcases List.mem_cons.mp hz with rfl | hz
      · exact hlt
      · exact hlt.trans ((List.pairwise_cons.mp hx).1 z hz)
    · exact hy'.1 z hz
  | case4 x xs y ys _ hlt ih =>
    have hx' := List.pairwise_cons.mp hx
    refine List.pairwise_cons.mpr ⟨fun z hz => ?_, ih hx'.2 hy⟩
    rcases mem_mergeBy hz with hz | hz
    · exact hx'.1 z hz
    · rcases List.mem_cons.mp hz with rfl | hz
      · exact hlt
      · exact hlt.trans ((List.pairwise_cons.mp hy).1 z hz)
  | case5 x xs y ys hyx hxy ih =>
    have hx' := List.pairwise_cons.mp hx
    have hy' := List.pairwise_cons.mp hy
    have hk : key x = key y := le_antisymm (not_lt.mp hyx) (not_lt.mp hxy)
    refine List.pairwise_cons.mpr ⟨fun z hz => ?_, ih hx'.2 hy'.2⟩
    rw [key_newer hk]
    rcases mem_mergeBy hz with hz | hz
    · exact hx'.1 z hz
    · exact hk ▸ hy'.1 z hz

/-- **The merge, key by key**: looking up in the merge is picking from the two lookups. -/
theorem lookup_mergeBy {xs ys : List α} (hx : SortedBy key xs) (hy : SortedBy key ys) (k : κ) :
    lookup key k (mergeBy key stamp xs ys) = pick stamp (lookup key k xs) (lookup key k ys) := by
  -- a key below the head of a run is not in the run
  have absent : ∀ (z : α) (zs : List α), SortedBy key (z :: zs) → k < key z →
      lookup key k (z :: zs) = none := by
    intro z zs hz hlt
    rw [lookup_eq_none_iff]
    intro w hw
    rcases List.mem_cons.mp hw with rfl | hw
    · exact hlt.ne'
    · exact (hlt.trans ((List.pairwise_cons.mp hz).1 w hw)).ne'
  fun_induction Library.mergeBy key stamp xs ys with
  | case1 ys => simp
  | case2 x xs => simp
  | case3 x xs y ys hlt ih =>
    rw [lookup_cons k y, lookup_cons k y, ih hx (List.pairwise_cons.mp hy).2]
    by_cases hk : key y = k
    · rw [if_pos hk, if_pos hk, absent x xs hx (hk ▸ hlt), pick_none_left]
    · rw [if_neg hk, if_neg hk]
  | case4 x xs y ys _ hlt ih =>
    rw [lookup_cons k x, lookup_cons k x, ih (List.pairwise_cons.mp hx).2 hy]
    by_cases hk : key x = k
    · rw [if_pos hk, if_pos hk, absent y ys hy (hk ▸ hlt), pick_none_right]
    · rw [if_neg hk, if_neg hk]
  | case5 x xs y ys hyx hxy ih =>
    have hk : key x = key y := le_antisymm (not_lt.mp hyx) (not_lt.mp hxy)
    rw [lookup_cons, lookup_cons, lookup_cons,
      ih (List.pairwise_cons.mp hx).2 (List.pairwise_cons.mp hy).2, key_newer hk, ← hk]
    by_cases h : key x = k
    · rw [if_pos h, if_pos h, if_pos h, pick_some_some]
    · rw [if_neg h, if_neg h, if_neg h]

/-- Merging puts its entries out one at a time, in key order: the three ways to start. -/
theorem mergeBy_cons_cons (x y : α) (xs ys : List α) :
    mergeBy key stamp (x :: xs) (y :: ys) =
      if key y < key x then y :: mergeBy key stamp (x :: xs) ys
      else if key x < key y then x :: mergeBy key stamp xs (y :: ys)
      else newer stamp x y :: mergeBy key stamp xs ys := by
  rw [mergeBy]

/-! ## Cutting a run into blocks -/

/-- The list is cut into non-empty blocks of at most `n` entries, all but the last of exactly
`n` entries. -/
structure FullCut (n : ℕ) (bs : List (List α)) : Prop where
  size : ∀ b ∈ bs, 0 < b.length ∧ b.length ≤ n
  full : ∀ b ∈ bs.dropLast, b.length = n

namespace FullCut

/-- No blocks at all are a full cut. -/
theorem nil (n : ℕ) : FullCut n ([] : List (List α)) := ⟨by simp, by simp⟩

/-- The initial part of a sublist lies in the initial part of the list. -/
theorem dropLast_subset {β : Type} {cs bs : List β} (hs : cs.Sublist bs) :
    cs.dropLast ⊆ bs.dropLast := by
  rcases List.eq_nil_or_concat' cs with rfl | ⟨init, last, rfl⟩
  · simp
  · obtain ⟨r₁, r₂, rfl, h₁, h₂⟩ := List.append_sublist_iff.mp hs
    have hne : r₂ ≠ [] := by
      rintro rfl
      simp at h₂
    intro c hc
    rw [List.dropLast_append_of_ne_nil hne]
    exact List.mem_append_left _ (h₁.subset (by simpa using hc))

/-- Full blocks followed by one more block form a full cut. -/
theorem concat {n : ℕ} {bs : List (List α)} {b : List α} (hbs : ∀ c ∈ bs, c.length = n)
    (h0 : 0 < b.length) (hb : b.length ≤ n) : FullCut n (bs ++ [b]) := by
  refine ⟨fun c hc => ?_, by simpa using hbs⟩
  rcases List.mem_append.mp hc with hc | hc
  · have := hbs c hc
    omega
  · rw [List.mem_singleton.mp hc]
    exact ⟨h0, hb⟩

/-- Full blocks alone form a full cut. -/
theorem of_full {n : ℕ} {bs : List (List α)} (hn : 0 < n) (hbs : ∀ c ∈ bs, c.length = n) :
    FullCut n bs :=
  ⟨fun c hc => by have := hbs c hc; omega, fun c hc => hbs c (List.mem_of_mem_dropLast hc)⟩

/-- Dropping blocks from a full cut leaves a full cut. -/
theorem sublist {n : ℕ} {bs cs : List (List α)} (h : FullCut n bs) (hs : cs.Sublist bs) :
    FullCut n cs :=
  ⟨fun c hc => h.size c (hs.subset hc), fun c hc => h.full c (dropLast_subset hs hc)⟩

/-- The entries of a full cut fill all its blocks but the last. -/
theorem length_flatten_gt {n : ℕ} {bs : List (List α)} (h : FullCut n bs) (hne : bs ≠ []) :
    (bs.length - 1) * n < bs.flatten.length := by
  obtain ⟨init, last, rfl⟩ := List.eq_nil_or_concat' bs |>.resolve_left hne
  have hinit : init.flatten.length = init.length * n := by
    rw [List.length_flatten,
      List.map_eq_replicate_iff.mpr (fun c hc => h.full c (by simpa using hc))]
    simp
  have hlast := (h.size last (by simp)).1
  simp only [List.length_append, List.flatten_append, List.length_singleton, List.flatten_cons,
    List.flatten_nil, List.append_nil, hinit]
  simpa using hlast

/-- A full cut of at most `m * n` entries has at most `m` blocks. -/
theorem length_le {n m : ℕ} {bs : List (List α)} (h : FullCut n bs)
    (hm : bs.flatten.length ≤ m * n) : bs.length ≤ m := by
  by_cases hne : bs = []
  · simp [hne]
  · have hlt := h.length_flatten_gt hne
    have hmul : (bs.length - 1) * n < m * n := hlt.trans_le hm
    have := Nat.lt_of_mul_lt_mul_right hmul
    omega

end FullCut

/-- Cut a list into blocks of `n` entries, the last one possibly shorter; `fuel` bounds the number
of blocks. -/
def cutInto (n : ℕ) : ℕ → List α → List (List α)
  | 0, _ => []
  | _ + 1, [] => []
  | fuel + 1, x :: xs => (x :: xs).take n :: cutInto n fuel ((x :: xs).drop n)

/-- **There is one way to cut a list into full blocks.** -/
theorem FullCut.eq_cutInto {n fuel : ℕ} {bs : List (List α)} (h : FullCut n bs)
    (hfuel : bs.length ≤ fuel) : cutInto n fuel bs.flatten = bs := by
  induction bs generalizing fuel with
  | nil => cases fuel <;> rfl
  | cons b bs ih =>
    obtain ⟨fuel, rfl⟩ : ∃ m, fuel = m + 1 := ⟨fuel - 1, by simp at hfuel; omega⟩
    have hb := h.size b (by simp)
    obtain ⟨x, xs, rfl⟩ := List.exists_cons_of_length_pos hb.1
    have htail := ih (h.sublist (List.sublist_cons_self _ bs)) (Nat.le_of_succ_le_succ hfuel)
    by_cases hbs : bs = []
    · -- the last block may be short
      rw [hbs] at htail ⊢
      rw [List.flatten_cons, List.flatten_nil, List.append_nil, cutInto,
        List.take_of_length_le hb.2, List.drop_eq_nil_of_le hb.2]
      exact congrArg _ htail
    · have hfull : (x :: xs).length = n := h.full _ (by simp [List.dropLast_cons_of_ne_nil hbs])
      rw [List.flatten_cons, List.cons_append, cutInto, ← List.cons_append,
        List.take_left' hfull, List.drop_left' hfull, htail]

end Capsule.Library
