import Capsule.Library.SortedRun

/-!
# Ordered maps

A map from linearly ordered keys, kept as the list of its entries in key order, the way an
ordered map of a standard library presents itself to an iterator.  The order is part of the
type, so every value of `SortedMap` is a map: no key occurs twice, and walking the entries
visits the keys in increasing order.
-/

set_option autoImplicit false

namespace Capsule.Library

/-- A finite map as the list of its entries in strictly increasing key order. -/
structure SortedMap (κ α : Type) [LinearOrder κ] where
  entries : List (κ × α)
  sorted : SortedBy Prod.fst entries

namespace SortedMap

variable {κ α : Type} [LinearOrder κ]

/-- The map without entries. -/
def empty : SortedMap κ α := ⟨[], List.Pairwise.nil⟩

/-- The number of entries. -/
def size (m : SortedMap κ α) : ℕ := m.entries.length

/-- The value stored under a key. -/
def find? (m : SortedMap κ α) (k : κ) : Option α := (lookup Prod.fst k m.entries).map Prod.snd

/-- The values in key order. -/
def values (m : SortedMap κ α) : List α := m.entries.map Prod.snd

/-- Put an entry in its place in the ordered list, replacing the one with its key. -/
def insertEntry (k : κ) (v : α) : List (κ × α) → List (κ × α)
  | [] => [(k, v)]
  | e :: es =>
    if k < e.1 then (k, v) :: e :: es
    else if e.1 < k then e :: insertEntry k v es
    else (k, v) :: es

/-- After an insertion there is the new entry and old ones. -/
theorem mem_insertEntry {k : κ} {v : α} {es : List (κ × α)} {e : κ × α}
    (h : e ∈ insertEntry k v es) : e = (k, v) ∨ e ∈ es := by
  induction es with
  | nil => exact Or.inl (by simpa [insertEntry] using h)
  | cons d es ih =>
    rw [insertEntry] at h
    split at h
    · exact List.mem_cons.mp h
    · split at h
      · rcases List.mem_cons.mp h with rfl | h
        · exact Or.inr List.mem_cons_self
        · exact (ih h).imp_right (List.mem_cons_of_mem d)
      · exact (List.mem_cons.mp h).imp_right (List.mem_cons_of_mem d)

/-- An insertion keeps the entries sorted. -/
theorem sorted_insertEntry {k : κ} {v : α} {es : List (κ × α)} (hs : SortedBy Prod.fst es) :
    SortedBy Prod.fst (insertEntry k v es) := by
  induction es with
  | nil => exact List.pairwise_singleton _ _
  | cons d es ih =>
    have hd := List.pairwise_cons.mp hs
    rw [insertEntry]
    split
    · refine List.pairwise_cons.mpr ⟨fun e he => ?_, hs⟩
      rcases List.mem_cons.mp he with rfl | he
      · assumption
      · exact lt_trans ‹k < d.1› (hd.1 e he)
    · split
      · refine List.pairwise_cons.mpr ⟨fun e he => ?_, ih hd.2⟩
        rcases mem_insertEntry he with rfl | he
        · assumption
        · exact hd.1 e he
      · have hk : k = d.1 := le_antisymm (not_lt.mp ‹¬ d.1 < k›) (not_lt.mp ‹¬ k < d.1›)
        exact List.pairwise_cons.mpr ⟨fun e he => hk ▸ hd.1 e he, hd.2⟩

/-- The map with `v` stored under `k`. -/
def insert (m : SortedMap κ α) (k : κ) (v : α) : SortedMap κ α :=
  ⟨insertEntry k v m.entries, sorted_insertEntry m.sorted⟩

/-- The empty map has no key. -/
@[simp] theorem find?_empty (k : κ) : (empty : SortedMap κ α).find? k = none := rfl

/-- The empty map has no entry. -/
@[simp] theorem size_empty : (empty : SortedMap κ α).size = 0 := rfl

/-- A lookup after an insertion: by induction on the entries. -/
theorem lookup_insertEntry (k : κ) (v : α) {es : List (κ × α)} (hs : SortedBy Prod.fst es)
    (j : κ) : lookup Prod.fst j (insertEntry k v es) =
      if j = k then some (k, v) else lookup Prod.fst j es := by
  induction es with
  | nil =>
    rw [insertEntry, lookup_cons]
    by_cases h : j = k
    · simp [h]
    · rw [if_neg (Ne.symm h), if_neg h]
  | cons d es ih =>
    have hd := List.pairwise_cons.mp hs
    rw [insertEntry]
    split
    · rw [lookup_cons]
      by_cases h : j = k
      · simp [h]
      · rw [if_neg (Ne.symm h), if_neg h]
    · split
      · rw [lookup_cons, lookup_cons, ih hd.2]
        by_cases h : d.1 = j
        · rw [if_pos h, if_pos h, if_neg (h ▸ ne_of_lt ‹d.1 < k›)]
        · rw [if_neg h, if_neg h]
      · have hk : k = d.1 := le_antisymm (not_lt.mp ‹¬ d.1 < k›) (not_lt.mp ‹¬ k < d.1›)
        rw [lookup_cons, lookup_cons]
        by_cases h : j = k
        · simp [h]
        · rw [if_neg (Ne.symm h), if_neg h, if_neg (hk ▸ Ne.symm h)]

/-- **Reading after writing**: the written key has the written value, other keys are as before. -/
theorem find?_insert (m : SortedMap κ α) (k : κ) (v : α) (j : κ) :
    (m.insert k v).find? j = if j = k then some v else m.find? j := by
  unfold find? insert
  rw [lookup_insertEntry k v m.sorted j]
  split <;> simp

/-- The entries are what lookups find. -/
theorem mem_entries_iff {m : SortedMap κ α} {k : κ} {v : α} :
    (k, v) ∈ m.entries ↔ m.find? k = some v := by
  unfold find?
  constructor
  · intro h
    rw [(lookup_eq_some_iff m.sorted).mpr ⟨h, rfl⟩]
    rfl
  · intro h
    obtain ⟨⟨k', v'⟩, he, rfl⟩ := Option.map_eq_some_iff.mp h
    have hk := lookup_key he
    exact hk ▸ lookup_mem he

/-- An insertion adds one entry at most. -/
theorem length_insertEntry {k : κ} {v : α} {es : List (κ × α)} :
    (insertEntry k v es).length ≤ es.length + 1 := by
  induction es with
  | nil => simp [insertEntry]
  | cons d es ih =>
    rw [insertEntry]
    split
    · simp
    · split
      · simpa using ih
      · simp

/-- Overwriting a key keeps the size. -/
theorem size_insert_of_some {m : SortedMap κ α} {k : κ} {v w : α} (h : m.find? k = some w) :
    (m.insert k v).size = m.size := by
  have hmem : ∃ e ∈ m.entries, e.1 = k := ⟨(k, w), mem_entries_iff.mpr h, rfl⟩
  have hsorted := m.sorted
  unfold size insert
  dsimp only
  generalize m.entries = es at hmem hsorted
  clear h
  induction es with
  | nil => simp at hmem
  | cons d es ih =>
    have hd := List.pairwise_cons.mp hsorted
    obtain ⟨e, he, hek⟩ := hmem
    rw [insertEntry]
    rcases List.mem_cons.mp he with rfl | he
    · rw [if_neg (hek ▸ lt_irrefl _), if_neg (hek ▸ lt_irrefl _)]
      rfl
    · have hlt : d.1 < k := hek ▸ hd.1 e he
      rw [if_neg hlt.asymm, if_pos hlt, List.length_cons, List.length_cons, ih ⟨e, he, hek⟩ hd.2]

/-- A map of size zero has no entry. -/
theorem find?_of_size_zero {m : SortedMap κ α} (h : m.size = 0) (k : κ) : m.find? k = none := by
  have hnil : m.entries = [] := List.eq_nil_of_length_eq_zero h
  cases hv : m.find? k with
  | none => rfl
  | some v =>
    have hmem := mem_entries_iff.mpr hv
    rw [hnil] at hmem
    cases hmem

/-- A new key is one more entry. -/
theorem size_insert_of_none {m : SortedMap κ α} {k : κ} {v : α} (h : m.find? k = none) :
    (m.insert k v).size = m.size + 1 := by
  have hnone : ∀ e ∈ m.entries, e.1 ≠ k := by
    rintro ⟨k', v'⟩ he rfl
    rw [mem_entries_iff.mp he] at h
    cases h
  unfold size insert
  dsimp only
  generalize m.entries = es at hnone
  induction es with
  | nil => rfl
  | cons d es ih =>
    have hd := hnone d List.mem_cons_self
    rw [insertEntry]
    split
    · rfl
    · split
      · rw [List.length_cons, List.length_cons, ih fun e he => hnone e (List.mem_cons_of_mem d he)]
      · exact absurd (le_antisymm (not_lt.mp ‹¬ k < d.1›) (not_lt.mp ‹¬ d.1 < k›)) hd

/-- An insertion makes a map larger by one at most. -/
theorem size_insert_le (m : SortedMap κ α) (k : κ) (v : α) :
    (m.insert k v).size ≤ m.size + 1 := length_insertEntry

/-! ## Changing the values -/

variable {β : Type}

/-- The map with `g` applied to every value. -/
def mapValues (g : α → β) (m : SortedMap κ α) : SortedMap κ β :=
  ⟨m.entries.map fun e => (e.1, g e.2), by
    rw [SortedBy, List.pairwise_map]
    exact m.sorted⟩

/-- The empty map has no value to change. -/
@[simp] theorem mapValues_empty (g : α → β) : (empty : SortedMap κ α).mapValues g = empty := rfl

/-- Changing no value changes nothing. -/
@[simp] theorem mapValues_id (m : SortedMap κ α) : m.mapValues id = m := by
  cases m
  simp [mapValues]

/-- The entries keep their keys when the values are changed. -/
@[simp] theorem entries_mapValues (g : α → β) (m : SortedMap κ α) :
    (m.mapValues g).entries = m.entries.map fun e => (e.1, g e.2) := rfl

/-- Changing the values keeps the size. -/
@[simp] theorem size_mapValues (g : α → β) (m : SortedMap κ α) : (m.mapValues g).size = m.size := by
  simp [size]

/-- A lookup finds the changed value. -/
@[simp] theorem find?_mapValues (g : α → β) (m : SortedMap κ α) (k : κ) :
    (m.mapValues g).find? k = (m.find? k).map g := by
  unfold find? lookup
  rw [entries_mapValues, List.find?_map, Option.map_map, Option.map_map]
  rfl

/-- Changing the values of a map with one more entry. -/
theorem mapValues_insert (g : α → β) (m : SortedMap κ α) (k : κ) (v : α) :
    (m.insert k v).mapValues g = (m.mapValues g).insert k (g v) := by
  have hentries : (insertEntry k v m.entries).map (fun e => (e.1, g e.2)) =
      insertEntry k (g v) (m.entries.map fun e => (e.1, g e.2)) := by
    induction m.entries with
    | nil => rfl
    | cons e es ih =>
      simp only [insertEntry, List.map_cons]
      split_ifs <;> simp [ih]
  unfold insert mapValues
  simp only [hentries]

end SortedMap

end Capsule.Library
