import Capsule.Interface.TopInvariant
import Capsule.Library.ColumnSteps
import Capsule.Program.Engine

/-!
# The invariant of the engine

`Inv` holds of every state the engine can reach, also after puts that failed.  It connects the
memory table with the index: the table is filed under its own keys, has a lock for each of them
and at most `max_size` entries, and L0 and the levels below are in order.

`column w k` is what the state `w` holds for the key `k`, place by place.  It carries the model
over to the columns of the library, where the order of versions is studied.
-/

set_option autoImplicit false

namespace Capsule.Interface

open Library Program

variable {S : BlockStore} {B : ℕ} {w : World S}

/-! ## The memory table -/

/-- Every payload is filed under its own key. -/
def Keyed (m : SortedMap Str KvsPayload) : Prop := ∀ e ∈ m.entries, e.2.key = e.1

/-- The payloads of the memory table, by key, have increasing keys. -/
theorem sortedRun_values {m : SortedMap Str KvsPayload} (hm : Keyed m) : SortedRun m.values := by
  unfold SortedRun SortedBy SortedMap.values
  rw [List.pairwise_map]
  refine m.sorted.imp_of_mem fun ha hb hlt => ?_
  rw [hm _ ha, hm _ hb]
  exact hlt

/-- Looking up a key among the payloads is looking it up in the memory table. -/
theorem find_values {m : SortedMap Str KvsPayload} (hm : Keyed m) (k : Str) :
    find k m.values = m.find? k := by
  unfold find lookup SortedMap.find? SortedMap.values lookup
  rw [List.find?_map]
  congr 1
  apply List.find?_congr
  intro e he
  simp [hm e he]

/-- The memory table has as many payloads as keys. -/
theorem length_values (m : SortedMap Str KvsPayload) : m.values.length = m.size := by
  simp [SortedMap.values, SortedMap.size]

/-- The key of a payload of the memory table is in the memory table. -/
theorem isSome_of_mem_values {m : SortedMap Str KvsPayload} (hm : Keyed m) {p : KvsPayload}
    (hp : p ∈ m.values) : (m.find? p.key).isSome := by
  obtain ⟨e, he, rfl⟩ := List.mem_map.mp hp
  rw [SortedMap.mem_entries_iff.mp (show (e.2.key, e.2) ∈ m.entries by rw [hm e he]; exact he)]
  rfl

/-- An empty memory table holds every payload under its key. -/
theorem Keyed.empty : Keyed SortedMap.empty := fun e he => absurd he (by simp [SortedMap.empty])

/-- Storing a payload under its key keeps the memory table keyed. -/
theorem Keyed.insert {m : SortedMap Str KvsPayload} (hm : Keyed m) (p : KvsPayload) :
    Keyed (m.insert p.key p) := by
  intro e he
  rcases SortedMap.mem_insertEntry he with rfl | he
  · rfl
  · exact hm e he

/-! ## The whole engine -/

/-- The part of the state that the index works on. -/
def indexState (w : World S) : IndexState S := ⟨w.index, w.disk⟩

/-- The invariant of the engine: the memory table is not over capacity, files its payloads under
their own keys and has a lock for each key it holds; the levels are in order. -/
structure Inv (S : BlockStore) (B : ℕ) (w : World S) : Prop where
  max_size_eq : w.memtable.max_size = B
  keyed : Keyed w.memtable.memtable
  locks : ∀ k, w.memtable.locklst.find? k = none ↔ w.memtable.memtable.find? k = none
  size_le : w.memtable.memtable.size ≤ B
  indexOk : IndexOk S B (indexState w)
  top : ∃ l, w.index.levels[0]? = some l ∧ TopOk S w.disk B w.memtable.memtable l

/-- The versions of the key `k` that a state of the index holds, beside the one of the memory
table. -/
def columnOf (mem : Option KvsPayload) (s : IndexState S) (k : Str) : Column KvsPayload where
  mem := mem
  l0 := (headersAt s 0).map fun h => find k (contents S s.disk h)
  lv i := find k (levelRun s (1 + i))

/-- The versions of the key `k` that the state holds, place by place. -/
def column (w : World S) (k : Str) : Column KvsPayload :=
  columnOf (w.memtable.memtable.find? k) (indexState w) k

/-- A new engine satisfies the invariant. -/
theorem Inv.spawnDB (hB : 2 * B < 2 ^ 31) (d : S.Disk) : Inv S B (spawnDB B d : World S) := by
  have hmax : toInt (2 * (B : Int)) = (2 * B : ℕ) := by
    have := toInt_of_lt hB
    exact_mod_cast this
  refine ⟨rfl, Keyed.empty, fun k => ⟨fun _ => rfl, fun _ => rfl⟩, Nat.zero_le B,
    ⟨rfl, rfl, Nat.one_pos, ?_⟩, Level.new 0 (toInt (2 * (B : Int))), rfl, ?_⟩
  · intro i l hi hl
    have hlt := (List.getElem?_eq_some_iff.mp hl).1
    simp only [indexState, Program.spawnDB, CapsuleIndex.new, List.length_singleton] at hlt
    omega
  · rw [hmax]
    refine ⟨rfl, rfl, rfl, hB, ?_, ?_, ?_, ?_, fun _ => rfl, ?_, ?_, ?_, ?_⟩ <;>
      simp [Level.new, HeadersOk]

end Capsule.Interface
