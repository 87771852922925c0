import Capsule.Program.Block

/-!
# The interface to the block store

The engine knows the store only through `writeOut` and `readIn`, which forward to
`putCapsuleBlock` and `getCapsuleBlock`.  `BlockStore` is that interface with the one thing the
engine relies on: a block whose write returned reads back under the returned hash, with the
level and the key-value pairs that were written, for as long as the process runs.  Both
operations may throw at any time; a throw changes nothing that was stored.

`stored d h` is what the file named `h` decodes to when the disk is `d`.
-/

set_option autoImplicit false

namespace Capsule.Program

open Library

/-- Whatever is stored stays stored. -/
def Keeps {Disk : Type} (stored : Disk → Str → Option CapsuleBlock) (d d' : Disk) : Prop :=
  ∀ h b, stored d h = some b → stored d' h = some b

/-- A store of blocks that are named by their hash. -/
structure BlockStore where
  /-- the state of the disk -/
  Disk : Type
  /-- write a block, return its hash -/
  putCapsuleBlock : CapsuleBlock → EStateM Fault Disk Str
  /-- read the block of a hash -/
  getCapsuleBlock : Str → EStateM Fault Disk CapsuleBlock
  /-- the content of the file of a hash -/
  stored : Disk → Str → Option CapsuleBlock
  /-- a written block can be found under its hash, which is not the empty string, and nothing
  else is disturbed -/
  put_spec : ∀ b d, Outcome
    (fun h d' => h ≠ [] ∧ Keeps stored d d' ∧
      ∃ b', stored d' h = some b' ∧ b'.level = b.level ∧ b'.kvPairs = b.kvPairs)
    (fun e d' => e = .io ∧ Keeps stored d d') (putCapsuleBlock b d)
  /-- a stored block is what a read returns -/
  get_spec : ∀ h d, Outcome
    (fun b d' => Keeps stored d d' ∧ ∀ b₀, stored d h = some b₀ → b = b₀)
    (fun e d' => e = .io ∧ Keeps stored d d') (getCapsuleBlock h d)

variable {S : BlockStore}

/-- Computations that use the disk only. -/
abbrev DiskM (S : BlockStore) := EStateM Fault S.Disk

/-- SOURCE: src/core/capsuleBlock.cc:90-94 -/
def writeOut (b : CapsuleBlock) : DiskM S Str := S.putCapsuleBlock b

/-- SOURCE: src/core/capsuleBlock.cc:102-106 -/
def readIn (transactionHash : Str) : DiskM S CapsuleBlock := S.getCapsuleBlock transactionHash

/-! ## A store in memory -/

/-- The log of all blocks written, each named by its position: a store that never fails. -/
def memoryStore : BlockStore where
  Disk := List CapsuleBlock
  putCapsuleBlock b := fun d => .ok (List.replicate (d.length + 1) 1) (d ++ [b])
  getCapsuleBlock h := fun d =>
    match d[h.length - 1]? with
    | some b => .ok b d
    | none => .error .io d
  stored d h := d[h.length - 1]?
  put_spec b d := by
    refine ⟨by simp, fun h b' hb => ?_, b, by simp, rfl, rfl⟩
    have hlt := (List.getElem?_eq_some_iff.mp hb).1
    exact (List.getElem?_append_left hlt).trans hb
  get_spec h d := by
    cases hd : d[h.length - 1]? with
    | some b =>
      simp only [outcome_ok]
      exact ⟨fun _ _ h => h, fun b₀ hb => by simpa using hb⟩
    | none =>
      simp only [outcome_error]
      exact ⟨trivial, fun _ _ h => h⟩

/-- The same log with a schedule of failures: every operation takes the next entry of the schedule
and throws if it is `true`. -/
def faultyStore : BlockStore where
  Disk := List CapsuleBlock × List Bool
  putCapsuleBlock b := fun d =>
    if d.2.head? = some true then .error .io (d.1, d.2.tail)
    else .ok (List.replicate (d.1.length + 1) 1) (d.1 ++ [b], d.2.tail)
  getCapsuleBlock h := fun d =>
    if d.2.head? = some true then .error .io (d.1, d.2.tail)
    else
      match d.1[h.length - 1]? with
      | some b => .ok b (d.1, d.2.tail)
      | none => .error .io (d.1, d.2.tail)
  stored d h := d.1[h.length - 1]?
  put_spec b d := by
    by_cases hf : d.2.head? = some true
    · rw [if_pos hf]
      exact ⟨rfl, fun _ _ h => h⟩
    · rw [if_neg hf]
      refine ⟨by simp, fun h b' hb => ?_, b, by simp, rfl, rfl⟩
      have hlt := (List.getElem?_eq_some_iff.mp hb).1
      exact (List.getElem?_append_left hlt).trans hb
  get_spec h d := by
    by_cases hf : d.2.head? = some true
    · rw [if_pos hf]
      exact ⟨rfl, fun _ _ h => h⟩
    · rw [if_neg hf]
      cases hd : d.1[h.length - 1]? with
      | some b =>
        simp only [outcome_ok]
        exact ⟨fun _ _ h => h, fun b₀ hb => by simpa using hb⟩
      | none =>
        simp only [outcome_error]
        exact ⟨trivial, fun _ _ h => h⟩

end Capsule.Program
