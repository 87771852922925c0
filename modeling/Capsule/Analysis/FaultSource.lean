import Capsule.Analysis.Depth
import Capsule.Analysis.FaultLaws
import Capsule.Library.Throws

/-!
# Where exceptions come from

The laws of puts and gets excuse a run that ends with `Fault.io`.  Here it is shown that nothing but
the block store ends a run so: whatever the state, an operation of the engine that ends with
`Fault.io` leaves the disk as an operation of the block store that threw has left it
(`put_from_store`, `get_from_store`, `merge_from_store`).

So on a block store that never throws, no put, get or merge ends so, from any state
(`Reliable.never_io`); a sequence of puts with few keys returns (`reliable_puts_return`), and so
does every get after it (`reliable_gets_return`).
-/

set_option autoImplicit false

namespace Capsule.Analysis

open Library Program Interface

variable {S : BlockStore} {B : ℕ}

/-! ## Exceptions of the store -/

/-- An operation of the store has thrown and left this disk. -/
def Threw (S : BlockStore) (d' : S.Disk) : Prop :=
  ∃ d, (∃ b, S.putCapsuleBlock b d = .error .io d') ∨ ∃ h, S.getCapsuleBlock h d = .error .io d'

/-- The exception is none of the store, or the store has thrown it. -/
def FromStore (S : BlockStore) (e : Fault) (d' : S.Disk) : Prop := e = .io → Threw S d'

/-- The exception is none of the store. -/
def NotIo (e : Fault) : Prop := e ≠ .io

instance decidableNotIo (e : Fault) : Decidable (NotIo e) := inferInstanceAs (Decidable (e ≠ .io))

/-- A pure computation that throws no exception of the store. -/
theorem lift_from_store {α : Type} {σ : Type} {f : σ → S.Disk} {x : Except Fault α}
    (h : Raises NotIo x) :
    Throws (fun e s => FromStore S e (f s)) (lift x : EStateM Fault σ α) :=
  Throws.lift fun e he _ hio => absurd hio (h e he)

/-- An exception that is none of the store. -/
theorem throw_from_store {α : Type} {σ : Type} {f : σ → S.Disk} {e : Fault} (h : NotIo e) :
    Throws (fun e s => FromStore S e (f s)) (throw e : EStateM Fault σ α) :=
  Throws.throw fun _ hio => absurd hio h

/-- A read of a block throws what the store throws. -/
theorem readIn_from_store (h : Str) : Throws (FromStore S) (readIn h : DiskM S CapsuleBlock) := by
  intro d
  unfold readIn
  cases hr : S.getCapsuleBlock h d with
  | ok b d' => exact trivial
  | error e d' =>
    rintro rfl
    exact ⟨d, Or.inr ⟨h, hr⟩⟩

/-- A write of a block throws what the store throws. -/
theorem writeOut_from_store (b : CapsuleBlock) :
    Throws (FromStore S) (writeOut b : DiskM S Str) := by
  intro d
  unfold writeOut
  cases hr : S.putCapsuleBlock b d with
  | ok h d' => exact trivial
  | error e d' =>
    rintro rfl
    exact ⟨d, Or.inl ⟨b, hr⟩⟩

/-! ## Merging -/

/-- A cursor that has left its block is no fault of the store. -/
theorem pair_notIo (c : Cursor) : Raises NotIo c.pair := by
  unfold Cursor.pair
  split
  · exact Raises.ok _
  · exact Raises.error (by decide)

/-- Choosing the next pair only looks at two cursors. -/
theorem nextKVPair_notIo (a b : List BlockHeader) (st : MergeState) :
    Raises NotIo (nextKVPair a b st) := by
  have hone : ∀ (c : Cursor) (x y : Bool), Raises NotIo (do
      let p ← c.pair
      pure (p, x, y)) := fun c x y => (pair_notIo c).bind fun _ => Raises.ok _
  unfold nextKVPair
  refine Raises.ite (hone _ _ _) (Raises.ite (hone _ _ _) ?_)
  refine (pair_notIo _).bind fun pairA => (pair_notIo _).bind fun pairB => ?_
  exact Raises.ite (Raises.ok _) (Raises.ite (Raises.ok _) (Raises.ite (Raises.ok _) (Raises.ok _)))

/-- Moving a cursor on throws what a read throws. -/
theorem advanceIf_from_store (flag : Bool) (blocks : List BlockHeader) (c : Cursor) :
    Throws (FromStore S) (c.advanceIf flag blocks : DiskM S Cursor) := by
  unfold Cursor.advanceIf Cursor.advance
  refine Throws.ite (Throws.ite ?_ (Throws.pure _)) (Throws.pure _)
  split
  · exact (readIn_from_store _).bind fun _ => Throws.pure _
  · exact Throws.pure _

/-- Finishing a block throws what a write throws. -/
theorem writeHeader_from_store (cb : CapsuleBlock) :
    Throws (FromStore S) (writeHeader cb : DiskM S BlockHeader) :=
  (writeOut_from_store cb).bind fun _ => Throws.pure _

/-- Taking a pair throws what a write throws. -/
theorem pushPair_from_store (blocksize : ℕ) (next_level : Int) (cb : CapsuleBlock)
    (output : List BlockHeader) (p : KvsPayload) :
    Throws (FromStore S) (pushPair blocksize next_level cb output p : DiskM S _) :=
  Throws.ite ((writeHeader_from_store _).bind fun _ => Throws.pure _) (Throws.pure _)

/-- A step of a merge reads and writes. -/
theorem mergeStep_from_store (blocksize : ℕ) (a b : List BlockHeader) (next_level : Int)
    (st : MergeState) :
    Throws (FromStore S) (mergeStep blocksize a b next_level st : DiskM S MergeState) := by
  unfold mergeStep
  refine (lift_from_store (f := id) (nextKVPair_notIo a b st)).bind fun next => ?_
  refine (advanceIf_from_store _ a _).bind fun _ => (advanceIf_from_store _ b _).bind fun _ => ?_
  exact (pushPair_from_store _ _ _ _ _).bind fun _ => Throws.pure _

/-- The loop of a merge throws what its steps throw: by induction on the fuel. -/
theorem mergeLoop_from_store (blocksize : ℕ) (a b : List BlockHeader) (next_level : Int) (n : ℕ)
    (st : MergeState) :
    Throws (FromStore S) (mergeLoop blocksize a b next_level n st : DiskM S MergeState) := by
  induction n generalizing st with
  | zero => exact Throws.ite (Throws.pure _) (throw_from_store (f := id) (by decide))
  | succ n ih =>
    exact Throws.ite (Throws.pure _) ((mergeStep_from_store _ a b _ st).bind fun st' => ih st')

/-- Opening a cursor throws what a read throws. -/
theorem openCursor_from_store (blocks : List BlockHeader) :
    Throws (FromStore S) (openCursor blocks : DiskM S Cursor) := by
  unfold openCursor
  split
  · exact Throws.pure _
  · exact (readIn_from_store _).bind fun _ => Throws.pure _

/-- **A merge** throws `Fault.io` only where the store has thrown it. -/
theorem merge_from_store (blocksize : ℕ) (a b : List BlockHeader) (next_level : Int) :
    Throws (FromStore S) (merge blocksize a b next_level : DiskM S (List BlockHeader)) := by
  unfold merge
  refine Throws.ite (throw_from_store (f := id) (by decide)) ?_
  refine (openCursor_from_store a).bind fun curA => (openCursor_from_store b).bind fun curB => ?_
  refine Throws.get.bind fun d => (mergeLoop_from_store _ a b _ _ _).bind fun st => ?_
  exact Throws.ite ((writeHeader_from_store _).bind fun _ => Throws.pure _) (Throws.pure _)

/-! ## The index -/

/-- The exception of a computation of the index, by the disk that it leaves. -/
abbrev IndexFault (S : BlockStore) (e : Fault) (s : IndexState S) : Prop := FromStore S e s.disk

/-- A computation on the disk throws the same in front of the index. -/
theorem onDisk_from_store {α : Type} {x : DiskM S α} (hx : Throws (FromStore S) x) :
    Throws (IndexFault S) (onDisk x) := hx.zoom fun _ _ => rfl

/-- A level that is not there is out of range. -/
theorem levelAt_from_store (i : ℕ) : Throws (IndexFault S) (levelAt i : IndexM S Level) := by
  unfold levelAt
  refine Throws.get.bind fun s => ?_
  split
  · exact Throws.pure _
  · exact throw_from_store (by decide)

/-- Storing a level throws nothing. -/
theorem setLevel_from_store (i : ℕ) (l : Level) :
    Throws (IndexFault S) (setLevel i l : IndexM S Unit) := Throws.modify _

/-- Adding a level fails at the capacity only. -/
theorem addLevelIf_from_store (needed : Prop) [Decidable needed] (a b : Int) :
    Throws (IndexFault S) (addLevelIf needed (mulInt a b) : IndexM S Unit) := by
  have hsize : Raises NotIo (mulInt a b) := Raises.ite (Raises.ok _) (Raises.error (by decide))
  exact Throws.ite ((lift_from_store hsize).bind fun n => Throws.modify _) (Throws.pure _)

/-- Choosing the blocks to hand down looks at headers only. -/
theorem selectBlocks_notIo (src dest : List BlockHeader) :
    Raises NotIo (selectBlocks src dest) := by
  unfold selectBlocks
  exact Raises.ite (Raises.ite (Raises.error (by decide)) (Raises.ok _)) (Raises.ok _)

/-- Merging into a level throws what the merge throws. -/
theorem mergeInto_from_store (src : List BlockHeader) (i : ℕ) :
    Throws (IndexFault S) (mergeInto src i : IndexM S Unit) := by
  unfold mergeInto
  refine Throws.get.bind fun s => (levelAt_from_store i).bind fun dest => ?_
  refine (onDisk_from_store (merge_from_store _ _ _ _)).bind fun out => ?_
  exact (levelAt_from_store i).bind fun _ => setLevel_from_store i _

/-- Handing down blocks throws what the recursive call throws. -/
theorem pushDown_from_store {compactBelow : List BlockHeader → ℕ → IndexM S Unit}
    (hbelow : ∀ src i, Throws (IndexFault S) (compactBelow src i))
    (src : List BlockHeader) (i : ℕ) :
    Throws (IndexFault S) (pushDown compactBelow src i) := by
  unfold pushDown
  refine (levelAt_from_store i).bind fun dest => Throws.get.bind fun s => ?_
  refine (addLevelIf_from_store _ _ _).bind fun _ => ?_
  refine (lift_from_store (selectBlocks_notIo _ _)).bind fun blocks => ?_
  refine (hbelow _ _).bind fun _ => ?_
  exact (levelAt_from_store i).bind fun _ => setLevel_from_store i _

/-- **The recursion over the levels**, by induction on the fuel. -/
theorem compactHelper_from_store (fuel : ℕ) (src : List BlockHeader) (i : ℕ) :
    Throws (IndexFault S) (compactHelper fuel src i : IndexM S Unit) := by
  induction fuel generalizing src i with
  | zero => exact throw_from_store (by decide)
  | succ fuel ih =>
    rw [compactHelper]
    refine Throws.get.bind fun s => (levelAt_from_store i).bind fun dest => ?_
    refine Throws.ite ?_ (mergeInto_from_store src i)
    exact (pushDown_from_store ih src i).bind fun _ => mergeInto_from_store src i

/-- Sorting the blocks of L0 reads and writes: by induction on the blocks left. -/
theorem sortBlocks_from_store (n i : ℕ) :
    Throws (IndexFault S) (sortBlocks n i : IndexM S Unit) := by
  induction n generalizing i with
  | zero => exact Throws.pure _
  | succ n ih =>
    rw [sortBlocks]
    refine (levelAt_from_store 0).bind fun lv0 => ?_
    split
    · exact throw_from_store (by decide)
    · refine (onDisk_from_store (readIn_from_store _)).bind fun block => ?_
      refine (onDisk_from_store (writeOut_from_store _)).bind fun hash => ?_
      exact (setLevel_from_store 0 _).bind fun _ => ih _

/-- The merges of L0 throw what a merge throws: by induction on the blocks left. -/
theorem mergeL0_from_store (blocksize : ℕ) (first rest : List BlockHeader) :
    Throws (FromStore S) (mergeL0 blocksize first rest : DiskM S (List BlockHeader)) := by
  induction rest generalizing first with
  | nil => exact Throws.pure _
  | cons h rest ih => exact (merge_from_store _ _ _ _).bind fun merged => ih merged

/-- **A compaction** throws `Fault.io` only where the store has thrown it. -/
theorem compact_from_store : Throws (IndexFault S) (compact : IndexM S Unit) := by
  unfold compact
  refine Throws.get.bind fun s => (levelAt_from_store 0).bind fun lv0 => ?_
  refine Throws.ite (Throws.pure _) ?_
  refine ((levelAt_from_store 0).bind fun l => sortBlocks_from_store _ 0).bind fun _ => ?_
  refine (levelAt_from_store 0).bind fun lv0 => ?_
  split
  · exact throw_from_store (by decide)
  · refine (onDisk_from_store (mergeL0_from_store _ _ _)).bind fun sorted => ?_
    refine Throws.get.bind fun s => (addLevelIf_from_store _ _ _).bind fun _ => ?_
    refine Throws.get.bind fun s => (compactHelper_from_store _ _ _).bind fun _ => ?_
    exact (levelAt_from_store 0).bind fun _ => setLevel_from_store 0 _

/-- Taking a new block throws what a compaction throws. -/
theorem addHash_from_store (level : ℕ) (hash : Str) (block : CapsuleBlock) :
    Throws (IndexFault S) (addHash level hash block : IndexM S Int) := by
  unfold addHash
  refine Throws.get.bind fun s => Throws.ite (Throws.pure _) ?_
  refine (levelAt_from_store level).bind fun l => (setLevel_from_store level _).bind fun _ => ?_
  exact compact_from_store.bind fun _ => Throws.pure _

/-! ## The engine -/

/-- The exception of a computation of the engine, by the disk that it leaves. -/
abbrev EngineFault (S : BlockStore) (e : Fault) (w : World S) : Prop := FromStore S e w.disk

/-- A computation on the index throws the same in front of the engine. -/
theorem onIndex_from_store {α : Type} {x : IndexM S α} (hx : Throws (IndexFault S) x) :
    Throws (EngineFault S) (onIndex x) := hx.zoom fun _ _ => rfl

/-- A flush writes a block and hands it to the index. -/
theorem writeOutIfFull_from_store : Throws (EngineFault S) (writeOutIfFull : EngineM S Unit) := by
  unfold writeOutIfFull
  refine Throws.get.bind fun w => Throws.ite ?_ (Throws.pure _)
  split
  · exact throw_from_store (by decide)
  · refine (onIndex_from_store (onDisk_from_store (writeOut_from_store _))).bind fun hash => ?_
    exact (onIndex_from_store (addHash_from_store _ _ _)).bind fun _ => Throws.modify _

/-- **A put** throws `Fault.io` only where the store has thrown it. -/
theorem put_from_store (p : KvsPayload) :
    Throws (EngineFault S) (CapsuleDB.put p : EngineM S Unit) := by
  suffices h : Throws (EngineFault S) (Memtable.put p : EngineM S Bool) from
    h.bind fun _ => Throws.pure _
  unfold Memtable.put
  refine Throws.get.bind fun w => ?_
  dsimp only
  split
  · split
    · exact throw_from_store (by decide)
    · exact Throws.ite (Throws.pure _) ((Throws.modify _).bind fun _ => Throws.pure _)
  · refine writeOutIfFull_from_store.bind fun _ => (Throws.modify _).bind fun _ => ?_
    exact (Throws.modify _).bind fun _ => Throws.pure _

/-- The search through the levels throws what its reads throw: by induction on the levels. -/
theorem searchLevels_from_store (k : Str) (is : List ℕ) :
    Throws (EngineFault S) (CapsuleDB.searchLevels k is : EngineM S (Option KvsPayload)) := by
  have hfind : ∀ (n : ℕ) (hs : List BlockHeader), Raises NotIo (Level.findCovering k n hs) := by
    intro n hs
    induction n generalizing hs with
    | zero => exact Raises.ok _
    | succ n ih =>
      cases hs with
      | nil => exact Raises.error (by decide)
      | cons h hs => exact Raises.ite (Raises.ok _) (ih hs)
  have hblock : ∀ (idx : CapsuleIndex) (i : ℕ), Raises NotIo (idx.getBlock i k) := by
    intro idx i
    unfold CapsuleIndex.getBlock
    refine Raises.ite (Raises.ok _) ?_
    split
    · exact Raises.ite (Raises.ok _) (hfind _ _)
    · exact Raises.error (by decide)
  induction is with
  | nil => exact Throws.pure _
  | cons i is ih =>
    rw [CapsuleDB.searchLevels]
    refine Throws.get.bind fun w => (lift_from_store (hblock _ i)).bind fun info => ?_
    refine Throws.ite ?_ ih
    refine (onIndex_from_store (onDisk_from_store (readIn_from_store _))).bind fun block => ?_
    split
    · exact Throws.pure _
    · exact ih

/-- **A get** throws `Fault.io` only where the store has thrown it. -/
theorem get_from_store (k : Str) :
    Throws (EngineFault S) (CapsuleDB.get k : EngineM S KvsPayload) := by
  have hmem : ∀ m : Memtable, Raises NotIo (m.get k) := by
    intro m
    unfold Memtable.get
    split
    · exact Raises.ok _
    · split
      · exact Raises.ok _
      · exact Raises.error (by decide)
  unfold CapsuleDB.get
  refine Throws.get.bind fun w => (lift_from_store (hmem _)).bind fun kv => ?_
  refine Throws.ite (Throws.get.bind fun w => ?_) (Throws.pure _)
  refine (searchLevels_from_store k _).bind fun found => ?_
  split
  · exact Throws.pure _
  · exact Throws.pure _

/-- A sequence of puts throws what one of them throws. -/
theorem puts_from_store (ps : List KvsPayload) :
    Throws (EngineFault S) (CapsuleDB.puts ps : EngineM S Unit) := by
  induction ps with
  | nil => exact Throws.pure _
  | cons p ps ih => exact (put_from_store p).bind fun _ => ih

/-! ## A store that never throws -/

/-- No operation of the store throws. -/
def Reliable (S : BlockStore) : Prop := ∀ d', ¬ Threw S d'

/-- What throws `Fault.io` only where the store has thrown it does not throw it at all. -/
theorem Reliable.not_io (hS : Reliable S) {α σ : Type} {f : σ → S.Disk} {x : EStateM Fault σ α}
    (hx : Throws (fun e s => FromStore S e (f s)) x) {s s' : σ} : x s ≠ .error .io s' :=
  fun hr => hS _ ((hx s).of_error hr rfl)

/-- **A put, a get and a merge never end with `Fault.io`** on a store that never throws, from any
state. -/
theorem Reliable.never_io (hS : Reliable S) :
    (∀ (p : KvsPayload) (w w' : World S), CapsuleDB.put p w ≠ .error .io w') ∧
      (∀ (k : Str) (w w' : World S), CapsuleDB.get k w ≠ .error .io w') ∧
      ∀ (blocksize : ℕ) (a b : List BlockHeader) (next_level : Int) (d d' : S.Disk),
        merge blocksize a b next_level d ≠ .error .io d' :=
  ⟨fun p _ _ => hS.not_io (put_from_store p), fun k _ _ => hS.not_io (get_from_store k),
    fun blocksize a b next_level _ _ =>
      hS.not_io (f := id) (merge_from_store blocksize a b next_level)⟩

/-- **Puts return** on a store that never throws, if the keys are few, however many puts there are
and in whatever order their timestamps are. -/
theorem reliable_puts_return (hS : Reliable S) (hB : 1 ≤ B) (d : S.Disk) (ps : List KvsPayload)
    (hfew : 12 * (distinctKeys ps + B) ≤ 2 ^ 31) :
    ∃ w, CapsuleDB.puts ps (spawnDB B d : World S) = .ok () w ∧ Inv S B w ∧ RunInv ps w := by
  cases hr : CapsuleDB.puts ps (spawnDB B d : World S) with
  | ok a w =>
    obtain ⟨hw, hrun, -⟩ := (puts_few hB d ps hfew).of_ok hr
    exact ⟨w, rfl, hw, hrun⟩
  | error e w =>
    obtain rfl : e = .io := (puts_few hB d ps hfew).of_error hr
    exact absurd hr (hS.not_io (puts_from_store ps))

/-- The store in memory, where a name that is not in use reads as an empty block. -/
def totalStore : BlockStore where
  Disk := List CapsuleBlock
  putCapsuleBlock := memoryStore.putCapsuleBlock
  getCapsuleBlock h := fun d => .ok ((memoryStore.stored d h).getD (CapsuleBlock.new 0)) d
  stored := memoryStore.stored
  put_spec := memoryStore.put_spec
  get_spec h d := ⟨fun _ _ h => h, fun b hb => by rw [hb]; rfl⟩

/-- The sample store throws nothing. -/
theorem reliable_totalStore : Reliable totalStore := by
  rintro d' ⟨d, ⟨b, h⟩ | ⟨hash, h⟩⟩
  · cases h
  · cases h

/-- The theorem at a run on this store. -/
theorem reliable_puts_return_sample :
    ∃ w, CapsuleDB.puts sampleRun (spawnDB 1 [] : World totalStore) = .ok () w ∧
      Inv totalStore 1 w ∧ RunInv sampleRun w :=
  reliable_puts_return (B := 1) reliable_totalStore (by decide) [] sampleRun
    (by unfold sampleRun; decide)

/-- **Gets return** on a store that never throws, in every state in order. -/
theorem reliable_gets_return (hS : Reliable S) {w : World S} (hw : Inv S B w) (k : Str) :
    ∃ a w', CapsuleDB.get k w = .ok a w' := by
  cases hr : CapsuleDB.get k w with
  | ok a w' => exact ⟨a, w', rfl⟩
  | error e w' =>
    obtain rfl : e = .io := (get_safe hw k).of_error hr
    exact absurd hr (hS.not_io (get_from_store k))

end Capsule.Analysis
