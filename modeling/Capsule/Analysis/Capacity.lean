import Capsule.Analysis.Runs

/-!
# Capacities

The capacity of a level is an `int`: that of L0 is narrowed from a `size_t`, and each new level
multiplies the capacity of the level above it by ten.  `SizedIndex` says what this arithmetic
makes of a memory table of `n` entries, for any `n`, also when the narrowing has changed the
value.  It is kept by every assignment to the index, so it holds in every state that a run passes
through, and a multiplication that does not fit is one for a level that does not exist yet
(`put_sized`).

From this follows when the capacities are the true ones (`capacities_true_iff`).
-/

set_option autoImplicit false

namespace Capsule.Analysis

open Library Program Interface

variable {S : BlockStore} {n : ℕ} {s : IndexState S} {w : World S}

/-! ## What the arithmetic makes of a size -/

/-- The capacity of the level `i`, computed from the narrowed capacity of L0. -/
def capacityAt (n i : ℕ) : Int := 10 ^ i * toInt (2 * n)

/-- The number is an `int`. -/
def FitsInt (x : Int) : Prop := -(2 ^ 31) ≤ x ∧ x < 2 ^ 31

/-- What a conversion to `int` gives is in the range of an `int`. -/
theorem fitsInt_toInt (x : Int) : FitsInt (toInt x) := by
  unfold FitsInt toInt
  constructor
  · have := Int.le_bmod (x := x) (m := 2 ^ 32) (by decide)
    omega
  · have := Int.bmod_lt (x := x) (m := 2 ^ 32) (by decide)
    omega

/-- The capacity of the next level is computed, or it overflows, exactly as its value tells. -/
theorem mulInt_capacityAt (n i : ℕ) :
    (mulInt (capacityAt n i) 10 = .ok (capacityAt n (i + 1)) ∧ FitsInt (capacityAt n (i + 1))) ∨
    (mulInt (capacityAt n i) 10 = .error .overflow ∧ ¬ FitsInt (capacityAt n (i + 1))) := by
  have hmul : capacityAt n i * 10 = capacityAt n (i + 1) := by
    unfold capacityAt
    ring
  unfold mulInt
  rw [hmul]
  by_cases h : FitsInt (capacityAt n (i + 1))
  · exact Or.inl ⟨if_pos h, h⟩
  · exact Or.inr ⟨if_neg h, h⟩

/-- The levels of an index for blocks of `n` entries are numbered from 0 and have the computed
capacities. -/
structure SizedIndex (n : ℕ) (idx : CapsuleIndex) : Prop where
  numLevels_eq : idx.numLevels = idx.levels.length
  levels_pos : 0 < idx.levels.length
  level : ∀ i l, idx.levels[i]? = some l →
    l.index = i ∧ l.maxSize = capacityAt n i ∧ FitsInt (capacityAt n i)

/-- A fault leaves the levels as they should be, and an overflow is one of the capacity of the
next level. -/
structure SizeFault (n : ℕ) (e : Fault) (idx : CapsuleIndex) : Prop where
  sized : SizedIndex n idx
  next : e = .overflow → ¬ FitsInt (capacityAt n idx.levels.length)

/-- A new index has the computed capacities. -/
theorem SizedIndex.new (n : ℕ) : SizedIndex n (CapsuleIndex.new n) := by
  refine ⟨rfl, Nat.one_pos, fun i l hl => ?_⟩
  have hcap : capacityAt n 0 = toInt (2 * n) := by rw [capacityAt, pow_zero, one_mul]
  rw [CapsuleIndex.new, List.getElem?_singleton] at hl
  split at hl
  · rename_i hi
    obtain rfl := Option.some.inj hl
    have hfits := fitsInt_toInt (2 * n)
    rw [hi, hcap]
    generalize toInt (2 * n) = size at hfits
    exact ⟨rfl, rfl, hfits⟩
  · simp at hl

/-! ## The index -/

/-- The computation keeps the levels as they should be. -/
def KeepsSizes {α : Type} (n : ℕ) (x : IndexM S α) : Prop :=
  ∀ s, SizedIndex n s.index →
    Outcome (fun _ s' => SizedIndex n s'.index) (fun e s' => SizeFault n e s'.index) (x s)

/-- **Sequencing** keeps the sizes. -/
theorem KeepsSizes.bind {α β : Type} {x : IndexM S α} {f : α → IndexM S β} (hx : KeepsSizes n x)
    (hf : ∀ a, KeepsSizes n (f a)) : KeepsSizes n (x >>= f) := fun s hs =>
  (hx s hs).bind (fun _ _ he => he) fun a s' hs' => hf a s' hs'

/-- A computation that does nothing keeps the sizes. -/
theorem KeepsSizes.pure {α : Type} (a : α) : KeepsSizes n (Pure.pure a : IndexM S α) :=
  fun _ hs => hs

/-- A fault that is no overflow says nothing about the sizes. -/
theorem KeepsSizes.throw {α : Type} {e : Fault} (he : e ≠ .overflow) :
    KeepsSizes n (MonadExcept.throw e : IndexM S α) :=
  fun _ hs => ⟨hs, fun h => absurd h he⟩

/-- What follows a look at the state has to be shown at that state. -/
theorem KeepsSizes.get_bind {β : Type} {f : IndexState S → IndexM S β}
    (hf : ∀ s₀ : IndexState S, SizedIndex n s₀.index →
      Outcome (fun _ s' => SizedIndex n s'.index) (fun e s' => SizeFault n e s'.index) (f s₀ s₀)) :
    KeepsSizes n (MonadState.get >>= f) := fun s hs => Outcome.get_bind (hf s hs)

/-- What follows a look at a level has to be shown for the level that is there. -/
theorem KeepsSizes.levelAt_bind {β : Type} {i : ℕ} {f : Level → IndexM S β}
    (hf : ∀ s (l : Level), SizedIndex n s.index → s.index.levels[i]? = some l →
      Outcome (fun _ s' => SizedIndex n s'.index) (fun e s' => SizeFault n e s'.index) (f l s)) :
    KeepsSizes n (levelAt i >>= f) := by
  intro s hs
  cases hl : s.index.levels[i]? with
  | some l => exact Analysis.levelAt_bind hl (hf s l hs hl)
  | none =>
    have hthrow : Outcome (fun _ _ => False) (fun e s' => e = .outOfRange ∧ s' = s)
        ((levelAt i : IndexM S Level) s) := by
      unfold levelAt
      apply Outcome.get_bind
      simp only [hl]
      exact Outcome.throw ⟨rfl, rfl⟩
    refine hthrow.bind ?_ fun _ _ h => h.elim
    rintro e _ ⟨rfl, rfl⟩
    exact ⟨hs, by simp⟩

/-- Assigning a level that has the place and the capacity of the one before. -/
theorem sizedIndex_setLevel (hs : SizedIndex n s.index) {i : ℕ} {l l' : Level}
    (hl : s.index.levels[i]? = some l) (hi : l'.index = l.index) (hm : l'.maxSize = l.maxSize) :
    SizedIndex n (s.putLevel i l').index := by
  refine ⟨hs.numLevels_eq.trans (by simp [IndexState.putLevel]),
    by simpa [IndexState.putLevel] using hs.levels_pos, fun j k hk => ?_⟩
  rw [IndexState.putLevel, List.getElem?_set] at hk
  split at hk
  · rename_i hij
    subst hij
    split at hk
    · obtain rfl := Option.some.inj hk
      rw [hi, hm]
      exact hs.level i l hl
    · simp at hk
  · exact hs.level j k hk

/-- Assigning to a level what has been computed from it. -/
theorem KeepsSizes.setLevel {i : ℕ} {g : Level → Level} (hi : ∀ l, (g l).index = l.index)
    (hm : ∀ l, (g l).maxSize = l.maxSize) :
    KeepsSizes n (levelAt i >>= fun l => Program.setLevel i (g l) : IndexM S Unit) :=
  KeepsSizes.levelAt_bind fun _ l hs hl => sizedIndex_setLevel hs hl (hi l) (hm l)

/-- A computation of the disk that reports no overflow. -/
def NoOverflow {α : Type} (x : DiskM S α) : Prop :=
  ∀ d, Outcome (fun _ _ => True) (fun e _ => e ≠ .overflow) (x d)

/-- A computation on the disk does not touch the levels. -/
theorem KeepsSizes.onDisk {α : Type} {x : DiskM S α} (hx : NoOverflow x) :
    KeepsSizes n (Program.onDisk x) := by
  intro s hs
  refine (onDisk_spec (hx s.disk)).mono ?_ ?_
  · rintro a _ ⟨d', rfl, -⟩
    exact hs
  · rintro e _ ⟨d', rfl, he⟩
    exact ⟨hs, fun h => absurd h he⟩

/-! ## The disk -/

section Disk

variable {α β : Type}

/-- Sequencing computations that do not overflow. -/
theorem NoOverflow.bind {x : DiskM S α} {f : α → DiskM S β} (hx : NoOverflow x)
    (hf : ∀ a, NoOverflow (f a)) : NoOverflow (x >>= f) := fun d =>
  (hx d).bind (fun _ _ he => he) fun a d' _ => hf a d'

/-- A computation that does nothing does not overflow. -/
theorem NoOverflow.pure (a : α) : NoOverflow (Pure.pure a : DiskM S α) := fun _ => trivial

/-- Another fault is no overflow. -/
theorem NoOverflow.throw {e : Fault} (he : e ≠ .overflow) :
    NoOverflow (MonadExcept.throw e : DiskM S α) := fun _ => he

/-- A conditional does not overflow if its branches do not. -/
theorem NoOverflow.ite {c : Prop} [Decidable c] {x y : DiskM S α} (hx : NoOverflow x)
    (hy : NoOverflow y) : NoOverflow (if c then x else y) :=
  fun d => Outcome.ite (fun _ => hx d) fun _ => hy d

/-- A read of a block fails as the store does. -/
theorem noOverflow_readIn (h : Str) : NoOverflow (readIn h : DiskM S CapsuleBlock) := fun d =>
  (S.get_spec h d).mono (fun _ _ _ => trivial) fun e _ he => by simp [he.1]

/-- A write of a block fails as the store does. -/
theorem noOverflow_writeHeader (b : CapsuleBlock) :
    NoOverflow (writeHeader b : DiskM S BlockHeader) := by
  refine NoOverflow.bind (fun d => ?_) fun _ => NoOverflow.pure _
  exact (S.put_spec b d).mono (fun _ _ _ => trivial) fun e _ he => by simp [he.1]

/-- Moving a cursor on reads a block at most. -/
theorem noOverflow_advanceIf (flag : Bool) (hs : List BlockHeader) (c : Cursor) :
    NoOverflow (c.advanceIf flag hs : DiskM S Cursor) := by
  refine NoOverflow.ite (NoOverflow.ite ?_ (NoOverflow.pure _)) (NoOverflow.pure _)
  cases hs[c.blockInd + 1]? with
  | none => exact NoOverflow.pure _
  | some h => exact NoOverflow.bind (noOverflow_readIn _) fun _ => NoOverflow.pure _

/-- Opening a cursor reads a block at most. -/
theorem noOverflow_openCursor (hs : List BlockHeader) :
    NoOverflow (openCursor hs : DiskM S Cursor) := by
  cases hs with
  | nil => exact NoOverflow.pure _
  | cons h hs => exact NoOverflow.bind (noOverflow_readIn _) fun _ => NoOverflow.pure _

/-- A sequence of pure computations raises what one of them raises. -/
theorem except_bind_ne_error {ε : Type} {e : ε} {x : Except ε α} {f : α → Except ε β}
    (hx : x ≠ .error e) (hf : ∀ a, f a ≠ .error e) : (x >>= f) ≠ .error e := by
  cases x with
  | error e' => simpa [bind, Except.bind] using hx
  | ok a => exact hf a

/-- A cursor that has left its block is out of range. -/
theorem pair_ne_overflow (c : Cursor) : c.pair ≠ .error .overflow := by
  unfold Cursor.pair
  split <;> simp

/-- Choosing the next pair only looks at two cursors. -/
theorem nextKVPair_ne_overflow (a b : List BlockHeader) (st : MergeState) :
    nextKVPair a b st ≠ .error .overflow := by
  have hok : ∀ r : KvsPayload × Bool × Bool, (pure r : Except Fault _) ≠ .error .overflow :=
    fun r => by simp [pure, Except.pure]
  unfold nextKVPair
  split
  · exact except_bind_ne_error (pair_ne_overflow _) fun _ => hok _
  · split
    · exact except_bind_ne_error (pair_ne_overflow _) fun _ => hok _
    · apply except_bind_ne_error (pair_ne_overflow _)
      intro _
      apply except_bind_ne_error (pair_ne_overflow _)
      intro _
      split_ifs <;> exact hok _

/-- A pure computation does not overflow on the disk either. -/
theorem NoOverflow.lift {x : Except Fault α} (hx : x ≠ .error .overflow) :
    NoOverflow (Library.lift x : DiskM S α) := by
  cases x with
  | error e => exact NoOverflow.throw fun he => hx (he ▸ rfl)
  | ok a => exact NoOverflow.pure a

/-- A step of a merge computes no capacity. -/
theorem noOverflow_mergeStep (B : ℕ) (a b : List BlockHeader) (lvl : Int) (st : MergeState) :
    NoOverflow (mergeStep B a b lvl st : DiskM S MergeState) := by
  apply NoOverflow.bind (NoOverflow.lift (nextKVPair_ne_overflow a b st))
  intro r
  apply NoOverflow.bind (noOverflow_advanceIf _ _ _)
  intro curA
  apply NoOverflow.bind (noOverflow_advanceIf _ _ _)
  intro curB
  refine NoOverflow.bind ?_ fun _ => NoOverflow.pure _
  exact NoOverflow.ite (NoOverflow.bind (noOverflow_writeHeader _) fun _ => NoOverflow.pure _)
    (NoOverflow.pure _)

/-- The loop of a merge computes no capacity: by induction on the fuel. -/
theorem noOverflow_mergeLoop (B : ℕ) (a b : List BlockHeader) (lvl : Int) (fuel : ℕ)
    (st : MergeState) :
    NoOverflow (mergeLoop B a b lvl fuel st : DiskM S MergeState) := by
  induction fuel generalizing st with
  | zero => exact NoOverflow.ite (NoOverflow.pure _) (NoOverflow.throw (by decide))
  | succ fuel ih =>
    exact NoOverflow.ite (NoOverflow.pure _) (NoOverflow.bind (noOverflow_mergeStep _ _ _ _ _) ih)

/-- **A merge** computes no capacity. -/
theorem noOverflow_merge (B : ℕ) (a b : List BlockHeader) (lvl : Int) :
    NoOverflow (merge B a b lvl : DiskM S (List BlockHeader)) := by
  unfold merge
  split
  · intro _
    exact (by decide : Fault.outOfRange ≠ .overflow)
  apply NoOverflow.bind (noOverflow_openCursor a)
  intro curA
  apply NoOverflow.bind (noOverflow_openCursor b)
  intro curB
  refine fun d => Outcome.get_bind (NoOverflow.bind (noOverflow_mergeLoop _ _ _ _ _ _) ?_ d)
  intro st
  exact NoOverflow.ite (NoOverflow.bind (noOverflow_writeHeader _) fun _ => NoOverflow.pure _)
    (NoOverflow.pure _)

/-- The merges of L0 compute no capacity. -/
theorem noOverflow_mergeL0 (B : ℕ) (sorted rest : List BlockHeader) :
    NoOverflow (mergeL0 B sorted rest : DiskM S (List BlockHeader)) := by
  induction rest generalizing sorted with
  | nil => exact NoOverflow.pure _
  | cons h rest ih => exact NoOverflow.bind (noOverflow_merge _ _ _ _) fun _ => ih _

end Disk

/-! ## Compaction -/

/-- Another level gets the next capacity, if that fits. -/
theorem keepsSizes_addLevelIf (hs : SizedIndex n s.index) {needed : Prop} [Decidable needed] {i : ℕ}
    {size : Except Fault Int} (hlast : needed → s.index.levels.length = i + 1)
    (hsize : size = mulInt (capacityAt n i) 10) :
    Outcome (fun _ s' => SizedIndex n s'.index) (fun e s' => SizeFault n e s'.index)
      (addLevelIf needed size s) := by
  unfold addLevelIf
  refine Outcome.ite (fun hneeded => ?_) fun _ => Outcome.pure hs
  have hlen := hlast hneeded
  rcases mulInt_capacityAt n i with ⟨heq, hfits⟩ | ⟨heq, hfits⟩
  · rw [hsize, heq]
    apply Outcome.lift_bind
    refine ⟨by simp [IndexState.growLevel, hs.numLevels_eq], by simp [IndexState.growLevel], ?_⟩
    intro j l hl
    have hl' :
        (s.index.levels ++ [Level.new s.index.numLevels (capacityAt n (i + 1))])[j]? = some l := hl
    rw [List.getElem?_append] at hl'
    split at hl'
    · exact hs.level j l hl'
    · -- the new level
      rename_i hj
      rw [List.getElem?_singleton] at hl'
      split at hl'
      · obtain rfl := Option.some.inj hl'
        obtain rfl : j = i + 1 := by omega
        exact ⟨hs.numLevels_eq.trans hlen, rfl, hfits⟩
      · simp at hl'
  · rw [hsize, heq]
    exact ⟨hs, fun _ => hlen ▸ hfits⟩

/-- A merge into a level replaces its blocks and keeps its capacity. -/
theorem keepsSizes_mergeInto (src : List BlockHeader) (i : ℕ) :
    KeepsSizes n (mergeInto src i : IndexM S Unit) := by
  apply KeepsSizes.get_bind
  intro s₀ hs₀
  refine KeepsSizes.levelAt_bind (n := n) (fun s dest hs _ => ?_) s₀ hs₀
  refine (KeepsSizes.onDisk (noOverflow_merge _ _ _ _)).bind (fun blocks => ?_) s hs
  exact KeepsSizes.setLevel (g := fun l => l.setBlocks blocks) (fun _ => rfl) fun _ => rfl

/-- Choosing the blocks to hand down fails at an empty source only. -/
theorem selectBlocks_ne_overflow (src dest : List BlockHeader) :
    selectBlocks src dest ≠ .error .overflow := by
  unfold selectBlocks
  simp only
  split_ifs <;> simp

/-- Handing down blocks keeps the sizes, if the recursive call below does. -/
theorem keepsSizes_pushDown {below : List BlockHeader → ℕ → IndexM S Unit}
    (hbelow : ∀ src i, KeepsSizes n (below src i)) (src : List BlockHeader) (i : ℕ) :
    KeepsSizes n (pushDown below src i) := by
  apply KeepsSizes.levelAt_bind
  intro s dest hs hl
  obtain ⟨hindex, hmax, -⟩ := hs.level i dest hl
  have hlt := (List.getElem?_eq_some_iff.mp hl).1
  refine Outcome.get_bind ((keepsSizes_addLevelIf hs (i := i) ?_ (by rw [hmax])).bind
    (fun _ _ he => he) ?_)
  · intro hlast
    rw [hindex, hs.numLevels_eq] at hlast
    omega
  · rintro - s₁ hs₁
    cases hsel : selectBlocks src dest.recordHashes with
    | error e =>
      exact ⟨hs₁, fun he => absurd (he ▸ hsel) (selectBlocks_ne_overflow _ _)⟩
    | ok sel =>
      refine Outcome.lift_bind ((hbelow _ _).bind (fun _ => ?_) s₁ hs₁)
      exact KeepsSizes.setLevel (g := fun l => l.setBlocks sel.2) (fun _ => rfl) fun _ => rfl

/-- **Compaction keeps the levels as they should be**, at every depth. -/
theorem keepsSizes_compactHelper (fuel : ℕ) (src : List BlockHeader) (i : ℕ) :
    KeepsSizes n (compactHelper fuel src i : IndexM S Unit) := by
  induction fuel generalizing src i with
  | zero => exact KeepsSizes.throw (by decide)
  | succ fuel ih =>
    apply KeepsSizes.get_bind
    intro s₀ hs₀
    refine KeepsSizes.levelAt_bind (n := n) (fun s dest hs _ => ?_) s₀ hs₀
    refine Outcome.ite (fun _ => ?_) fun _ => keepsSizes_mergeInto src i s hs
    exact (keepsSizes_pushDown ih src i).bind (fun _ => keepsSizes_mergeInto src i) s hs

/-- Sorting the blocks of L0 leaves the levels alone: by induction on the blocks left. -/
theorem keepsSizes_sortBlocks (m i : ℕ) : KeepsSizes n (sortBlocks m i : IndexM S Unit) := by
  induction m generalizing i with
  | zero => exact KeepsSizes.pure _
  | succ m ih =>
    apply KeepsSizes.levelAt_bind
    intro s lv0 hs hl
    cases lv0.recordHashes[i]? with
    | none => exact ⟨hs, by simp⟩
    | some h =>
      refine onDisk_bind ((S.get_spec h.hash s.disk).mono (fun _ _ _ => trivial) fun _ _ he => he.1)
        ?_ ?_
      · rintro e d' rfl
        exact ⟨hs, by simp⟩
      · rintro b d' -
        refine onDisk_bind ((S.put_spec _ _).mono (fun _ _ _ => trivial) fun _ _ he => he.1) ?_ ?_
        · rintro e d'' rfl
          exact ⟨hs, by simp⟩
        · rintro hash d'' -
          exact Outcome.modify_bind (ih (i + 1) _ (sizedIndex_setLevel hs hl rfl rfl))

/-- **A compaction** keeps the sizes. -/
theorem keepsSizes_compact : KeepsSizes n (compact : IndexM S Unit) := by
  apply KeepsSizes.get_bind
  intro s₀ hs₀
  refine KeepsSizes.levelAt_bind (n := n) (fun s lv0 hs _ => ?_) s₀ hs₀
  refine Outcome.ite (fun _ => Outcome.pure hs) fun _ => ?_
  have hsort : KeepsSizes n (sortL0 : IndexM S Unit) :=
    KeepsSizes.levelAt_bind fun _ _ hs _ => keepsSizes_sortBlocks _ _ _ hs
  refine hsort.bind (fun _ => ?_) s hs
  apply KeepsSizes.levelAt_bind
  intro s lv0 hs hl
  cases lv0.recordHashes with
  | nil => exact ⟨hs, by simp⟩
  | cons first rest =>
    refine onDisk_bind (noOverflow_mergeL0 _ _ _ s.disk) (fun e d' he => ?_) fun sorted d' _ => ?_
    · exact ⟨hs, fun h => absurd h he⟩
    · obtain ⟨-, hmax, -⟩ := hs.level 0 lv0 hl
      apply Outcome.get_bind
      refine (keepsSizes_addLevelIf (s := { s with disk := d' }) (i := 0) hs (fun hone => ?_)
        ?_).bind (fun _ _ he => he) fun _ s₁ hs₁ => ?_
      · exact hs.numLevels_eq.symm.trans hone
      · rw [mulInt_comm, hmax]
      · apply Outcome.get_bind
        refine (keepsSizes_compactHelper _ sorted 1).bind (fun _ => ?_) s₁ hs₁
        exact KeepsSizes.setLevel (g := fun l => l.setBlocks []) (fun _ => rfl) fun _ => rfl

/-- A level that takes a block keeps its capacity. -/
theorem addBlock_size (l : Level) (b : CapsuleBlock) (hash : Str) :
    (l.addBlock b hash).1.index = l.index ∧ (l.addBlock b hash).1.maxSize = l.maxSize := by
  unfold Level.addBlock
  split_ifs <;> exact ⟨rfl, rfl⟩

/-- Taking a new block keeps the sizes, also where a level is added first. -/
theorem keepsSizes_addHash (i : ℕ) (hash : Str) (b : CapsuleBlock) :
    KeepsSizes n (addHash i hash b : IndexM S Int) := by
  apply KeepsSizes.get_bind
  intro s₀ hs₀
  refine Outcome.ite (fun _ => Outcome.pure hs₀) fun _ => ?_
  refine KeepsSizes.levelAt_bind (n := n) (fun _ l hs hl => ?_) s₀ hs₀
  have hsize := addBlock_size l b hash
  have hs' := sizedIndex_setLevel hs hl hsize.1 hsize.2
  exact Outcome.modify_bind (keepsSizes_compact.bind (fun _ => KeepsSizes.pure _) _ hs')

/-! ## The engine -/

/-- What follows a computation on the index finds the sizes kept. -/
theorem sized_onIndex_bind {α β : Type} {x : IndexM S α} {f : α → EngineM S β}
    (hs : SizedIndex n w.index) (hx : KeepsSizes n x)
    (hf : ∀ a w', SizedIndex n w'.index →
      Outcome (fun _ w'' => SizedIndex n w''.index) (fun e w'' => SizeFault n e w''.index)
        (f a w')) :
    Outcome (fun _ w' => SizedIndex n w'.index) (fun e w' => SizeFault n e w'.index)
      ((onIndex x >>= f) w) :=
  onIndex_bind (hx (indexState w) hs) (fun _ _ he => he) fun a _ hs' => hf a _ hs'

/-- A flush keeps the sizes. -/
theorem writeOutIfFull_sized (hs : SizedIndex n w.index) :
    Outcome (fun _ w' => SizedIndex n w'.index) (fun e w' => SizeFault n e w'.index)
      (writeOutIfFull w) := by
  refine Outcome.get_bind (Outcome.ite (fun _ => ?_) fun _ => Outcome.pure hs)
  cases w.memtable.memtable.entries with
  | nil => exact ⟨hs, by simp⟩
  | cons first rest =>
    have hwrite : NoOverflow (writeOut (Memtable.toBlock first.1 (first :: rest)) : DiskM S Str) :=
      fun d => (S.put_spec _ d).mono (fun _ _ _ => trivial) fun e _ he => by simp [he.1]
    apply sized_onIndex_bind hs (KeepsSizes.onDisk hwrite)
    intro hash w₁ hs₁
    exact sized_onIndex_bind hs₁ (keepsSizes_addHash _ _ _) fun _ _ hs₂ => hs₂

/-- **One put keeps the levels as they should be**, whatever it does and however it ends. -/
theorem put_sized (hs : SizedIndex n w.index) (p : KvsPayload) :
    Outcome (fun _ w' => SizedIndex n w'.index) (fun e w' => SizeFault n e w'.index)
      (CapsuleDB.put p w) := by
  suffices h : Outcome (fun _ w' => SizedIndex n w'.index) (fun e w' => SizeFault n e w'.index)
      (Memtable.put p w) from h.bind (fun _ _ he => he) fun _ _ hs' => hs'
  apply Outcome.get_bind
  cases w.memtable.locklst.find? p.key with
  | some u =>
    cases w.memtable.memtable.find? p.key with
    | none => exact ⟨hs, by simp⟩
    | some prev => exact Outcome.ite (fun _ => Outcome.pure hs) fun _ => hs
  | none => exact (writeOutIfFull_sized hs).bind (fun _ _ he => he) fun _ _ hs₁ => hs₁

/-- **Every run.** -/
theorem puts_sized (ps : List KvsPayload) (hs : SizedIndex n w.index) :
    Outcome (fun _ w' => SizedIndex n w'.index) (fun e w' => SizeFault n e w'.index)
      (CapsuleDB.puts ps w) := by
  induction ps generalizing w with
  | nil => exact hs
  | cons p ps ih => exact (put_sized hs p).bind (fun _ _ he => he) fun _ _ hs' => ih hs'

/-! ## When the capacities are the true ones -/

/-- Every level has the capacity of `2 * 10 ^ i` blocks, and this is what a block count is compared
with. -/
def TrueCapacities (n : ℕ) (idx : CapsuleIndex) : Prop :=
  ∀ (i : ℕ) (l : Level), idx.levels[i]? = some l →
    l.maxSize = (2 * 10 ^ i * n : ℕ) ∧ 0 < l.maxSize ∧ toSizeT l.maxSize = 2 * 10 ^ i * n

/-- A level's true capacity fits an `int` if that of a level below it does. -/
theorem capacity_le {i j : ℕ} (hij : i ≤ j) : 2 * 10 ^ i * n ≤ 2 * 10 ^ j * n :=
  Nat.mul_le_mul_right n (Nat.mul_le_mul_left 2 (Nat.pow_le_pow_right (by decide) hij))

/-- With room for L0 the computed capacities are the products. -/
theorem capacityAt_eq (hn : 2 * n < 2 ^ 31) (i : ℕ) : capacityAt n i = (2 * 10 ^ i * n : ℕ) := by
  have h : toInt ((2 * n : ℕ) : Int) = (2 * n : ℕ) := toInt_of_lt hn
  unfold capacityAt
  push_cast at h ⊢
  rw [h]
  ring

/-- The capacities are true exactly if the product of the lowest level fits an `int`. -/
theorem SizedIndex.true_iff {idx : CapsuleIndex} (hs : SizedIndex n idx) (hn : 1 ≤ n) :
    TrueCapacities n idx ↔ 2 * 10 ^ (idx.numLevels - 1) * n < 2 ^ 31 := by
  have hlast : idx.numLevels - 1 < idx.levels.length := by
    have := hs.levels_pos
    have := hs.numLevels_eq
    omega
  constructor
  · intro h
    have hl := List.getElem?_eq_getElem hlast
    obtain ⟨-, hmax, -, hlt⟩ := hs.level _ _ hl
    rw [← hmax, (h _ _ hl).1] at hlt
    exact_mod_cast hlt
  · intro h i l hl
    have hi := (List.getElem?_eq_some_iff.mp hl).1
    have hle := capacity_le (n := n) (show i ≤ idx.numLevels - 1 by have := hs.numLevels_eq; omega)
    have hle0 := capacity_le (n := n) (Nat.zero_le i)
    rw [(hs.level i l hl).2.1, capacityAt_eq (by omega)]
    have hpos : 0 < 2 * 10 ^ i * n := by omega
    exact ⟨rfl, by exact_mod_cast hpos, toSizeT_natCast (by omega)⟩

/-- A capacity that does not fit is at least `2 ^ 31`. -/
theorem le_of_not_fitsInt {i : ℕ} (h : ¬ FitsInt (capacityAt n i)) : 2 ^ 31 ≤ 2 * 10 ^ i * n := by
  by_contra hlt
  have hle := capacity_le (n := n) (Nat.zero_le i)
  rw [capacityAt_eq (by omega), FitsInt] at h
  omega

/-- **When capacities are computed without overflow.**  In the state that any sequence of puts to a
new engine for blocks of `n` entries leads to, also if one of them throws, every level has its
true capacity exactly if the true capacity of the lowest level fits an `int`.  And a
multiplication overflows only for a level whose true capacity does not fit. -/
theorem capacities_true_iff (hn : 1 ≤ n) (d : S.Disk) (ps : List KvsPayload) :
    Outcome
      (fun _ w => TrueCapacities n w.index ↔ 2 * 10 ^ (w.index.numLevels - 1) * n < 2 ^ 31)
      (fun e w => (TrueCapacities n w.index ↔ 2 * 10 ^ (w.index.numLevels - 1) * n < 2 ^ 31) ∧
        (e = .overflow → 2 ^ 31 ≤ 2 * 10 ^ w.index.numLevels * n))
      (CapsuleDB.puts ps (spawnDB n d)) := by
  apply (puts_sized ps (SizedIndex.new n)).mono (fun _ w hs => hs.true_iff hn)
  intro e w he
  refine ⟨he.sized.true_iff hn, fun heq => ?_⟩
  rw [he.sized.numLevels_eq]
  exact le_of_not_fitsInt (he.next heq)

/-- The theorem at a run with a memory table of one payload. -/
theorem capacities_true_iff_sample :
    Outcome
      (fun _ w => TrueCapacities 1 w.index ↔ 2 * 10 ^ (w.index.numLevels - 1) * 1 < 2 ^ 31)
      (fun e w => (TrueCapacities 1 w.index ↔ 2 * 10 ^ (w.index.numLevels - 1) * 1 < 2 ^ 31) ∧
        (e = .overflow → 2 ^ 31 ≤ 2 * 10 ^ w.index.numLevels * 1))
      (CapsuleDB.puts sampleRun (spawnDB 1 [] : World memoryStore)) :=
  capacities_true_iff (S := memoryStore) (n := 1) (by decide) [] sampleRun

/-- The capacity of L0 for blocks of `2 ^ 30` entries is negative. -/
theorem capacity_is_negative :
    (spawnDB (2 ^ 30) [] : World memoryStore).index.levels.map Level.maxSize = [-(2 ^ 31)] ∧
    ¬ TrueCapacities (2 ^ 30) (spawnDB (2 ^ 30) [] : World memoryStore).index := by
  have hmax : toInt (2 * ((2 ^ 30 : ℕ) : Int)) = -(2 ^ 31) := by decide
  refine ⟨?_, ?_⟩
  · simp only [spawnDB, CapsuleIndex.new, Level.new, List.map_cons, List.map_nil, hmax]
  intro h
  have hpos := (h 0 (Level.new 0 (toInt (2 * ((2 ^ 30 : ℕ) : Int)))) rfl).2.1
  simp only [Level.new, hmax] at hpos
  omega

end Capsule.Analysis
