import Capsule.Interface.BlockRun

/-!
# The cursors of a merge

`merge` walks through each of its two lists with a cursor: the index of a block, the index of a
pair in it and the block itself, read when the cursor enters it.  `CursorAt` says which payloads
of the list are still ahead of a cursor.  The lemmas below give what each small step of the loop
does to the payloads that are ahead: looking at the first, stepping over it, opening a list.

Everything ahead is described by the contents the blocks had on the disk `d₀` on which the merge
began.  The disk the merge has reached only gained blocks since (`Keeps`), so reads return those
contents still.
-/

set_option autoImplicit false

namespace Capsule.Analysis

open Library Program Interface

variable {S : BlockStore} {d₀ d : S.Disk} {hs : List BlockHeader} {c : Cursor}
  {xs : List KvsPayload} {x : KvsPayload}

/-- How a step that began on `d` may fail: in the block store, which then lost nothing. -/
def IoFault (S : BlockStore) (d : S.Disk) (e : Fault) (d' : S.Disk) : Prop :=
  e = .io ∧ Keeps S.stored d d'

/-- A failure after a stretch that kept the blocks. -/
theorem IoFault.after {d' d'' : S.Disk} {e : Fault} (h : IoFault S d' e d'')
    (hk : Keeps S.stored d d') : IoFault S d e d'' := ⟨h.1, keeps_trans hk h.2⟩

/-- Reading a filled block returns what it held. -/
theorem readIn_spec (hk : Keeps S.stored d₀ d) {h : BlockHeader} (hne : contents S d₀ h ≠ []) :
    Outcome (fun b d' => Keeps S.stored d d' ∧ b.kvPairs = contents S d₀ h) (IoFault S d)
      (readIn h.hash d) := by
  obtain ⟨b₀, hb₀, hc⟩ := stored_of_contents hne
  refine (S.get_spec h.hash d).mono (fun b d' hb => ⟨hb.1, ?_⟩) fun _ _ he => he
  rw [hc, hb.2 b₀ (hk _ _ hb₀)]

/-! ## What is ahead of a cursor -/

/-- The payloads `xs` of the list `hs` are ahead of the cursor: either it has passed the last
block, or it stands at a pair of a block it has read. -/
def CursorAt (S : BlockStore) (d₀ : S.Disk) (hs : List BlockHeader) (c : Cursor)
    (xs : List KvsPayload) : Prop :=
  (c.blockInd = hs.length ∧ xs = []) ∨
  ∃ pre h post, hs = pre ++ h :: post ∧ c.blockInd = pre.length ∧
    c.block.kvPairs = contents S d₀ h ∧ c.pairInd < (contents S d₀ h).length ∧
    xs = (contents S d₀ h).drop c.pairInd ++ runOf S d₀ post

/-- A cursor is at the end of its list exactly when nothing is ahead. -/
theorem CursorAt.atEnd_iff (hc : CursorAt S d₀ hs c xs) : c.blockInd = hs.length ↔ xs = [] := by
  rcases hc with ⟨hend, rfl⟩ | ⟨pre, h, post, rfl, hind, _, hlt, rfl⟩
  · simp [hend]
  · have hlen : c.blockInd ≠ (pre ++ h :: post).length := by
      simp only [List.length_append, List.length_cons]
      omega
    have hne : (contents S d₀ h).drop c.pairInd ≠ [] := by
      rw [Ne, List.drop_eq_nil_iff]
      omega
    simp only [hlen, List.append_eq_nil_iff, hne, false_and]

/-- The pair a cursor stands at is the first payload ahead of it. -/
theorem CursorAt.pair_eq (hc : CursorAt S d₀ hs c (x :: xs)) : c.pair = .ok x := by
  rcases hc with ⟨_, h⟩ | ⟨pre, h, post, _, _, hblk, hlt, hxs⟩
  · simp at h
  · rw [List.drop_eq_getElem_cons hlt, List.cons_append, List.cons.injEq] at hxs
    unfold Cursor.pair
    rw [hblk, List.getElem?_eq_getElem hlt, hxs.1]

/-- A cursor just put on a block that has been read. -/
theorem CursorAt.enter (pre post : List BlockHeader) {h : BlockHeader} {b : CapsuleBlock}
    (hb : b.kvPairs = contents S d₀ h) (hne : contents S d₀ h ≠ []) :
    CursorAt S d₀ (pre ++ h :: post) ⟨pre.length, 0, b⟩ (runOf S d₀ (h :: post)) :=
  Or.inr ⟨pre, h, post, rfl, rfl, hb, List.length_pos_iff.mpr hne, rfl⟩

/-- **Stepping over a pair** leaves the rest of the payloads ahead. -/
theorem advance_spec (hf : Filled S d₀ hs) (hk : Keeps S.stored d₀ d)
    (hc : CursorAt S d₀ hs c (x :: xs)) :
    Outcome (fun c' d' => Keeps S.stored d d' ∧ CursorAt S d₀ hs c' xs) (IoFault S d)
      (c.advance hs d) := by
  rcases hc with ⟨_, h⟩ | ⟨pre, h, post, rfl, hind, hblk, hlt, hxs⟩
  · simp at h
  · rw [List.drop_eq_getElem_cons hlt, List.cons_append, List.cons.injEq] at hxs
    obtain ⟨-, rfl⟩ := hxs
    unfold Cursor.advance
    rw [hblk, hind]
    refine Outcome.ite (fun hlast => ?_) fun hlast => ?_
    · rw [hlast, List.drop_length, List.nil_append]
      cases post with
      | nil =>
        simp only [List.getElem?_append_right (Nat.le_add_right _ _), Nat.add_sub_cancel_left,
          List.getElem?_cons_succ, List.getElem?_nil]
        exact Outcome.pure ⟨keeps_refl d, Or.inl ⟨by simp, rfl⟩⟩
      | cons g post =>
        -- the next block is read when the cursor enters it
        have hg : contents S d₀ g ≠ [] := hf g (by simp)
        simp only [List.getElem?_append_right (Nat.le_add_right _ _), Nat.add_sub_cancel_left,
          List.getElem?_cons_succ, List.getElem?_cons_zero]
        refine (readIn_spec hk hg).bind (fun _ _ he => he) fun b d' hb => Outcome.pure ⟨hb.1, ?_⟩
        have henter := CursorAt.enter (pre ++ [h]) post hb.2 hg
        simpa using henter
    · have hlt' : c.pairInd + 1 < (contents S d₀ h).length := by omega
      exact Outcome.pure ⟨keeps_refl d, Or.inr ⟨pre, h, post, rfl, rfl, hblk, hlt', rfl⟩⟩

/-- Opening a list puts the cursor before all its payloads. -/
theorem openCursor_spec (hf : Filled S d₀ hs) (hk : Keeps S.stored d₀ d) :
    Outcome (fun c' d' => Keeps S.stored d d' ∧ CursorAt S d₀ hs c' (runOf S d₀ hs))
      (IoFault S d) (openCursor hs d) := by
  cases hs with
  | nil => exact Outcome.pure ⟨keeps_refl d, Or.inl ⟨rfl, rfl⟩⟩
  | cons h post =>
    have hne : contents S d₀ h ≠ [] := hf h (by simp)
    refine (readIn_spec hk hne).bind (fun _ _ he => he) fun b d' hb => Outcome.pure ⟨hb.1, ?_⟩
    exact CursorAt.enter [] post hb.2 hne

/-! ## Choosing the next pair -/

/-- **The next pair is the next entry of the merge**, and exactly the cursors that stand at its
key are to be moved. -/
theorem nextKVPair_spec {a b : List BlockHeader} {st : MergeState} {xs ys : List KvsPayload}
    (ha : CursorAt S d₀ a st.a xs) (hb : CursorAt S d₀ b st.b ys) (hne : xs ≠ [] ∨ ys ≠ []) :
    ∃ p advanceA advanceB, nextKVPair a b st = .ok (p, advanceA, advanceB) ∧
      (advanceA = true → xs ≠ []) ∧ (advanceB = true → ys ≠ []) ∧
      (advanceA = true ∨ advanceB = true) ∧
      mergeRuns xs ys = p :: mergeRuns (if advanceA then xs.tail else xs)
        (if advanceB then ys.tail else ys) := by
  unfold nextKVPair
  cases xs with
  | nil =>
    obtain ⟨y, ys, rfl⟩ := List.exists_cons_of_ne_nil (hne.resolve_left (by simp))
    rw [if_pos (ha.atEnd_iff.mpr rfl), hb.pair_eq]
    exact ⟨y, false, true, rfl, by simp, by simp, by simp, by simp⟩
  | cons x xs =>
    rw [if_neg (by simp [ha.atEnd_iff])]
    cases ys with
    | nil =>
      rw [if_pos (hb.atEnd_iff.mpr rfl), ha.pair_eq]
      exact ⟨x, true, false, rfl, by simp, by simp, by simp, by simp⟩
    | cons y ys =>
      rw [if_neg (by simp [hb.atEnd_iff]), ha.pair_eq, hb.pair_eq, mergeRuns, mergeBy_cons_cons]
      by_cases hyx : y.key < x.key
      · rw [if_pos hyx]
        exact ⟨y, false, true, by simp [bind, Except.bind, pure, Except.pure, hyx],
          by simp, by simp, by simp, by simp⟩
      · by_cases hxy : x.key < y.key
        · rw [if_neg hyx, if_pos hxy]
          exact ⟨x, true, false, by simp [bind, Except.bind, pure, Except.pure, hyx, hxy],
            by simp, by simp, by simp, by simp⟩
        · rw [if_neg hyx, if_neg hxy]
          refine ⟨newer KvsPayload.txn_timestamp x y, true, true, ?_, by simp, by simp, by simp,
            by simp⟩
          simp only [bind, Except.bind, pure, Except.pure, if_neg hyx, if_neg hxy, newer, ge_iff_le]
          split <;> rfl

end Capsule.Analysis
