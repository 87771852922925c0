import Capsule.Analysis.Runs

/-!
# What readers see

Three laws of reading, for every sequence of puts to a new engine.

* Where the timestamps of every key increase, a get returns the payload of the last put to its
  key (`get_returns_last_put`).
* In any order of timestamps, a get returns a newest payload of its key exactly as long as no
  put brings a stale version of a key that has left the memory table (`newest_wins_iff_fresh`):
  the memory table compares timestamps with its own version only, and a reader stops at the
  memory table.
* Where timestamps do not decrease, a put of another key changes what a get returns exactly when
  it sets off a compaction that merges the visible version with an equally stamped one
  (`put_visible_iff_merges_tie`): of two such versions `merge` keeps the one of its second list,
  and `compactHelper` passes the newer run as the first.
-/

set_option autoImplicit false

namespace Capsule.Analysis

open Library Program Interface

variable {S : BlockStore} {B : ℕ} {w w' : World S} {ps pre : List KvsPayload} {p : KvsPayload}
  {k : Str}

/-- What a get returns after a sequence of puts to a new engine; nothing if something throws. -/
def answer (S : BlockStore) (B : ℕ) (d : S.Disk) (ps : List KvsPayload) (k : Str) :
    Option KvsPayload :=
  match (CapsuleDB.puts ps >>= fun _ => CapsuleDB.get k) (spawnDB B d : World S) with
  | .ok a _ => some a
  | .error _ _ => none

/-- The gets return what is at the top of the column of the key. -/
theorem answers_of_top {qs : List KvsPayload} (hw : Inv S B w) (h : RunInv ps w) (hw' : Inv S B w')
    (h' : RunInv qs w') (hk : k ≠ []) {R : KvsPayload → KvsPayload → Prop}
    (hR : R ((column w k).top.getD notFound) ((column w' k).top.getD notFound)) :
    Answers k w w' R := by
  refine (get_run hw h hk).mono ?_ fun _ _ he => he
  rintro a - rfl
  refine (get_run hw' h' hk).mono ?_ fun _ _ he => he
  rintro a' - rfl
  exact hR

/-! ## Timestamps that increase: the last put is read -/

/-- The last put to a key. -/
def lastPut (k : Str) (ps : List KvsPayload) : Option KvsPayload :=
  ps.reverse.find? fun p => p.key = k

/-- The last put to a key is the only one that is as new as itself. -/
theorem eq_of_lastPut (h : Increasing ps) (hp : lastPut k ps = some p) {x : KvsPayload}
    (hx : x ∈ ps) (hxk : x.key = k) (hle : p.txn_timestamp ≤ x.txn_timestamp) : x = p := by
  obtain ⟨hpk, after, before, hps, hafter⟩ := List.find?_eq_some_iff_append.mp hp
  have hpk' : p.key = k := by simpa using hpk
  obtain rfl : ps = before.reverse ++ p :: after.reverse := by
    rw [← List.reverse_reverse ps, hps]
    simp
  rcases List.mem_append.mp hx with hx | hx
  · have hlt := (List.pairwise_append.mp h).2.2 x hx p (by simp) (hxk.trans hpk'.symm)
    exact absurd hle hlt.not_ge
  · rcases List.mem_cons.mp hx with rfl | hx
    · rfl
    · have := hafter x (List.mem_reverse.mp hx)
      simp [hxk] at this

/-- The last put of a key is a put of this key. -/
theorem lastPut_mem (hp : lastPut k ps = some p) : p ∈ ps ∧ p.key = k :=
  ⟨List.mem_reverse.mp (List.mem_of_find?_eq_some hp), by simpa using List.find?_some hp⟩

/-- Without a last put of a key there is none. -/
theorem lastPut_eq_none (h : lastPut k ps = none) : ∀ p ∈ ps, p.key ≠ k := by
  intro p hp
  simpa using List.find?_eq_none.mp h p (List.mem_reverse.mpr hp)

/-- Where what is stored was put, and of every put something at least as new is stored in order, the
top version is that of the last put, if the timestamps increase. -/
theorem top_eq_lastPut (hsource : ∀ x, (column w k).Holds x → x ∈ ps ∧ x.key = k)
    (hretains : ∀ p ∈ ps, p.key = k →
      ∃ y, (column w k).Holds y ∧ p.txn_timestamp ≤ y.txn_timestamp)
    (hsh : (column w k).Shadowed) (ho : OrderedAt w k) (hts : Increasing ps) :
    (column w k).top = lastPut k ps := by
  cases hlast : lastPut k ps with
  | none =>
    rw [Option.eq_none_iff_forall_ne_some]
    intro x hx
    obtain ⟨hmem, hxk⟩ := hsource x (Column.top_holds hx)
    exact lastPut_eq_none hlast x hmem hxk
  | some p =>
    obtain ⟨hmem, hpk⟩ := lastPut_mem hlast
    obtain ⟨y, hy, hle⟩ := hretains p hmem hpk
    obtain ⟨x, hx⟩ := Column.top_isSome hy
    obtain ⟨hxmem, hxk⟩ := hsource x (Column.top_holds hx)
    rw [hx, eq_of_lastPut hts hlast hxmem hxk (hle.trans (Column.top_newest ho hsh hx hy))]

/-- With timestamps that increase the top version is that of the last put. -/
theorem RunInv.top_eq_lastPut (h : RunInv ps w) (hts : Increasing ps) (ho : OrderedAt w k) :
    (column w k).top = lastPut k ps :=
  Analysis.top_eq_lastPut (h.source k) (fun p hp hpk => hpk ▸ h.retains p hp) (h.shadowed k) ho hts

/-- **Read your last write.**  After any sequence of puts in which the timestamps of every key
increase, a get returns the payload of the last put to its key, or a payload with an empty key
if there was none.  The only faults are those of the block store and of the capacities, for
which `hmax` says that the one of L0 fits an `int`. -/
theorem get_returns_last_put (hB : 1 ≤ B) (hmax : 2 * B < 2 ^ 31) (d : S.Disk)
    (ps : List KvsPayload) (hts : Increasing ps) (k : Str) (hk : k ≠ []) :
    Outcome
      (fun a _ =>
        match lastPut k ps with
        | some p => a = p
        | none => a.key = [])
      Assumed ((CapsuleDB.puts ps >>= fun _ => CapsuleDB.get k) (spawnDB B d)) := by
  have hrun := puts_ordered hB hmax d ps (fun _ => True) fun pre p w w' hat _ =>
    fresh_of_nonDecreasing hts.nonDecreasing hat.initial w
  apply hrun.bind (fun _ _ he => he)
  rintro - w ⟨hw, h, ho⟩
  refine (get_run hw h hk).mono ?_ fun _ _ he => Or.inl he
  rintro a - rfl
  rw [h.top_eq_lastPut hts (ho k trivial)]
  cases lastPut k ps <;> rfl

/-- The law at a run in which each version of the key leaves the memory table. -/
theorem get_returns_last_put_sample :
    Outcome
      (fun a _ =>
        match lastPut [107] sampleRun with
        | some p => a = p
        | none => a.key = [])
      Assumed
      ((CapsuleDB.puts sampleRun >>= fun _ => CapsuleDB.get [107])
        (spawnDB 1 [] : World memoryStore)) :=
  get_returns_last_put (S := memoryStore) (B := 1) (by decide) (by decide) [] sampleRun
    (by unfold sampleRun; decide) [107] (by decide)

/-! ## Timestamps in any order: the newest is read -/

/-- The payload is a newest one of the puts to the key. -/
def NewestOf (ps : List KvsPayload) (k : Str) (a : KvsPayload) : Prop :=
  (a ∈ ps ∧ a.key = k) ∧ ∀ q ∈ ps, q.key = k → q.txn_timestamp ≤ a.txn_timestamp

/-- Every get of a key that was put returns a newest payload of the key. -/
def ReadsNewest (ps : List KvsPayload) (w : World S) : Prop :=
  ∀ k, k ≠ [] → (∃ q ∈ ps, q.key = k) →
    Outcome (fun a _ => NewestOf ps k a) ReadFault (CapsuleDB.get k w)

/-- A newer version of the key was put before. -/
def Stale (pre : List KvsPayload) (p : KvsPayload) : Prop :=
  ∃ q ∈ pre, q.key = p.key ∧ p.txn_timestamp < q.txn_timestamp

/-- A put that is not fresh is stale, and its key is not in the memory table. -/
theorem not_fresh_iff : ¬ Fresh pre p w ↔ w.memtable.memtable.find? p.key = none ∧ Stale pre p := by
  simp [Fresh, Stale]

/-- Where the versions of a key are in order, a get of it returns a newest payload. -/
theorem get_newest (hw : Inv S B w) (h : RunInv ps w) (hk : k ≠ []) (ho : OrderedAt w k)
    (hput : ∃ q ∈ ps, q.key = k) :
    Outcome (fun a _ => NewestOf ps k a) ReadFault (CapsuleDB.get k w) := by
  refine (get_run hw h hk).mono ?_ fun _ _ he => he
  rintro a - rfl
  obtain ⟨q, hq, rfl⟩ := hput
  obtain ⟨x, hx, hmem, hxk⟩ := h.top_of_mem hq
  rw [hx]
  exact ⟨⟨hmem, hxk⟩, fun r hr hrk => h.top_newest ho hx hr hrk⟩

/-- A stale put of a key in the memory table changes nothing that is stored for the key. -/
theorem column_eq_of_stale (h : RunInv ps w) (ho : OrderedAt w p.key) (hf : Fresh ps p w)
    (hst : Stale ps p) (hp : PutDone S B p w w') : column w' p.key = column w p.key := by
  obtain ⟨q, hq, hqk, hlt⟩ := hst
  have hmem : w.memtable.memtable.find? p.key ≠ none := fun hnone =>
    not_fresh_iff.mpr ⟨hnone, q, hq, hqk, hlt⟩ hf
  obtain ⟨m, hm⟩ := Option.ne_none_iff_exists'.mp hmem
  have hcol : (column w p.key).mem = some m := hm
  have htop : (column w p.key).top = some m := by rw [Column.top, hcol, Option.some_or]
  have hle := h.top_newest ho htop hq hqk
  exact (hp.put p.key).eq_of_le (versionFor_eq_some.mpr ⟨rfl, rfl⟩) hcol (hlt.le.trans hle)

/-- A put that is not fresh is what the next get returns. -/
theorem get_of_not_fresh (hw' : Inv S B w') (hp : PutDone S B p w w') (hk : p.key ≠ [])
    (hf : ¬ Fresh pre p w) : CapsuleDB.get p.key w' = .ok p w' := by
  have hmem : (column w p.key).mem = none := (not_fresh_iff.mp hf).1
  have hnew := (hp.put p.key).mem_new (versionFor_eq_some.mpr ⟨rfl, rfl⟩) hmem
  exact get_of_mem hw' hnew hk

/-- **When the newest timestamp wins.**  In a sequence of puts with timestamps in any order,
every get after every part of the sequence returns a newest payload, and a put that is older than
one before it changes no get of its key, exactly if each put of a non-empty key is fresh: its key
is in the memory table, or no put before it to the key was newer. -/
theorem newest_wins_iff_fresh (hB : 1 ≤ B) (hmax : 2 * B < 2 ^ 31) (d : S.Disk)
    (ps : List KvsPayload) :
    ((∀ (pre : List KvsPayload) (w : World S), pre <+: ps →
        CapsuleDB.puts pre (spawnDB B d) = .ok () w → ReadsNewest pre w) ∧
      ∀ pre p w w', PutAt S B d ps pre p w w' → p.key ≠ [] → Stale pre p →
        Answers p.key w w' fun a a' => a' = a) ↔
    ∀ pre p w w', PutAt S B d ps pre p w w' → p.key ≠ [] → Fresh pre p w := by
  constructor
  · rintro ⟨hnewest, -⟩ pre p w w' hat hk
    by_contra hf
    obtain ⟨hw, -⟩ := (puts_runInv hB hmax d pre).of_ok hat.before
    have hp := (put_spec hB hw p).of_ok hat.after
    -- the next get returns the stale payload
    have hget := hnewest _ w' hat.initial hat.run p.key hk ⟨p, by simp, rfl⟩
    rw [get_of_not_fresh hp.inv hp hk hf] at hget
    obtain ⟨-, q, hq, hqk, hlt⟩ := not_fresh_iff.mp hf
    exact absurd (hget.2 q (by simp [hq]) hqk) hlt.not_ge
  · intro hfresh
    have hordered : ∀ (pre : List KvsPayload) (w : World S), pre <+: ps →
        CapsuleDB.puts pre (spawnDB B d) = .ok () w →
        Inv S B w ∧ RunInv pre w ∧ ∀ k, k ≠ [] → OrderedAt w k := fun pre w hpre hrun =>
      (puts_ordered hB hmax d pre (fun k => k ≠ []) fun pre' p w₁ w₂ hat =>
        hfresh pre' p w₁ w₂ { hat with initial := hat.initial.trans hpre }).of_ok hrun
    refine ⟨fun pre w hpre hrun k hk hput => ?_, fun pre p w w' hat hk hst => ?_⟩
    · obtain ⟨hw, h, ho⟩ := hordered pre w hpre hrun
      exact get_newest hw h hk (ho k hk) hput
    · obtain ⟨hw, h, ho⟩ := hordered pre w ((List.prefix_append _ _).trans hat.initial) hat.before
      have hp := (put_spec hB hw p).of_ok hat.after
      apply answers_of_top hw h hp.inv (h.step hp) hk
      rw [column_eq_of_stale h (ho _ hk) (hfresh pre p w w' hat hk) hst hp]

/-- A put of a key, a flush, and an older put of the same key. -/
def staleRun : List KvsPayload := [sample 107 1 5, sample 97 1 1, sample 107 2 3]

/-- The theorem at a run that flushes between two puts of a key. -/
theorem newest_wins_iff_fresh_sample :
    ((∀ (pre : List KvsPayload) (w : World memoryStore), pre <+: staleRun →
        CapsuleDB.puts pre (spawnDB 1 []) = .ok () w → ReadsNewest pre w) ∧
      ∀ pre p w w', PutAt memoryStore 1 [] staleRun pre p w w' →
        p.key ≠ [] → Stale pre p → Answers p.key w w' fun a a' => a' = a) ↔
    ∀ pre p w w', PutAt memoryStore 1 [] staleRun pre p w w' → p.key ≠ [] → Fresh pre p w :=
  newest_wins_iff_fresh (S := memoryStore) (B := 1) (by decide) (by decide) [] staleRun

/-- A put with timestamp 3 hides the version with timestamp 5, which a flush has moved to L0. -/
theorem stale_put_is_read :
    answer memoryStore 2 [] [sample 107 1 5, sample 97 1 1, sample 98 1 1] [107] =
      some (sample 107 1 5) ∧
    answer memoryStore 2 [] [sample 107 1 5, sample 97 1 1, sample 98 1 1, sample 107 2 3] [107] =
      some (sample 107 2 3) := by
  decide

/-! ## Equal timestamps: what a compaction changes -/

/-- A put of another key that fills the memory table merges the visible version of `k` with an
equally stamped, different one: the levels hand down the blocks that `selectBlocks` picks. -/
def MergesTie (B : ℕ) (w : World S) (k : Str) : Prop :=
  (column w k).MergesTie KvsPayload.txn_timestamp
    (handedOnFlush B w.memtable.memtable (indexState w) k)

/-- Two gets return the same payload if they find the same version. -/
theorem getD_notFound_eq_iff {a b : Option KvsPayload} (ha : ∀ x, a = some x → x.key ≠ [])
    (hb : ∀ x, b = some x → x.key ≠ []) : a.getD notFound = b.getD notFound ↔ a = b := by
  refine ⟨fun h => ?_, fun h => by rw [h]⟩
  cases a with
  | none =>
    cases b with
    | none => rfl
    | some y => exact absurd (congrArg KvsPayload.key h).symm (hb y rfl)
  | some x =>
    cases b with
    | none => exact absurd (congrArg KvsPayload.key h) (ha x rfl)
    | some y => exact congrArg some h

/-- What a reader of another key finds changes exactly by a compaction that merges a tie. -/
theorem top_eq_iff (h : RunInv ps w) (ho : OrderedAt w k) (hp : PutDone S B p w w')
    (hpk : p.key ≠ k) :
    (column w' k).top = (column w k).top ↔ ¬ (Compacts w p ∧ MergesTie B w k) := by
  by_cases hc : Compacts w p
  · rw [(hp.compacted hc k hpk).top_eq_iff ho (h.shadowed k), MergesTie]
    simp [hc]
  · simp [hc, hp.quiet hc k hpk]

/-- **When a put of another key is visible.**  After any sequence of puts in which the timestamps
of every key do not decrease, a further put that keeps this order leaves what a get of another
key returns as it was, exactly if it does not set off a compaction that merges the visible
version of that key with an equally stamped, different one. -/
theorem put_visible_iff_merges_tie (hB : 1 ≤ B) (hmax : 2 * B < 2 ^ 31) (d : S.Disk)
    (ps : List KvsPayload) (p : KvsPayload) (hts : NonDecreasing (ps ++ [p])) (k : Str)
    (hk : k ≠ []) (hpk : p.key ≠ k) :
    Outcome
      (fun _ w => Outcome
        (fun _ w' => Answers k w w' fun a a' => a' = a ↔ ¬ (Compacts w p ∧ MergesTie B w k))
        Assumed (CapsuleDB.put p w))
      Assumed (CapsuleDB.puts ps (spawnDB B d)) := by
  have hts' : NonDecreasing ps := (List.pairwise_append.mp hts).1
  have hrun := puts_ordered hB hmax d ps (fun _ => True) fun pre p w w' hat _ =>
    fresh_of_nonDecreasing hts' hat.initial w
  refine hrun.mono ?_ fun _ _ he => he
  rintro - w ⟨hw, h, ho⟩
  refine (put_spec hB hw p).mono ?_ fun _ _ he => he.assumed
  rintro - w' hp
  have h' := h.step hp
  apply answers_of_top hw h hp.inv h' hk
  rw [← top_eq_iff h (ho k trivial) hp hpk]
  exact getD_notFound_eq_iff (fun x hx => (h'.source k x (Column.top_holds hx)).2.symm ▸ hk)
    fun x hx => (h.source k x (Column.top_holds hx)).2.symm ▸ hk

/-- A run that stores two versions of the key `107` with one timestamp. -/
@[irreducible] def sampleTies : List KvsPayload :=
  [sample 107 1 5, sample 97 1 1, sample 107 2 5, sample 98 1 1]

/-- The theorem at a run with two equal timestamps. -/
theorem put_visible_iff_merges_tie_sample :
    Outcome
      (fun _ w => Outcome
        (fun _ w' => Answers [107] w w' fun a a' =>
          a' = a ↔ ¬ (Compacts w (sample 99 1 1) ∧ MergesTie 1 w [107]))
        Assumed (CapsuleDB.put (sample 99 1 1) w))
      Assumed (CapsuleDB.puts sampleTies (spawnDB 1 [] : World memoryStore)) :=
  put_visible_iff_merges_tie (S := memoryStore) (B := 1) (by decide) (by decide) [] sampleTies
    (sample 99 1 1) (by unfold sampleTies; decide) [107] (by decide) (by decide)

/-- Of two versions with one timestamp the older comes back when a put of another key compacts. -/
theorem older_version_comes_back :
    NonDecreasing [sample 107 1 5, sample 97 1 1, sample 107 2 5, sample 98 1 1, sample 99 1 1] ∧
    answer memoryStore 1 [] [sample 107 1 5, sample 97 1 1, sample 107 2 5, sample 98 1 1] [107] =
      some (sample 107 2 5) ∧
    answer memoryStore 1 []
      [sample 107 1 5, sample 97 1 1, sample 107 2 5, sample 98 1 1, sample 99 1 1] [107] =
      some (sample 107 1 5) := by
  decide +kernel

end Capsule.Analysis
