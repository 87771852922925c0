import Capsule.Analysis.Get

/-!
# Runs of puts

`puts_run` lifts the step lemma of a put to sequences of puts: what holds of a new engine and is
kept by every put holds after the whole sequence, whatever the sequence.  The faults that are
assumed away are the block store (`io`) and a capacity that does not fit an `int` (`overflow`); no
other fault can occur, and nothing but the block store throws `io` (`Analysis.FaultSource`).

`RunInv` is what every sequence keeps, in any order of timestamps: the invariant of the engine,
at most one block in L0, and that what is stored was put, while of every put something at least
as new is stored.  `OrderedAt` is kept as long as a put of a key that is not in the memory table
is no older than what is stored for the key (`Fresh`).
-/

set_option autoImplicit false

namespace Capsule.Analysis

open Library Program Interface

variable {S : BlockStore} {B : ℕ} {w w' : World S} {ps pre : List KvsPayload}
  {p : KvsPayload} {k : Str}

/-- The faults that are assumed away: the block store fails, or a capacity does not fit. -/
def Assumed (e : Fault) (_ : World S) : Prop := e = .io ∨ e = .overflow

/-- The only fault of a get: a block cannot be read. -/
def ReadFault (e : Fault) (_ : World S) : Prop := e = .io

/-- A fault of a put is one that a run may have. -/
theorem PutFault.assumed {e : Fault} (h : PutFault S B w e w') : Assumed e w' :=
  h.elim Or.inr fun h => Or.inl h.1

/-- A sequence of puts is run piece by piece. -/
theorem puts_append (ps qs : List KvsPayload) :
    (CapsuleDB.puts (ps ++ qs) : EngineM S Unit) =
      CapsuleDB.puts ps >>= fun _ => CapsuleDB.puts qs := by
  induction ps with
  | nil => rw [List.nil_append, CapsuleDB.puts, pure_bind]
  | cons p ps ih => rw [List.cons_append, CapsuleDB.puts, CapsuleDB.puts, ih, bind_assoc]

/-- A sequence of one put. -/
theorem puts_singleton (p : KvsPayload) :
    (CapsuleDB.puts [p] : EngineM S Unit) = CapsuleDB.put p := by
  simp only [CapsuleDB.puts]
  exact bind_pure_unit

/-- The sequence `ps` starts with `pre` and `p`; the puts `pre` lead from a new engine to `w`, and
the put of `p` from there to `w'`. -/
structure PutAt (S : BlockStore) (B : ℕ) (d : S.Disk) (ps pre : List KvsPayload) (p : KvsPayload)
    (w w' : World S) : Prop where
  initial : pre ++ [p] <+: ps
  before : CapsuleDB.puts pre (spawnDB B d) = .ok () w
  after : CapsuleDB.put p w = .ok () w'

/-- The run up to and with the put. -/
theorem PutAt.run {d : S.Disk} {pre : List KvsPayload} (h : PutAt S B d ps pre p w w') :
    CapsuleDB.puts (pre ++ [p]) (spawnDB B d) = .ok () w' := by
  have hrun : Outcome (fun _ s => s = w') (fun _ _ => False)
      (CapsuleDB.puts (pre ++ [p]) (spawnDB B d)) := by
    rw [puts_append, puts_singleton]
    refine Outcome.bind (Q := fun _ s => s = w) (E := fun _ _ => False) ?_ (fun _ _ he => he) ?_
    · rw [h.before]
      exact rfl
    · rintro - s rfl
      rw [h.after]
      exact rfl
  cases hr : CapsuleDB.puts (pre ++ [p]) (spawnDB B d) with
  | ok a s => rw [hrun.of_ok hr]
  | error e s => exact (hrun.of_error hr).elim

/-- **Runs, with their faults**: what a new engine has and every put of the sequence keeps holds
after the sequence, and a fault is one of a put in a state that a part of the sequence led to.  The
step may use how its state was reached. -/
theorem puts_outcome (hB : 1 ≤ B) (hmax : 2 * B < 2 ^ 31) (d : S.Disk)
    {P : List KvsPayload → World S → Prop} {E : Fault → World S → Prop} (h0 : P [] (spawnDB B d))
    (ps : List KvsPayload)
    (hstep : ∀ pre p w w', PutAt S B d ps pre p w w' → Inv S B w → P pre w → PutDone S B p w w' →
      P (pre ++ [p]) w')
    (hfault : ∀ pre p w e w', pre ++ [p] <+: ps → Inv S B w → P pre w → PutFailure S B w e w' →
      E e w') :
    Outcome (fun _ w => Inv S B w ∧ P ps w) E (CapsuleDB.puts ps (spawnDB B d)) := by
  induction ps using List.reverseRecOn with
  | nil => exact Outcome.pure ⟨Inv.spawnDB hmax d, h0⟩
  | append_singleton pre p ih =>
    have hext : ∀ {l : List KvsPayload}, l <+: pre → l <+: pre ++ [p] := fun h =>
      h.trans (List.prefix_append _ _)
    have hpre := ih (fun pre' p' w w' hat =>
      hstep pre' p' w w' { hat with initial := hext hat.initial })
      fun pre' p' w e w' hat => hfault pre' p' w e w' (hext hat)
    rw [puts_append, puts_singleton]
    apply (hpre.and (Outcome.self _)).bind (fun _ _ he => he.1)
    rintro ⟨⟩ w ⟨⟨hw, hP⟩, hrun⟩
    refine ((put_outcome hB hw p).and (Outcome.self _)).mono ?_ fun e w' he =>
      hfault pre p w e w' (List.prefix_refl _) hw hP he.1
    rintro ⟨⟩ w' ⟨hdone, hput⟩
    exact ⟨hdone.inv, hstep pre p w w' ⟨List.prefix_refl _, hrun, hput⟩ hw hP hdone⟩

/-- **Runs**: what a new engine has and every put of the sequence keeps holds after the sequence. -/
theorem puts_run (hB : 1 ≤ B) (hmax : 2 * B < 2 ^ 31) (d : S.Disk)
    {P : List KvsPayload → World S → Prop} (h0 : P [] (spawnDB B d)) (ps : List KvsPayload)
    (hstep : ∀ pre p w w', PutAt S B d ps pre p w w' → Inv S B w → P pre w → PutDone S B p w w' →
      P (pre ++ [p]) w') :
    Outcome (fun _ w => Inv S B w ∧ P ps w) Assumed (CapsuleDB.puts ps (spawnDB B d)) :=
  puts_outcome hB hmax d h0 ps hstep fun _ _ _ _ _ _ _ _ he => he.weaken.assumed

/-! ## What every run keeps -/

/-- What holds after any sequence of puts: L0 has at most one block, what is stored was put, and of
every put something at least as new is stored. -/
structure RunInv (ps : List KvsPayload) (w : World S) : Prop where
  calm : (headersAt (indexState w) 0).length ≤ 1
  source : ∀ k x, (column w k).Holds x → x ∈ ps ∧ x.key = k
  retains : ∀ p ∈ ps, ∃ y, (column w p.key).Holds y ∧ p.txn_timestamp ≤ y.txn_timestamp
  shadowed : ∀ k, (column w k).Shadowed

/-- A new engine holds no version. -/
theorem column_spawnDB (d : S.Disk) (k : Str) :
    column (spawnDB B d) k = ⟨none, [], fun _ => none⟩ := by
  unfold column columnOf
  congr 1
  funext i
  rw [levelRun, headersAt_of_length_le (by
    simp only [indexState, spawnDB, CapsuleIndex.new, List.length_singleton]
    omega)]
  rfl

/-- The invariant of runs holds of a new engine. -/
theorem RunInv.spawnDB (d : S.Disk) : RunInv [] (spawnDB B d : World S) := by
  refine ⟨Nat.zero_le 1, fun k x hx => ?_, by simp, fun k => ?_⟩
  · rw [column_spawnDB] at hx
    rcases hx with hx | hx | ⟨i, hx⟩ <;> simp at hx
  · rw [column_spawnDB]
    exact fun _ a ha => by simp at ha

/-- **One put keeps what every run keeps.** -/
theorem RunInv.step (h : RunInv ps w) (hp : PutDone S B p w w') : RunInv (ps ++ [p]) w' := by
  refine ⟨hp.calm h.calm, fun k x hx => ?_, fun q hq => ?_,
    fun k => (hp.put k).shadowed (h.shadowed k)⟩
  · rcases (hp.put k).source hx with hx | hx
    · have hsrc := h.source k x hx
      exact ⟨by simp [hsrc.1], hsrc.2⟩
    · obtain ⟨rfl, hk⟩ := versionFor_eq_some.mp hx
      exact ⟨by simp, hk⟩
  · rcases List.mem_append.mp hq with hq | hq
    · obtain ⟨y, hy, hle⟩ := h.retains q hq
      obtain ⟨z, hz, hle'⟩ := (hp.put q.key).retains hy
      exact ⟨z, hz, hle.trans hle'⟩
    · rw [List.mem_singleton.mp hq]
      exact (hp.put p.key).retains_new (versionFor_eq_some.mpr ⟨rfl, rfl⟩)

/-- Every sequence of puts, in any order of timestamps. -/
theorem puts_runInv (hB : 1 ≤ B) (hmax : 2 * B < 2 ^ 31) (d : S.Disk) (ps : List KvsPayload) :
    Outcome (fun _ w => Inv S B w ∧ RunInv ps w) Assumed (CapsuleDB.puts ps (spawnDB B d)) :=
  puts_run hB hmax d (RunInv.spawnDB d) ps fun _ _ _ _ _ _ h hp => h.step hp

/-! ## Runs that put no stale version -/

/-- The put is no older than the puts before it to its key, or its key is in the memory table,
where the timestamps are compared. -/
def Fresh (pre : List KvsPayload) (p : KvsPayload) (w : World S) : Prop :=
  (w.memtable.memtable.find? p.key).isSome ∨
  ∀ q ∈ pre, q.key = p.key → q.txn_timestamp ≤ p.txn_timestamp

/-- For the key `k`, a version read before another is at least as new. -/
def OrderedAt (w : World S) (k : Str) : Prop := (column w k).Ordered KvsPayload.txn_timestamp

/-- The versions of a new engine are ordered. -/
theorem OrderedAt.spawnDB (d : S.Disk) (k : Str) : OrderedAt (spawnDB B d : World S) k := by
  unfold OrderedAt
  rw [column_spawnDB]
  exact ⟨by simp, by simp, by simp, by simp⟩

/-- **A fresh put keeps the order of the places.** -/
theorem OrderedAt.step {k : Str} (ho : OrderedAt w k) (h : RunInv ps w)
    (hf : p.key = k → Fresh ps p w) (hp : PutDone S B p w w') : OrderedAt w' k := by
  apply (hp.put k).ordered ho
  intro x hx hmem y hy
  obtain ⟨rfl, rfl⟩ := versionFor_eq_some.mp hx
  rcases hf rfl with hsome | hall
  · rw [show w.memtable.memtable.find? p.key = none from hmem] at hsome
    simp at hsome
  · obtain ⟨hput, hkey⟩ := h.source _ y hy
    exact hall y hput hkey

/-- **Every run of fresh puts** to a key keeps its versions in order. -/
theorem puts_ordered (hB : 1 ≤ B) (hmax : 2 * B < 2 ^ 31) (d : S.Disk) (ps : List KvsPayload)
    (keys : Str → Prop)
    (hf : ∀ pre p w w', PutAt S B d ps pre p w w' → keys p.key → Fresh pre p w) :
    Outcome (fun _ w => Inv S B w ∧ RunInv ps w ∧ ∀ k, keys k → OrderedAt w k) Assumed
      (CapsuleDB.puts ps (spawnDB B d)) := by
  refine puts_run hB hmax d (P := fun ps w => RunInv ps w ∧ ∀ k, keys k → OrderedAt w k)
    ⟨RunInv.spawnDB d, fun k _ => OrderedAt.spawnDB d k⟩ ps ?_
  intro pre p w w' hat _ ⟨h, ho⟩ hp
  refine ⟨h.step hp, fun k hk => (ho k hk).step h (fun hpk => ?_) hp⟩
  exact hf pre p w w' hat (hpk ▸ hk)

/-- What a get returns after a run: the top of the column of its key. -/
theorem get_run (hw : Inv S B w) (h : RunInv ps w) {k : Str} (hk : k ≠ []) :
    Outcome (fun a _ => a = (column w k).top.getD notFound) ReadFault (CapsuleDB.get k w) := by
  refine (get_spec hw (Or.inl h.calm) hk).mono (fun a w' ha => ?_) fun _ _ he => he.1
  rw [ha.1, plainSearch_eq_top hw]

/-- A key that was put has a version, and the top one was put. -/
theorem RunInv.top_of_mem (h : RunInv ps w) (hp : p ∈ ps) :
    ∃ x, (column w p.key).top = some x ∧ x ∈ ps ∧ x.key = p.key := by
  obtain ⟨y, hy, _⟩ := h.retains p hp
  obtain ⟨x, hx⟩ := Column.top_isSome hy
  exact ⟨x, hx, h.source _ x (Column.top_holds hx)⟩

/-- In an ordered column the top version is at least as new as every put of the key. -/
theorem RunInv.top_newest (h : RunInv ps w) {k : Str} (ho : OrderedAt w k) {x q : KvsPayload}
    (hx : (column w k).top = some x) (hq : q ∈ ps) (hqk : q.key = k) :
    q.txn_timestamp ≤ x.txn_timestamp := by
  subst hqk
  obtain ⟨y, hy, hle⟩ := h.retains q hq
  exact hle.trans (Column.top_newest ho (h.shadowed _) hx hy)

/-! ## Runs with timestamps in order -/

/-- The puts to each key carry increasing timestamps. -/
def Increasing (ps : List KvsPayload) : Prop :=
  ps.Pairwise fun p q => p.key = q.key → p.txn_timestamp < q.txn_timestamp

/-- The puts to each key carry timestamps that do not decrease. -/
def NonDecreasing (ps : List KvsPayload) : Prop :=
  ps.Pairwise fun p q => p.key = q.key → p.txn_timestamp ≤ q.txn_timestamp

instance (ps : List KvsPayload) : Decidable (Increasing ps) :=
  inferInstanceAs
    (Decidable (ps.Pairwise fun p q => p.key = q.key → p.txn_timestamp < q.txn_timestamp))

instance (ps : List KvsPayload) : Decidable (NonDecreasing ps) :=
  inferInstanceAs
    (Decidable (ps.Pairwise fun p q => p.key = q.key → p.txn_timestamp ≤ q.txn_timestamp))

/-- Timestamps that increase do not decrease. -/
theorem Increasing.nonDecreasing (h : Increasing ps) : NonDecreasing ps :=
  h.imp fun hlt hk => (hlt hk).le

/-- In a run with timestamps that do not decrease every put is fresh. -/
theorem fresh_of_nonDecreasing (h : NonDecreasing ps) (hpre : pre ++ [p] <+: ps) (w : World S) :
    Fresh pre p w := by
  apply Or.inr
  intro q hq hqk
  exact (List.pairwise_append.mp (h.sublist hpre.sublist)).2.2 q hq p (by simp) hqk

/-! ## Two gets compared -/

/-- What the gets of `k` return in `w` and in `w'` is related by `R`, unless a read fails. -/
def Answers (k : Str) (w w' : World S) (R : KvsPayload → KvsPayload → Prop) : Prop :=
  Outcome (fun a _ => Outcome (fun a' _ => R a a') ReadFault (CapsuleDB.get k w')) ReadFault
    (CapsuleDB.get k w)

/-! ## A run on fixed inputs -/

/-- Payloads with one-byte keys and values, for runs on fixed inputs. -/
def sample (key value : UInt8) (ts : Int64) : KvsPayload := ⟨[key], [value], ts, []⟩

/-- A run in which the key `107` is written twice, and each version leaves the memory table. -/
@[irreducible] def sampleRun : List KvsPayload :=
  [sample 107 1 1, sample 97 1 1, sample 107 2 2, sample 98 1 1]

end Capsule.Analysis
