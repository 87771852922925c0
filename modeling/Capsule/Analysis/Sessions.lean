import Capsule.Analysis.FaultLaws
import Capsule.Analysis.ReadLaws
import Capsule.Analysis.RelabelEngine
import Capsule.Library.Trace

/-!
# Sessions of the engine

A session is any sequence of puts and gets on a new engine, in which each of them returns or throws
because the block store fails.  What can be seen of it are its events.

What the engine is for is said by a map from keys to payloads (`MapStep`): a put that returns
assigns, a put that throws does nothing, a get looks up.  Every session of the engine with
increasing timestamps is one of the map (`sessions_refine_map`), whatever failed in between and
wherever the data has got to.

So neither the size of the memory table nor the block store shows in an answer (`engines_agree`).

The disk only gains blocks.  So an index and a memory table that were saved at any moment of a
session answer every get later as they would have done then (`snapshots_stay_readable`).
-/

set_option autoImplicit false

namespace Capsule.Analysis

open Library Program Interface

variable {S : BlockStore} {B : ℕ} {w w' : World S} {ps : List KvsPayload} {p : KvsPayload} {k : Str}
  {d : S.Disk}

/-! ## Sessions -/

/-- What can be seen of one operation. -/
inductive Event where
  /-- a put, and whether it returned -/
  | put (p : KvsPayload) (returned : Bool)
  /-- a get, and what it returned, if it did -/
  | get (k : Str) (answer : Option KvsPayload)
deriving DecidableEq

/-- The key an operation is about. -/
def Event.key : Event → Str
  | .put p _ => p.key
  | .get k _ => k

/-- One operation of the engine. -/
inductive EngineStep (S : BlockStore) : World S → Event → World S → Prop
  | put {w w' : World S} {p : KvsPayload} (h : CapsuleDB.put p w = .ok () w') :
      EngineStep S w (.put p true) w'
  | putFails {w w' : World S} {p : KvsPayload} (h : CapsuleDB.put p w = .error .io w') :
      EngineStep S w (.put p false) w'
  | get {w w' : World S} {k : Str} {a : KvsPayload} (h : CapsuleDB.get k w = .ok a w') :
      EngineStep S w (.get k (some a)) w'
  | getFails {w w' : World S} {k : Str} (h : CapsuleDB.get k w = .error .io w') :
      EngineStep S w (.get k none) w'

/-- The operation has returned. -/
def Event.returned : Event → Bool
  | .put _ returned => returned
  | .get _ answer => answer.isSome

/-- The payload an operation has put. -/
def Event.stores : Event → Option KvsPayload
  | .put p true => some p
  | _ => none

/-- The puts of a session that returned. -/
def donePuts (es : List Event) : List KvsPayload := es.filterMap Event.stores

/-- The puts of a session with one more event. -/
theorem donePuts_concat (es : List Event) (e : Event) :
    donePuts (es ++ [e]) = donePuts es ++ e.stores.toList := by
  unfold donePuts
  rw [List.filterMap_append]
  cases h : e.stores <;> simp [h]

/-- A put that returned is one more put. -/
theorem donePuts_put (es : List Event) (p : KvsPayload) :
    donePuts (es ++ [.put p true]) = donePuts es ++ [p] := donePuts_concat es _

/-- An event that stores nothing is no put. -/
theorem donePuts_of_stores {es : List Event} {e : Event} (h : e.stores = none) :
    donePuts (es ++ [e]) = donePuts es := by
  rw [donePuts_concat, h, Option.toList_none, List.append_nil]

/-- A session in which a compaction cannot read a block, and then a get. -/
@[irreducible] def sampleSession : List Event :=
  [.put (sample 107 1 1) true, .put (sample 97 1 1) true, .put (sample 98 1 1) false,
    .get [107] (some (sample 107 1 1))]

/-- The sample is a session: its last put fails in a compaction. -/
theorem run_sampleSession :
    ∃ w : World faultyStore,
      Run (EngineStep faultyStore) (spawnDB 1 ([], [false, false, true])) sampleSession w := by
  unfold sampleSession
  have h : Run (EngineStep faultyStore) (spawnDB 1 ([], [false, false, true]))
      [.put (sample 107 1 1) true] _ := Run.single (EngineStep.put rfl)
  have h₂ := h.snoc (EngineStep.put (p := sample 97 1 1) rfl)
  have h₃ := h₂.snoc (EngineStep.putFails (p := sample 98 1 1) rfl)
  exact ⟨_, h₃.snoc (EngineStep.get rfl)⟩

/-! ## What every session keeps, in any order of timestamps -/

/-- What an operation may do to the state: file a payload, take part in a compaction that fails, or
change nothing but the disk. -/
inductive Effect (S : BlockStore) (B : ℕ) (w : World S) : Event → World S → Prop
  | put {p : KvsPayload} {w' : World S} (h : PutDone S B p w w') : Effect S B w (.put p true) w'
  | putFails {p : KvsPayload} {w' : World S} (hw : Inv S B w') (hk : Keeps S.stored w.disk w'.disk)
      (h : ∀ k, Column.Fail KvsPayload.txn_timestamp (column w k) (column w' k)) :
      Effect S B w (.put p false) w'
  | get {k : Str} {a : Option KvsPayload} {w' : World S} (h : ReadOnly S w w') :
      Effect S B w (.get k a) w'

/-- **The effect of one operation.** -/
theorem EngineStep.effect (hB : 1 ≤ B) (hw : Inv S B w) {e : Event} (h : EngineStep S w e w') :
    Effect S B w e w' := by
  cases h with
  | @put _ p h => exact Effect.put ((put_outcome hB hw p).of_ok h)
  | @putFails _ p h =>
    rcases (put_outcome hB hw p).of_error h with ⟨he, -⟩ | ⟨-, hw', hk, -, hf⟩
    · simp at he
    · exact Effect.putFails hw' hk hf
  | @get _ k a h => exact Effect.get ((get_readOnly k w).of_ok h)
  | @getFails _ k h => exact Effect.get ((get_readOnly k w).of_error h)

/-- After a read the state is as before, but for the disk. -/
theorem inv_of_readOnly (hw : Inv S B w) (h : ReadOnly S w w') : Inv S B w' := by
  obtain ⟨d', rfl, hk⟩ := h
  obtain ⟨l, hl, ht⟩ := hw.top
  exact inv_withIndex hw (hw.indexOk.keeps hk) hl (ht.keeps hk)

/-- Reading keeps the versions. -/
theorem column_of_readOnly (hw : Inv S B w) (h : ReadOnly S w w') (k : Str) :
    column w' k = column w k := by
  obtain ⟨d', rfl, hk⟩ := h
  obtain ⟨l, hl, ht⟩ := hw.top
  exact columnOf_keeps hw.indexOk hl ht hk _ k

/-- An event keeps the invariant of the engine. -/
theorem Effect.inv {e : Event} (hw : Inv S B w) (h : Effect S B w e w') : Inv S B w' := by
  cases h with
  | put h => exact h.inv
  | putFails hw' => exact hw'
  | get h => exact inv_of_readOnly hw h

/-- An event keeps the blocks on the disk. -/
theorem Effect.keeps {e : Event} (h : Effect S B w e w') : Keeps S.stored w.disk w'.disk := by
  cases h with
  | put h => exact h.keeps
  | putFails _ hk => exact hk
  | get h =>
    obtain ⟨d', rfl, hk⟩ := h
    exact hk

/-- Nothing is stored that was not put. -/
theorem Effect.source {e : Event} (hw : Inv S B w) (h : Effect S B w e w') {x : KvsPayload}
    (hx : (column w' k).Holds x) : (column w k).Holds x ∨ (e.stores = some x ∧ x.key = k) := by
  cases h with
  | @put p w' h =>
    apply ((h.put k).source hx).imp_right
    intro hv
    obtain ⟨rfl, hk⟩ := versionFor_eq_some.mp hv
    exact ⟨rfl, hk⟩
  | putFails _ _ h => exact Or.inl ((h k).source hx)
  | get h => exact Or.inl (column_of_readOnly hw h k ▸ hx)

/-- What holds after every session. -/
structure SessionInv (S : BlockStore) (B : ℕ) (done : List KvsPayload) (w : World S) : Prop where
  inv : Inv S B w
  source : ∀ k x, (column w k).Holds x → x ∈ done ∧ x.key = k

/-- The invariant of sessions holds of a new engine. -/
theorem SessionInv.spawnDB (hmax : 2 * B < 2 ^ 31) (d : S.Disk) :
    SessionInv S B [] (spawnDB B d : World S) :=
  ⟨Inv.spawnDB hmax d, (RunInv.spawnDB d).source⟩

/-- **An operation keeps it.** -/
theorem SessionInv.step {es : List Event} {e : Event} (h : SessionInv S B (donePuts es) w)
    (he : Effect S B w e w') : SessionInv S B (donePuts (es ++ [e])) w' := by
  refine ⟨he.inv h.inv, fun k x hx => ?_⟩
  rw [donePuts_concat, List.mem_append, Option.mem_toList]
  rcases he.source h.inv hx with hold | ⟨hnew, hk⟩
  · exact (h.source k x hold).imp_left Or.inl
  · exact ⟨Or.inr hnew, hk⟩

/-- **Every session keeps it.** -/
theorem session_inv (hB : 1 ≤ B) (hmax : 2 * B < 2 ^ 31) {es : List Event}
    (h : Run (EngineStep S) (spawnDB B d) es w) : SessionInv S B (donePuts es) w :=
  h.invariant (P := fun es w => SessionInv S B (donePuts es) w) (SessionInv.spawnDB hmax d)
    fun _ _ _ _ _ _ hinv hstep => hinv.step (hstep.effect hB hinv.inv)

/-- Without empty keys every level can be searched. -/
theorem SessionInv.searchable {done : List KvsPayload} (h : SessionInv S B done w)
    (hkeys : ∀ p ∈ done, p.key ≠ []) : Searchable w :=
  searchable_of_keys h.inv fun k x hx => hkeys x (h.source k x hx).1

/-- What a get finds was put. -/
theorem SessionInv.get_mem {done : List KvsPayload} (h : SessionInv S B done w)
    (hkeys : ∀ p ∈ done, p.key ≠ []) (hk : k ≠ []) {a : KvsPayload}
    (hget : CapsuleDB.get k w = .ok a w') : a = notFound ∨ a ∈ done := by
  have ha := ((get_spec h.inv (h.searchable hkeys) hk).of_ok hget).1
  rw [plainSearch_eq_top h.inv] at ha
  cases htop : (column w k).top with
  | none =>
    rw [htop] at ha
    exact Or.inl ha
  | some x =>
    rw [htop] at ha
    exact Or.inr (ha ▸ (h.source k x (Column.top_holds htop)).1)

/-- Reading keeps the invariant of runs. -/
theorem RunInv.of_readOnly (h : RunInv ps w) (hw : Inv S B w) (hro : ReadOnly S w w') :
    RunInv ps w' := by
  have hcol := column_of_readOnly hw hro
  refine ⟨?_, fun k x => ?_, fun p hp => ?_, fun k => ?_⟩
  · obtain ⟨d', rfl, -⟩ := hro
    exact h.calm
  · rw [hcol k]
    exact h.source k x
  · rw [hcol p.key]
    exact h.retains p hp
  · rw [hcol k]
    exact h.shadowed k

/-- **A session in which everything returned** keeps what sequences of puts keep, in any order of
timestamps. -/
theorem session_runInv (hB : 1 ≤ B) (hmax : 2 * B < 2 ^ 31) {es : List Event}
    (h : Run (EngineStep S) (spawnDB B d) es w) (hreturned : ∀ e ∈ es, e.returned = true) :
    Inv S B w ∧ RunInv (donePuts es) w := by
  refine h.invariant (P := fun es w => Inv S B w ∧ RunInv (donePuts es) w)
    ⟨Inv.spawnDB hmax d, RunInv.spawnDB d⟩ ?_
  rintro pre e u v hpre - ⟨hu, hinv⟩ hstep
  have heff := hstep.effect hB hu
  refine ⟨heff.inv hu, ?_⟩
  cases heff with
  | put hp =>
    rw [donePuts_put]
    exact hinv.step hp
  | putFails =>
    have hlast := hreturned _ (hpre.subset (List.mem_append_right _ List.mem_cons_self))
    cases hlast
  | get hro =>
    rw [donePuts_of_stores rfl]
    exact hinv.of_readOnly hu hro

/-- **A get finds something of its key** if there is anything. -/
theorem RunInv.get_cases (h : RunInv ps w) (hw : Inv S B w) (hk : k ≠ []) {a : KvsPayload}
    (hget : CapsuleDB.get k w = .ok a w') :
    (a = notFound ∧ ∀ p ∈ ps, p.key ≠ k) ∨ (a ∈ ps ∧ a.key = k) := by
  have ha := (get_run hw h hk).of_ok hget
  cases htop : (column w k).top with
  | none =>
    rw [htop] at ha
    refine Or.inl ⟨ha, fun p hp hpk => ?_⟩
    obtain ⟨x, hx, -⟩ := h.top_of_mem hp
    rw [hpk, htop] at hx
    cases hx
  | some x =>
    rw [htop] at ha
    obtain rfl : a = x := ha
    exact Or.inr (h.source k a (Column.top_holds htop))

/-- The puts of a session are those that returned. -/
theorem mem_donePuts {es : List Event} : p ∈ donePuts es ↔ Event.put p true ∈ es := by
  unfold donePuts
  rw [List.mem_filterMap]
  constructor
  · rintro ⟨e, he, hp⟩
    cases e with
    | get k a => simp [Event.stores] at hp
    | put q returned =>
      cases returned with
      | false => simp [Event.stores] at hp
      | true =>
        obtain rfl := Option.some.inj hp
        exact he
  · intro h
    exact ⟨_, h, rfl⟩

/-- Where no operation is about the empty key, none is stored. -/
theorem donePuts_keys {es : List Event} (hkeys : ∀ e ∈ es, e.key ≠ []) :
    ∀ p ∈ donePuts es, p.key ≠ [] := by
  intro p hp
  exact hkeys _ (mem_donePuts.mp hp)

/-- **Sessions go on.**  After any session, whatever its keys and timestamps are and whatever has
failed, a put returns, or throws because the block store failed, or needs a level below a crowded
one whose capacity does not fit an `int`; a get returns or throws because a read failed. -/
theorem sessions_go_on (hB : 1 ≤ B) (hmax : 2 * B < 2 ^ 31) {es : List Event}
    (h : Run (EngineStep S) (spawnDB B d) es w) :
    (∀ p, Outcome (fun _ w' => EngineStep S w (.put p true) w')
      (fun e w' => (e = .io ∧ EngineStep S w (.put p false) w') ∨
        (e = .overflow ∧ Cramped B (indexState w)))
      (CapsuleDB.put p w)) ∧
    ∀ k, Outcome (fun a w' => EngineStep S w (.get k (some a)) w')
      (fun e w' => e = .io ∧ EngineStep S w (.get k none) w') (CapsuleDB.get k w) := by
  have hw := (session_inv hB hmax h).inv
  refine ⟨fun p => ?_, fun k => ?_⟩
  · have hput := put_outcome hB hw p
    cases hr : CapsuleDB.put p w with
    | ok a w' => exact EngineStep.put hr
    | error e w' =>
      rcases hput.of_error hr with ⟨rfl, hcramped, -⟩ | ⟨rfl, -⟩
      · exact Or.inr ⟨rfl, hcramped⟩
      · exact Or.inl ⟨rfl, EngineStep.putFails hr⟩
  · have hget := get_safe hw k
    cases hr : CapsuleDB.get k w with
    | ok a w' => exact EngineStep.get hr
    | error e w' =>
      obtain rfl := hget.of_error hr
      exact ⟨rfl, EngineStep.getFails hr⟩

/-- The theorem after a session with a failed put. -/
theorem sessions_go_on_sample :
    ∃ w : World faultyStore,
      (∀ p, Outcome (fun _ w' => EngineStep faultyStore w (.put p true) w')
        (fun e w' => (e = .io ∧ EngineStep faultyStore w (.put p false) w') ∨
          (e = .overflow ∧ Cramped 1 (indexState w)))
        (CapsuleDB.put p w)) ∧
      ∀ k, Outcome (fun a w' => EngineStep faultyStore w (.get k (some a)) w')
        (fun e w' => e = .io ∧ EngineStep faultyStore w (.get k none) w') (CapsuleDB.get k w) := by
  obtain ⟨w, h⟩ := run_sampleSession
  exact ⟨w, sessions_go_on (B := 1) (by decide) (by decide) h⟩

/-! ## Timestamps that increase: the engine is a map -/

/-- What holds after every session with increasing timestamps: of every put that returned something
at least as new is stored, and versions are in order. -/
structure CurrentInv (S : BlockStore) (B : ℕ) (done : List KvsPayload) (w : World S) : Prop extends
    AttemptInv S B done w where
  retains : ∀ p ∈ done, ∃ y, (column w p.key).Holds y ∧ p.txn_timestamp ≤ y.txn_timestamp

/-- The visible version of a key is its last put. -/
theorem CurrentInv.top_eq {done : List KvsPayload} (h : CurrentInv S B done w)
    (hts : Increasing done) (k : Str) : (column w k).top = lastPut k done :=
  top_eq_lastPut (h.source k) (fun p hp hpk => hpk ▸ h.retains p hp) (h.shadowed k)
    (h.ordered k) hts

/-- A get that returns finds the last put that returned. -/
theorem CurrentInv.get_eq {done : List KvsPayload} (h : CurrentInv S B done w)
    (hts : Increasing done) (hkeys : ∀ p ∈ done, p.key ≠ []) (hk : k ≠ []) {a : KvsPayload}
    (hget : CapsuleDB.get k w = .ok a w') : a = (lastPut k done).getD notFound := by
  have ha := ((get_spec h.inv (h.searchable hkeys) hk).of_ok hget).1
  rw [ha, plainSearch_eq_top h.inv, h.top_eq hts]

/-- What keeps the versions keeps the invariant of attempts. -/
theorem AttemptInv.of_column_eq {done : List KvsPayload} (h : AttemptInv S B done w)
    (hw' : Inv S B w') (hcol : ∀ k, column w' k = column w k) : AttemptInv S B done w' := by
  refine ⟨hw', fun k x => ?_, fun k => ?_, fun k => ?_⟩
  · rw [hcol k]
    exact h.source k x
  · rw [hcol k]
    exact h.shadowed k
  · unfold OrderedAt
    rw [hcol k]
    exact h.ordered k

/-- **An operation keeps it.** -/
theorem CurrentInv.step {es : List Event} {e : Event} (h : CurrentInv S B (donePuts es) w)
    (hts : Increasing (donePuts (es ++ [e]))) (he : Effect S B w e w') :
    CurrentInv S B (donePuts (es ++ [e])) w' := by
  cases he with
  | @put p w' hp =>
    rw [donePuts_put] at hts ⊢
    refine ⟨h.toAttemptInv.done hts hp, fun q hq => ?_⟩
    rcases List.mem_append.mp hq with hq | hq
    · obtain ⟨y, hy, hle⟩ := h.retains q hq
      obtain ⟨z, hz, hle'⟩ := (hp.put q.key).retains hy
      exact ⟨z, hz, hle.trans hle'⟩
    · obtain rfl := List.mem_singleton.mp hq
      exact (hp.put q.key).retains_new (versionFor_eq_some.mpr ⟨rfl, rfl⟩)
  | putFails hw' _ hf =>
    rw [donePuts_of_stores rfl] at hts ⊢
    refine ⟨h.toAttemptInv.kept hw' hf, fun q hq => ?_⟩
    -- a reader finds what it found before
    obtain ⟨y, hy, hle⟩ := h.retains q hq
    obtain ⟨x, hx⟩ := Column.top_isSome hy
    have htop := (hf q.key).top_eq (h.ordered q.key) (h.toAttemptInv.tieFree hts q.key)
    exact ⟨x, Column.top_holds (htop.trans hx),
      hle.trans (Column.top_newest (h.ordered q.key) (h.shadowed q.key) hx hy)⟩
  | get hro =>
    rw [donePuts_of_stores rfl]
    have hcol := column_of_readOnly h.inv hro
    refine ⟨h.toAttemptInv.of_column_eq (inv_of_readOnly h.inv hro) hcol, fun q hq => ?_⟩
    rw [hcol]
    exact h.retains q hq

/-- Everything is current in a new engine. -/
theorem CurrentInv.spawnDB (hmax : 2 * B < 2 ^ 31) (d : S.Disk) :
    CurrentInv S B [] (spawnDB B d : World S) :=
  have hnew : RunInv [] (Program.spawnDB B d : World S) := RunInv.spawnDB d
  ⟨⟨Inv.spawnDB hmax d, hnew.source, hnew.shadowed, fun k => OrderedAt.spawnDB d k⟩, by simp⟩

/-- The timestamps increase in every part of a session. -/
theorem donePuts_increasing {es : List Event} {pre : List Event} (hpre : pre <+: es)
    (hts : Increasing (donePuts es)) : Increasing (donePuts pre) :=
  hts.sublist (hpre.sublist.filterMap _)

/-- **Every session with increasing timestamps keeps it.** -/
theorem session_current (hB : 1 ≤ B) (hmax : 2 * B < 2 ^ 31) {es : List Event}
    (h : Run (EngineStep S) (spawnDB B d) es w) (hts : Increasing (donePuts es)) :
    CurrentInv S B (donePuts es) w := by
  refine h.invariant (P := fun es w => CurrentInv S B (donePuts es) w)
    (CurrentInv.spawnDB hmax d) ?_
  rintro pre e u v hpre - hinv hstep
  exact hinv.step (donePuts_increasing hpre hts) (hstep.effect hB hinv.inv)

/-- One operation of a map from keys to payloads, which may refuse to do anything. -/
inductive MapStep : (Str → Option KvsPayload) → Event → (Str → Option KvsPayload) → Prop
  | put (m : Str → Option KvsPayload) (p : KvsPayload) :
      MapStep m (.put p true) (Function.update m p.key (some p))
  | putFails (m : Str → Option KvsPayload) (p : KvsPayload) : MapStep m (.put p false) m
  | get (m : Str → Option KvsPayload) (k : Str) : MapStep m (.get k (some ((m k).getD notFound))) m
  | getFails (m : Str → Option KvsPayload) (k : Str) : MapStep m (.get k none) m

/-- The state of the engine that a map stands for. -/
structure Represents (S : BlockStore) (B : ℕ) (done : List KvsPayload) (w : World S)
    (m : Str → Option KvsPayload) : Prop where
  current : CurrentInv S B done w
  map_eq : ∀ k, m k = lastPut k done

/-- The last put of a key after one more put. -/
theorem lastPut_concat (k : Str) (ps : List KvsPayload) (p : KvsPayload) :
    lastPut k (ps ++ [p]) = if p.key = k then some p else lastPut k ps := by
  unfold lastPut
  rw [List.reverse_append, List.reverse_singleton, List.singleton_append, List.find?_cons]
  by_cases h : p.key = k <;> simp [h]

/-- **The map follows every operation of the engine.** -/
theorem Represents.step (hB : 1 ≤ B) {es : List Event} {e : Event} {m : Str → Option KvsPayload}
    (h : Represents S B (donePuts es) w m) (hts : Increasing (donePuts (es ++ [e])))
    (hkeys : ∀ e' ∈ es ++ [e], e'.key ≠ []) (hstep : EngineStep S w e w') :
    ∃ m', MapStep m e m' ∧ Represents S B (donePuts (es ++ [e])) w' m' := by
  have hcur := h.current.step hts (hstep.effect hB h.current.inv)
  have hsame : ∀ {e' : Event}, e'.stores = none → ∀ k, m k = lastPut k (donePuts (es ++ [e'])) := by
    intro e' he' k
    rw [donePuts_of_stores he']
    exact h.map_eq k
  cases hstep with
  | @put _ p _ =>
    refine ⟨_, MapStep.put m p, hcur, fun k => ?_⟩
    rw [donePuts_put, lastPut_concat]
    by_cases hk : p.key = k
    · rw [if_pos hk, ← hk, Function.update_self]
    · rw [if_neg hk, Function.update_of_ne (Ne.symm hk), h.map_eq]
  | @putFails _ p _ => exact ⟨m, MapStep.putFails m p, hcur, hsame rfl⟩
  | @get _ k a hget =>
    have hts' := donePuts_increasing (List.prefix_append es _) hts
    have hdone : ∀ p ∈ donePuts es, p.key ≠ [] :=
      donePuts_keys fun e' he' => hkeys e' (List.mem_append_left _ he')
    have ha := h.current.get_eq hts' hdone (hkeys (.get k (some a)) (by simp)) hget
    rw [← h.map_eq] at ha
    exact ⟨m, ha ▸ MapStep.get m k, hcur, hsame rfl⟩
  | @getFails _ k _ => exact ⟨m, MapStep.getFails m k, hcur, hsame rfl⟩

/-- **A map follows every session.** -/
theorem session_represents (hB : 1 ≤ B) (hmax : 2 * B < 2 ^ 31) {es : List Event}
    (h : Run (EngineStep S) (spawnDB B d) es w) (hts : Increasing (donePuts es))
    (hkeys : ∀ e ∈ es, e.key ≠ []) :
    ∃ m, Run MapStep (fun _ => none) es m ∧ Represents S B (donePuts es) w m := by
  have hempty : Represents S B (donePuts []) (spawnDB B d : World S) fun _ => none :=
    ⟨CurrentInv.spawnDB hmax d, fun _ => rfl⟩
  refine h.simulated (R := fun es w m => Represents S B (donePuts es) w m) hempty ?_
  intro pre e u v m hpre hR hstep
  exact hR.step hB (donePuts_increasing hpre hts) (fun e' he' => hkeys e' (hpre.subset he')) hstep

/-- **The engine refines a map.**  Take any session of puts and gets on a new engine, with non-empty
keys, in which the block store may fail at any place, and the timestamps of the puts to each key
that returned increase.  It is a session of a map from keys to payloads: what failed has done
nothing, and every get that returned has returned the payload of the last put to its key that
returned, wherever that had got to. -/
theorem sessions_refine_map (hB : 1 ≤ B) (hmax : 2 * B < 2 ^ 31) {es : List Event}
    (h : Run (EngineStep S) (spawnDB B d) es w) (hts : Increasing (donePuts es))
    (hkeys : ∀ e ∈ es, e.key ≠ []) : ∃ m, Run MapStep (fun _ => none) es m := by
  obtain ⟨m, hrun, -⟩ := session_represents hB hmax h hts hkeys
  exact ⟨m, hrun⟩

/-- The theorem at a session with a failed put. -/
theorem sessions_refine_map_sample : ∃ m, Run MapStep (fun _ => none) sampleSession m := by
  obtain ⟨w, h⟩ := run_sampleSession
  exact sessions_refine_map (B := 1) (by decide) (by decide) h (by unfold sampleSession; decide)
    (by unfold sampleSession; decide)

/-! ## Engines of any two sizes -/

/-- The same request in two sessions, with the same outcome if it is a put. -/
inductive SameRequest : Event → Event → Prop
  | put (p : KvsPayload) (returned : Bool) : SameRequest (.put p returned) (.put p returned)
  | get (k : Str) (a a' : Option KvsPayload) : SameRequest (.get k a) (.get k a')

/-- What a get has returned. -/
def Event.answer : Event → Option KvsPayload
  | .put _ _ => none
  | .get _ a => a

/-- Where both sessions have an answer it is the same. -/
def SameAnswer (e e' : Event) : Prop :=
  ∀ a a', e.answer = some a → e'.answer = some a' → a = a'

/-- Sessions of the same requests have the same puts. -/
theorem SameRequest.donePuts_eq {es es' : List Event} (h : List.Forall₂ SameRequest es es') :
    donePuts es' = donePuts es := by
  induction h with
  | nil => rfl
  | @cons e e' _ _ he _ ih =>
    have hstores : e'.stores = e.stores := by cases he <;> rfl
    unfold donePuts at ih ⊢
    rw [List.filterMap_cons, List.filterMap_cons, hstores, ih]

/-- Sessions of the same requests have the same keys. -/
theorem SameRequest.keys {es es' : List Event} (h : List.Forall₂ SameRequest es es')
    (hkeys : ∀ e ∈ es, e.key ≠ []) : ∀ e' ∈ es', e'.key ≠ [] := by
  induction h with
  | nil => simp
  | cons he _ ih =>
    obtain ⟨hkey, hrest⟩ := List.forall_mem_cons.mp hkeys
    refine List.forall_mem_cons.mpr ⟨?_, ih hrest⟩
    cases he with
    | put => exact hkey
    | get => exact hkey

/-- A map answers the same requests alike. -/
theorem MapStep.same {m m₁ m₂ : Str → Option KvsPayload} {e e' : Event} (he : SameRequest e e')
    (h : MapStep m e m₁) (h' : MapStep m e' m₂) : m₁ = m₂ ∧ SameAnswer e e' := by
  cases he with
  | put p returned =>
    refine ⟨?_, fun a _ ha => ?_⟩
    · cases h <;> cases h' <;> rfl
    · cases ha
  | get k a a' =>
    cases h with
    | getFails =>
      refine ⟨?_, fun _ _ ha => ?_⟩
      · cases h' <;> rfl
      · cases ha
    | get =>
      cases h' with
      | getFails => exact ⟨rfl, fun _ _ _ ha => by cases ha⟩
      | get => exact ⟨rfl, fun _ _ ha ha' => Option.some.inj (ha.symm.trans ha')⟩

/-- **Neither the size of the memory table nor the block store shows in an answer.**  Give the same
requests, with non-empty keys, to two engines whose memory tables have any two sizes and whose block
stores are of any two kinds, each of which may fail.  If the same puts return, and the timestamps of
the puts to each key that returned increase, gets that return on both sides return the same
payload. -/
theorem engines_agree {S' : BlockStore} {B' : ℕ} {d' : S'.Disk} {v : World S'} (hB : 1 ≤ B)
    (hmax : 2 * B < 2 ^ 31) (hB' : 1 ≤ B') (hmax' : 2 * B' < 2 ^ 31) {es es' : List Event}
    (h : Run (EngineStep S) (spawnDB B d) es w) (h' : Run (EngineStep S') (spawnDB B' d') es' v)
    (hsame : List.Forall₂ SameRequest es es') (hts : Increasing (donePuts es))
    (hkeys : ∀ e ∈ es, e.key ≠ []) : List.Forall₂ SameAnswer es es' := by
  obtain ⟨m, hrun, -⟩ := session_represents hB hmax h hts hkeys
  have hts' : Increasing (donePuts es') := by rwa [SameRequest.donePuts_eq hsame]
  obtain ⟨m', hrun', -⟩ := session_represents hB' hmax' h' hts' (SameRequest.keys hsame hkeys)
  refine (hrun.alongside (R := Eq) hrun' hsame rfl ?_).2
  rintro u m₁ _ m₂ e e' he rfl hstep hstep'
  exact hstep.same he hstep'

/-- The engine with room for one payload cannot read a block at first; the one with room for five
still has everything in memory. -/
theorem engines_agree_sample :
    List.Forall₂ SameAnswer
      [.put (sample 107 1 1) true, .put (sample 97 1 1) true, .get [107] none,
        .get [107] (some (sample 107 1 1))]
      [.put (sample 107 1 1) true, .put (sample 97 1 1) true, .get [107] (some (sample 107 1 1)),
        .get [107] (some (sample 107 1 1))] := by
  have h : Run (EngineStep faultyStore) (spawnDB 1 ([], [false, true]))
      [.put (sample 107 1 1) true] _ := Run.single (EngineStep.put rfl)
  have h₂ := h.snoc (EngineStep.put (p := sample 97 1 1) rfl)
  have h₃ := h₂.snoc (EngineStep.getFails (k := [107]) rfl)
  have h₄ := h₃.snoc (EngineStep.get (k := [107]) rfl)
  have h' : Run (EngineStep memoryStore) (spawnDB 5 []) [.put (sample 107 1 1) true] _ :=
    Run.single (EngineStep.put rfl)
  have h'₂ := h'.snoc (EngineStep.put (p := sample 97 1 1) rfl)
  have h'₃ := h'₂.snoc (EngineStep.get (k := [107]) rfl)
  have h'₄ := h'₃.snoc (EngineStep.get (k := [107]) rfl)
  refine engines_agree (by decide) (by decide) (by decide) (by decide) h₄ h'₄ ?_
    (by decide) (by decide)
  refine .cons (.put _ _) (.cons (.put _ _) (.cons (.get _ _ _) (.cons (.get _ _ _) .nil)))

/-! ## Saved states stay readable -/

/-- A session loses no stored block. -/
theorem session_keeps (hB : 1 ≤ B) {es : List Event} (hw : Inv S B w)
    (h : Run (EngineStep S) w es w') : Inv S B w' ∧ Keeps S.stored w.disk w'.disk := by
  refine h.invariant (P := fun _ v => Inv S B v ∧ Keeps S.stored w.disk v.disk)
    ⟨hw, keeps_refl _⟩ ?_
  rintro pre e u v - - ⟨hu, hk⟩ hstep
  have heff := hstep.effect hB hu
  exact ⟨heff.inv hu, keeps_trans hk heff.keeps⟩

/-- The blocks of a list stay the same blocks while the disk only gains others. -/
theorem sameHeaders_of_keeps {e : S.Disk} {hs : List BlockHeader} {level : Int}
    (hok : HeadersOk S d hs) (hst : ∀ h ∈ hs, StoredAt S d level h) (hk : Keeps S.stored d e) :
    SameHeaders S id d e hs hs := by
  refine List.forall₂_same.mpr fun h hh => ?_
  obtain ⟨b, hb, -⟩ := hst h hh
  exact ⟨rfl, rfl, ⟨(hok h hh).hash_ne, (hok h hh).hash_ne⟩, b, b, hb, hk _ _ hb,
    (List.map_id _).symm⟩

/-- An engine in order stays the same engine while the disk only gains blocks. -/
theorem sameWorld_of_keeps {e : S.Disk} (hw : Inv S B w) (hk : Keeps S.stored w.disk e) :
    SameWorld id w { w with disk := e } := by
  have hlevel : ∀ l ∈ w.index.levels, SameLevel S id w.disk e l l := by
    intro l hl
    obtain ⟨i, hi⟩ := List.getElem?_of_mem hl
    refine ⟨rfl, rfl, rfl, rfl, rfl, ?_⟩
    cases i with
    | zero =>
      obtain ⟨l', hl', ht⟩ := hw.top
      obtain rfl : l' = l := Option.some.inj (hl'.symm.trans hi)
      exact sameHeaders_of_keeps ht.headersOk ht.storedAt hk
    | succ i =>
      have hlOk := hw.indexOk.levelOk (i + 1) l (Nat.le_add_left 1 i) hi
      exact sameHeaders_of_keeps hlOk.headersOk hlOk.storedAt hk
  exact ⟨rfl, rfl, (SortedMap.mapValues_id _).symm, rfl, rfl, List.forall₂_same.mpr hlevel⟩

/-- Two gets in step answer alike. -/
theorem answers_of_inStep (hstep : InStep (CallBoth id fun p p' => p' = id p) (CapsuleDB.get k w)
      (CapsuleDB.get k w')) (hsafe : Outcome (fun _ _ => True) ReadFault (CapsuleDB.get k w)) :
    Answers k w w' fun a a' => a' = a := by
  unfold Answers
  cases hr : CapsuleDB.get k w with
  | error e v => exact hsafe.of_error hr
  | ok a v =>
    rw [hr] at hstep
    show Outcome (fun a' _ => a' = a) ReadFault (CapsuleDB.get k w')
    cases hr' : CapsuleDB.get k w' with
    | error e' v' =>
      rw [hr'] at hstep
      exact hstep
    | ok a' v' =>
      rw [hr'] at hstep
      exact hstep.1

/-- **Saved states stay readable.**  Save the memory table and the index at any moment of a session,
whatever its keys and timestamps are and whatever has failed.  After any further operations a get on
what was saved, with the disk as it is then, returns what it would have returned at that moment,
once reads succeed. -/
theorem snapshots_stay_readable (hB : 1 ≤ B) (hmax : 2 * B < 2 ^ 31) {es fs : List Event}
    (h : Run (EngineStep S) (spawnDB B d) es w) (h' : Run (EngineStep S) w fs w') (k : Str) :
    Answers k w { w with disk := w'.disk } fun a a' => a' = a := by
  have hw := (session_inv hB hmax h).inv
  have hsame := sameWorld_of_keeps hw (session_keeps hB hw h').2
  exact answers_of_inStep (get_inStep relabels_id hsame k) (get_safe hw k)

/-- A state saved before a put that failed midway. -/
theorem snapshots_stay_readable_sample :
    ∃ w w' : World faultyStore, w.index ≠ w'.index ∧
      Answers [107] w { w with disk := w'.disk } fun a a' => a' = a := by
  have h : Run (EngineStep faultyStore) (spawnDB 1 ([], [false, false, true]))
      [.put (sample 107 1 1) true] _ := Run.single (EngineStep.put rfl)
  have h₂ := h.snoc (EngineStep.put (p := sample 97 1 1) rfl)
  exact ⟨_, _, by decide, snapshots_stay_readable (B := 1) (by decide) (by decide) h₂
    (Run.single (EngineStep.putFails (p := sample 98 1 1) rfl)) [107]⟩

end Capsule.Analysis
