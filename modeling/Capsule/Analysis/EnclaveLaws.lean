import Capsule.Program.Enclave
import Capsule.Analysis.RelabelEngine
import Capsule.Analysis.Get

/-!
# The engine behind the enclave

A sequence of calls is made on an engine and, through the driver, on the engine of an enclave.
On its way the message type of a payload is lost, so the enclave's engine runs on payloads
without one (`strip`), and `Analysis.RelabelEngine` keeps the two in lockstep.  A get of the empty
key reaches the enclave as a put of an empty payload.
-/

set_option autoImplicit false

namespace Capsule.Analysis

open Library Program Interface

variable {S : BlockStore} {w w' : World S}

/-- The payload that arrives on the other side. -/
def strip (p : KvsPayload) : KvsPayload := { p with txn_msgType := [] }

/-- Dropping the message type is a relabelling. -/
theorem relabels_strip : Relabels strip := ⟨fun _ => rfl, fun _ => rfl, rfl⟩

/-! ## One call -/

/-- A put through the driver stores the payload without its message type. -/
theorem driver_put_eq (p : KvsPayload) :
    (CapsuleDBDriver.put p : EngineM S Unit) = CapsuleDB.put (strip p) := by
  have h : (CapsuleDBDriver.put p : EngineM S Unit) = (do
      let _ ← (do CapsuleDB.put (strip p); pure ({} : EnclaveOutput))) := rfl
  rw [h, bind_assoc]
  simp only [pure_bind, bind_pure_unit]

/-- A get of a proper key through the driver answers without the message type. -/
theorem driver_get_eq {k : Str} (hk : k ≠ []) :
    (CapsuleDBDriver.get k : EngineM S KvsPayload) = (do
      let p ← CapsuleDB.get k
      pure (strip p)) := by
  unfold CapsuleDBDriver.get CapsuleDBEnclaveClient.run
  have hkey :
      (({ requestingEnclaveID := some 25, requestedkey := some k } : DBRequest)).getRequestedkey
      ≠ [] := hk
  simp only [Option.getD_some, if_neg hkey, bind_assoc, pure_bind]
  rfl

/-- The payloads of the memory table lie under their own keys after a put. -/
theorem put_keyed (hw : Keyed w.memtable.memtable) (p : KvsPayload) :
    Outcome (fun _ v => Keyed v.memtable.memtable) (fun _ _ => True) (CapsuleDB.put p w) := by
  have hwrite : Outcome (fun _ v => Keyed v.memtable.memtable) (fun _ _ => True)
      (writeOutIfFull w) := by
    refine Outcome.get_bind (Outcome.ite (fun _ => ?_) fun _ => Outcome.pure hw)
    cases w.memtable.memtable.entries with
    | nil => trivial
    | cons first rest =>
      apply onIndex_bind (Outcome.self _) (fun _ _ _ => trivial)
      intro _ _ _
      apply onIndex_bind (Outcome.self _) (fun _ _ _ => trivial)
      intro _ _ _
      exact Keyed.empty
  suffices h : Outcome (fun _ v => Keyed v.memtable.memtable) (fun _ _ => True) (Memtable.put p w)
    from h.bind (fun _ _ he => he) fun _ _ hv => hv
  apply Outcome.get_bind
  cases w.memtable.locklst.find? p.key with
  | some u =>
    cases w.memtable.memtable.find? p.key with
    | none => trivial
    | some prev =>
      apply Outcome.ite (fun _ => Outcome.pure hw)
      intro _
      exact Outcome.modify_bind (Outcome.pure (hw.insert p))
  | none =>
    apply hwrite.bind (fun _ _ he => he)
    intro _ v hv
    exact Outcome.modify_bind (Outcome.modify_bind (Outcome.pure (hv.insert p)))

/-- The scan of a block returns a payload of the key. -/
theorem key_of_scanPairs {i : ℕ} {k : Str} {ps : List KvsPayload} {p : KvsPayload}
    (h : CapsuleDB.scanPairs i k ps = some p) : p.key = k := by
  induction ps with
  | nil => exact absurd h (by simp [CapsuleDB.scanPairs])
  | cons q ps ih =>
    rw [CapsuleDB.scanPairs] at h
    split_ifs at h with _ hq
    · cases h
      exact hq
    · exact ih h

/-- A get answers with a payload of its key, or with nothing. -/
theorem get_answers_key (hw : Keyed w.memtable.memtable) (k : Str) :
    Outcome (fun p _ => p.key = k ∨ p = notFound) (fun _ _ => True) (CapsuleDB.get k w) := by
  have hsearch : ∀ (is : List ℕ) (v : World S),
      Outcome (fun r _ => ∀ p, r = some p → p.key = k) (fun _ _ => True)
        (CapsuleDB.searchLevels k is v) := by
    intro is
    induction is with
    | nil => exact fun v p hp => absurd hp (by simp)
    | cons i is ih =>
      intro v
      rw [CapsuleDB.searchLevels]
      apply Outcome.get_bind
      cases v.index.getBlock i k with
      | error e => trivial
      | ok info =>
        refine Outcome.ite (fun _ => ?_) fun _ => ih v
        apply onIndex_bind (Outcome.self _) (fun _ _ _ => trivial)
        intro b s _
        cases hscan : CapsuleDB.scanPairs i k b.kvPairs with
        | none => exact ih _
        | some q =>
          apply Outcome.pure
          intro p hp
          cases hp
          exact key_of_scanPairs hscan
  have hmem : ∀ p, w.memtable.get k = .ok p → p.key = k ∨ p = notFound := by
    intro p hp
    unfold Memtable.get at hp
    cases hlock : w.memtable.locklst.find? k with
    | none =>
      rw [hlock] at hp
      cases hp
      exact Or.inr rfl
    | some u =>
      rw [hlock] at hp
      cases hfind : w.memtable.memtable.find? k with
      | none =>
        rw [hfind] at hp
        cases hp
      | some q =>
        rw [hfind] at hp
        cases hp
        exact Or.inl (hw (k, _) (SortedMap.mem_entries_iff.mpr hfind))
  unfold CapsuleDB.get
  apply Outcome.get_bind
  cases hp : w.memtable.get k with
  | error e => trivial
  | ok p =>
    refine Outcome.ite (fun _ => Outcome.get_bind ?_) fun _ => hmem p hp
    apply (hsearch _ w).bind (fun _ _ _ => trivial)
    intro r v hr
    cases r with
    | none => exact hmem p hp
    | some q => exact Or.inl (hr q rfl)

/-! ## Sequences of calls -/

/-- A call that asks for nothing the way through the enclave loses: it puts a payload without a
message type, or gets a key other than the empty one. -/
def KeptCall : Call → Prop
  | .put payload => payload.txn_msgType = []
  | .get key => key ≠ []

/-- A call that is not a get of the empty key. -/
def ProperCall : Call → Prop
  | .put _ => True
  | .get key => key ≠ []

/-- A kept call does not ask for the empty key. -/
theorem KeptCall.proper {c : Call} (h : KeptCall c) : ProperCall c := by
  cases c with
  | put p => trivial
  | get k => exact h

/-- A proper call is answered alike on both sides, but for the message type. -/
theorem call_inStep (h : SameWorld strip w w') {c : Call} (hc : ProperCall c) :
    InStep (CallBoth strip fun _ _ => True) (CapsuleDB.call c w) (CapsuleDBDriver.call c w') := by
  cases c with
  | put p =>
    rw [CapsuleDB.call, CapsuleDBDriver.call, driver_put_eq]
    exact put_inStep relabels_strip h p
  | get k =>
    rw [CapsuleDB.call, CapsuleDBDriver.call, driver_get_eq hc, bind_assoc]
    apply (get_inStep relabels_strip h k).bind
    rintro p v p' v' ⟨-, hv⟩
    exact Lockstep.pure ⟨trivial, hv⟩

/-- **A sequence of calls** on the engine and through the driver. -/
theorem callAll_inStep {cs : List Call} (hcs : ∀ c ∈ cs, ProperCall c) {w w' : World S}
    (h : SameWorld strip w w') :
    InStep (CallBoth strip fun _ _ => True) (callAll CapsuleDB.call cs w)
      (callAll CapsuleDBDriver.call cs w') := by
  induction cs generalizing w w' with
  | nil => exact Lockstep.pure ⟨trivial, h⟩
  | cons c cs ih =>
    apply (call_inStep h (hcs c List.mem_cons_self)).bind
    rintro - v - v' ⟨-, hv⟩
    exact ih (fun c' hc' => hcs c' (List.mem_cons_of_mem c hc')) hv

/-- Calls that keep to what the enclave carries make the engine hold payloads without a message
type only: stripping them changes nothing. -/
theorem callAll_stripped {cs : List Call} (hcs : ∀ c ∈ cs, KeptCall c) {w w' : World S}
    (h : SameWorld strip w w') :
    InStep (CallBoth strip fun _ _ => True) (callAll CapsuleDB.call cs w)
      (callAll CapsuleDB.call cs w') := by
  induction cs generalizing w w' with
  | nil => exact Lockstep.pure ⟨trivial, h⟩
  | cons c cs ih =>
    have hcall : InStep (CallBoth strip fun _ _ => True) (CapsuleDB.call c w)
        (CapsuleDB.call c w') := by
      have hc := hcs c List.mem_cons_self
      cases c with
      | put p =>
        have hp : strip p = p := by
          rw [strip, ← show p.txn_msgType = [] from hc]
        have hput := put_inStep relabels_strip h p
        rw [hp] at hput
        exact hput
      | get k =>
        apply (get_inStep relabels_strip h k).bind
        rintro p v p' v' ⟨-, hv⟩
        exact Lockstep.pure ⟨trivial, hv⟩
    apply hcall.bind
    rintro - v - v' ⟨-, hv⟩
    exact ih (fun c' hc' => hcs c' (List.mem_cons_of_mem c hc')) hv

/-- Every payload of the memory table lies under its own key, whatever is called. -/
theorem callAll_keyed (cs : List Call) {w : World S} (hw : Keyed w.memtable.memtable) :
    Outcome (fun _ v => Keyed v.memtable.memtable) (fun _ _ => True)
      (callAll CapsuleDB.call cs w) := by
  induction cs generalizing w with
  | nil => exact hw
  | cons c cs ih =>
    have hcall : Outcome (fun _ v => Keyed v.memtable.memtable) (fun _ _ => True)
        (CapsuleDB.call c w) := by
      cases c with
      | put p => exact put_keyed hw p
      | get k =>
        apply (get_readOnly k w).bind (fun _ _ _ => trivial)
        rintro p _ ⟨d, rfl, -⟩
        exact hw
    exact hcall.bind (fun _ _ he => he) fun _ _ hv => ih hv

/-- The engine of an enclave is made for the size that the driver was given. -/
theorem initializeEnclave_config (memtable_size : UInt64) (d : S.Disk) :
    CapsuleDBEnclaveClient.initializeEnclave (CapsuleDBDriver.config memtable_size) d =
      spawnDB memtable_size.toNat d := by
  have hsize : toSizeT memtable_size.toInt64.toInt = memtable_size.toNat := by
    unfold toSizeT
    have hint : memtable_size.toInt64.toInt = (memtable_size.toNat : Int).bmod (2 ^ 64) :=
      BitVec.toInt_eq_toNat_bmod memtable_size.toBitVec
    have hlt := memtable_size.toNat_lt
    rw [hint, Int.bmod_def]
    split <;> omega
  simp only [CapsuleDBDriver.config, CapsuleDBEnclaveClient.initializeEnclave, hsize]

/-- **What a get through the driver answers** after any calls that do not get the empty key: the
engine's answer without its message type, and it touches nothing but the disk. -/
theorem driver_get_answer {n : ℕ} {d d' : S.Disk} {cs : List Call} (hcs : ∀ c ∈ cs, ProperCall c)
    (hw : callAll CapsuleDB.call cs (spawnDB n d) = .ok () w)
    (hw' : callAll CapsuleDBDriver.call cs (spawnDB n d') = .ok () w') {k : Str} (hk : k ≠ []) :
    InStep (fun p _ q v' => q = strip p ∧ (p.key = [] → p = notFound) ∧
        v'.memtable = w'.memtable ∧ v'.index = w'.index)
      (CapsuleDB.get k w) (CapsuleDBDriver.get k w') := by
  have hboth : SameWorld strip w w' :=
    ((callAll_inStep hcs (spawnDB_same strip n d d')).of_ok hw hw').2
  have hkeyed : Keyed w.memtable.memtable := (callAll_keyed cs Keyed.empty).of_ok hw
  have hget := (get_inStep relabels_strip hboth k).and_outcomes (get_answers_key hkeyed k)
    (get_readOnly k w')
  have hdirect : CapsuleDB.get k w = (CapsuleDB.get k >>= pure) w := by rw [bind_pure]
  rw [hdirect, driver_get_eq hk]
  apply hget.bind
  rintro p v p' _ ⟨⟨rfl, -⟩, hp, d₁, rfl, -⟩
  refine Lockstep.pure ⟨rfl, fun hnil => ?_, rfl, rfl⟩
  exact hp.resolve_left fun hpk => hk (hpk ▸ hnil)

/-! ## Transparency -/

/-- A get of the engine in state `w` and a get through the driver of an enclave in state `w'`: the
driver answers what the engine answers, a payload in all its fields or nothing, and the enclave's
memory table and index stay as they are. -/
def FaithfulGet (w w' : World S) (k : Str) : Prop :=
  InStep (fun p _ q v' => (p.key ≠ [] → q = p) ∧ (p.key = [] → q.key = [] ∧ q.value = []) ∧
      v'.memtable = w'.memtable ∧ v'.index = w'.index)
    (CapsuleDB.get k w) (CapsuleDBDriver.get k w')

/-- **The enclave is a transparent front** for a sequence of calls: made on a fresh engine and
through the driver on a fresh enclave, the calls succeed and fail together, and every get among
them is faithful. -/
def Transparent (S : BlockStore) (memtable_size : UInt64) (cs : List Call) : Prop :=
  ∀ d d' : S.Disk,
    let direct := fun cs' => callAll CapsuleDB.call cs' (spawnDB memtable_size.toNat d)
    let enclave := fun cs' => callAll CapsuleDBDriver.call cs'
      (CapsuleDBEnclaveClient.initializeEnclave (CapsuleDBDriver.config memtable_size) d')
    InStep (fun _ _ _ _ => True) (direct cs) (enclave cs) ∧
    ∀ pre k post w w', cs = pre ++ Call.get k :: post → direct pre = .ok () w →
      enclave pre = .ok () w' → FaithfulGet w w' k

/-- **A sequence of calls is served transparently** if every payload put has an empty message type
and no get asks for the empty key. -/
theorem kept_calls_transparent (S : BlockStore) (memtable_size : UInt64) (cs : List Call)
    (hcs : ∀ c ∈ cs, KeptCall c) : Transparent S memtable_size cs := by
  intro d d'
  rw [initializeEnclave_config]
  refine ⟨?_, ?_⟩
  · apply (callAll_inStep (fun c hc => (hcs c hc).proper) (spawnDB_same strip _ d d')).mono
    exact fun _ _ _ _ _ => trivial
  · rintro pre k post w w' rfl hw hw'
    have hpre : ∀ c ∈ pre, KeptCall c := fun c hc => hcs c (List.mem_append_left _ hc)
    have hk : k ≠ [] := hcs (.get k) (by simp)
    -- the engine's own run is in lockstep with itself, so what it finds has no message type
    have hself : SameWorld strip w w :=
      ((callAll_stripped hpre (spawnDB_same strip _ d d)).of_ok hw hw).2
    have hblank : Outcome (fun p _ => strip p = p) (fun _ _ => True) (CapsuleDB.get k w) := by
      cases hr : CapsuleDB.get k w with
      | ok p v => exact ((get_inStep relabels_strip hself k).of_ok hr hr).1.symm
      | error e v => trivial
    have hget := driver_get_answer (fun c hc => (hpre c hc).proper) hw hw' hk
    apply (hget.and_outcomes hblank (Outcome.self _)).mono
    rintro p v q v' ⟨⟨rfl, hnil, hmem, hindex⟩, hp, -⟩
    refine ⟨fun _ => hp, fun hkey => ?_, hmem, hindex⟩
    rw [hnil hkey]
    exact ⟨rfl, rfl⟩

/-- Two calls that the enclave carries. -/
@[irreducible] def keptCalls : List Call := [.put ⟨[107], [1], 1, []⟩, .get [107]]

/-- The theorem at a run of kept calls. -/
theorem kept_calls_transparent_sample : Transparent memoryStore 1 keptCalls :=
  kept_calls_transparent memoryStore 1 keptCalls (by
    unfold keptCalls
    simp [KeptCall])

/-- A payload that is put with a message type is read without it, and a get of the empty key puts
an empty payload. -/
theorem driver_not_transparent :
    ¬ Transparent memoryStore 1 [.put ⟨[107], [1], 1, [71]⟩, .get [107]] ∧
    ¬ Transparent memoryStore 1 [.get []] := by
  refine ⟨fun h => ?_, fun h => ?_⟩
  · have hget := (h [] []).2 [.put ⟨[107], [1], 1, [71]⟩] [107] [] _ _ rfl rfl rfl
    have heq : (⟨[107], [1], 1, []⟩ : KvsPayload) = ⟨[107], [1], 1, [71]⟩ := hget.1 (by decide)
    exact absurd heq (by decide)
  · have hget := (h [] []).2 [] [] [] _ _ rfl rfl rfl
    have hsize : (1 : ℕ) = 0 := congrArg SortedMap.size (congrArg Memtable.memtable hget.2.2.1)
    exact absurd hsize (by decide)

end Capsule.Analysis
