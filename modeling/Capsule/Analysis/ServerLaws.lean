import Capsule.Program.Server
import Capsule.Analysis.BlockParser
import Capsule.Analysis.Depth
import Capsule.Analysis.EnclaveLaws
import Capsule.Analysis.Sessions
import Capsule.Library.Exchange

/-!
# What clients see of a server

Any number of clients exchange messages with a server.  It handles one after the other, so that what
it has done is a session of its engine, whichever clients the messages are from (`server_session`).

* Where every key is put by one client, with increasing timestamps, a client that gets a key reads
  the last put of it that the server has taken (`clients_read_last_put`).
* Where several clients put one key, with any timestamps, who gets it reads one of the puts
  (`clients_read_some_put`).
* What ends a server is a message that cannot be parsed, the block store, or a great many keys
  (`server_stops_only`).
* Its socket hands out replies without looking at who asked.  So they reach those who asked exactly
  if one client at most is connected (`replies_reach_askers_iff`).
* The server of the enclave does the same (`enclave_server_agrees`).
-/

set_option autoImplicit false

namespace Capsule.Analysis

open Library Program Interface

variable {S : BlockStore} {C : Type} [DecidableEq C] {P : Str → Option DBRequest} {route : ℕ → C}
  {w w' : World S} {d : S.Disk} {m : Str} {p : KvsPayload} {k : Str}

/-! ## One message -/

/-- The call that a message asks for, if it can be parsed. -/
def callOf (P : Str → Option DBRequest) (m : Str) : Option Call :=
  (P m).map fun r =>
    if r.getRequestedkey = [] then .put (requestPayload r) else .get r.getRequestedkey

/-- A message is no call exactly if it cannot be parsed. -/
theorem callOf_eq_none : callOf P m = none ↔ P m = none := Option.map_eq_none_iff

/-- A put is a message without a requested key. -/
theorem callOf_put (h : callOf P m = some (.put p)) :
    ∃ r, P m = some r ∧ r.getRequestedkey = [] ∧ requestPayload r = p := by
  obtain ⟨r, hr, hcall⟩ := Option.map_eq_some_iff.mp h
  by_cases hkey : r.getRequestedkey = []
  · rw [if_pos hkey] at hcall
    exact ⟨r, hr, hkey, Call.put.inj hcall⟩
  · rw [if_neg hkey] at hcall
    cases hcall

/-- A get is a message with a requested key. -/
theorem callOf_get (h : callOf P m = some (.get k)) :
    ∃ r, P m = some r ∧ r.getRequestedkey = k ∧ k ≠ [] := by
  obtain ⟨r, hr, hcall⟩ := Option.map_eq_some_iff.mp h
  by_cases hkey : r.getRequestedkey = []
  · rw [if_pos hkey] at hcall
    cases hcall
  · rw [if_neg hkey] at hcall
    exact ⟨r, hr, Call.get.inj hcall, Call.get.inj hcall ▸ hkey⟩

section

variable {put : KvsPayload → EngineM S Unit} {get : Str → EngineM S KvsPayload}

/-- **A put** is made and not answered. -/
theorem handleMessage_put (h : callOf P m = some (.put p)) :
    handleMessage P put get m = callEngine (put p) >>= fun _ => pure none := by
  obtain ⟨r, hr, hkey, rfl⟩ := callOf_put h
  simp only [handleMessage, hr, if_pos hkey]

/-- **A get** is answered with what the engine returns. -/
theorem handleMessage_get (h : callOf P m = some (.get k)) :
    handleMessage P put get m =
      callEngine (get k) >>= fun a => pure (some (outputRequest a).serialize) := by
  obtain ⟨r, hr, rfl, hkey⟩ := callOf_get h
  simp only [handleMessage, hr, if_neg hkey]

/-- A message that cannot be parsed ends the server. -/
theorem handleMessage_none (h : callOf P m = none) :
    handleMessage P put get m w = .error .logicError w := by
  simp only [handleMessage, callOf_eq_none.mp h]
  rfl

end

/-- What a message and its answer show of the engine. -/
inductive Serves (P : Str → Option DBRequest) : Str × Option Str → Event → Prop
  | put {m : Str} {p : KvsPayload} (h : callOf P m = some (.put p)) :
      Serves P (m, none) (.put p true)
  | get {m k : Str} {a : KvsPayload} (h : callOf P m = some (.get k)) :
      Serves P (m, some (outputRequest a).serialize) (.get k (some a))

/-- **One message**: it is one operation of the engine that returns, or it ends the server. -/
theorem handle_spec (P : Str → Option DBRequest) (m : Str) (w : World S) :
    Outcome (fun r w' => ∃ e, Serves P (m, r) e ∧ EngineStep S w e w')
      (fun e w' => (e = .logicError ∧ P m = none) ∨
        (∃ p e', e = .engine e' ∧ callOf P m = some (.put p) ∧ CapsuleDB.put p w = .error e' w') ∨
        ∃ k e', e = .engine e' ∧ callOf P m = some (.get k) ∧ CapsuleDB.get k w = .error e' w')
      (CapsuleDBServer.handle P m w) := by
  unfold CapsuleDBServer.handle
  cases hm : callOf P m with
  | none =>
    rw [handleMessage_none hm]
    exact Or.inl ⟨rfl, callOf_eq_none.mp hm⟩
  | some call =>
    cases call with
    | put p =>
      rw [handleMessage_put hm]
      refine (Outcome.mapError (Outcome.self (CapsuleDB.put p w))).bind ?_ ?_
      · rintro _ v ⟨e, rfl, he⟩
        exact Or.inr (Or.inl ⟨p, e, rfl, rfl, he⟩)
      · intro _ v hv
        exact Outcome.pure ⟨_, Serves.put hm, EngineStep.put hv⟩
    | get k =>
      rw [handleMessage_get hm]
      refine (Outcome.mapError (Outcome.self (CapsuleDB.get k w))).bind ?_ ?_
      · rintro _ v ⟨e, rfl, he⟩
        exact Or.inr (Or.inr ⟨k, e, rfl, rfl, he⟩)
      · intro a v hv
        exact Outcome.pure ⟨_, Serves.get hm, EngineStep.get hv⟩

/-! ## All messages -/

/-- The payload that a message puts. -/
def putOf (P : Str → Option DBRequest) (m : Str) : Option KvsPayload :=
  (P m).bind fun r => if r.getRequestedkey = [] then some (requestPayload r) else none

/-- The put of a message, as a call. -/
theorem putOf_eq_some : putOf P m = some p ↔ callOf P m = some (.put p) := by
  unfold putOf callOf
  cases P m with
  | none => simp
  | some r => by_cases hkey : r.getRequestedkey = [] <;> simp [hkey]

/-- A get puts nothing. -/
theorem putOf_get (h : callOf P m = some (.get k)) : putOf P m = none := by
  obtain ⟨r, hr, rfl, hkey⟩ := callOf_get h
  simp [putOf, hr, hkey]

/-- The puts that messages ask for. -/
def putsOf (P : Str → Option DBRequest) (ms : List Str) : List KvsPayload := ms.filterMap (putOf P)

/-- **What the server has done is a session of its engine.** -/
theorem server_session {as : List (Str × Option Str)}
    (h : Run (Exchange.Handles (CapsuleDBServer.handle P)) w as w') :
    ∃ es, List.Forall₂ (Serves P) as es ∧ Run (EngineStep S) w es w' := by
  refine h.invariant (P := fun as v => ∃ es, List.Forall₂ (Serves P) as es ∧
    Run (EngineStep S) w es v) ⟨[], List.Forall₂.nil, Run.nil w⟩ ?_
  rintro pre a u v - - ⟨es, hshows, hrun⟩ hstep
  obtain ⟨e, hshow, hengine⟩ := (handle_spec P a.1 u).of_ok hstep
  exact ⟨es ++ [e], List.rel_append hshows (List.Forall₂.cons hshow List.Forall₂.nil),
    Run.snoc hrun hengine⟩

/-- Serving a message stores its put. -/
theorem Serves.stores_eq {a : Str × Option Str} {e : Event} (h : Serves P a e) :
    e.stores = putOf P a.1 := by
  cases h with
  | put hm => exact (putOf_eq_some.mpr hm).symm
  | get hm => exact (putOf_get hm).symm

/-- The puts of a session are those of its messages: by induction on the messages. -/
theorem donePuts_of_shows {as : List (Str × Option Str)} {es : List Event}
    (h : List.Forall₂ (Serves P) as es) : donePuts es = putsOf P (as.map Prod.fst) := by
  unfold donePuts putsOf
  induction h with
  | nil => rfl
  | cons hshow _ ih =>
    rw [List.map_cons, List.filterMap_cons, List.filterMap_cons, hshow.stores_eq, ih]

/-- What is served has returned. -/
theorem Serves.returned {a : Str × Option Str} {e : Event} (h : Serves P a e) :
    e.returned = true := by
  cases h <;> rfl

/-- **What a running server has done is a session of its engine** in which everything returned, with
the puts that it has taken. -/
theorem running_session {es : List (ExchangeEvent C Str Str ServerFault)}
    {x : Exchange C Str Str (World S)}
    (h : Run (Exchange.Step (CapsuleDBServer.handle P) route)
      (Exchange.start (CapsuleDBServer.init d)) es x) (hrun : x.running = true) :
    ∃ fs, Run (EngineStep S) (spawnDB MEMTABLE_SIZE d) fs x.server ∧
      donePuts fs = putsOf P ((takenAll es).map Prod.snd) ∧ ∀ e ∈ fs, e.returned = true := by
  obtain ⟨s, hs, hserver⟩ := Exchange.sequential h
  obtain ⟨fs, hshows, hsession⟩ := server_session hs
  rw [hserver hrun] at hsession
  refine ⟨fs, hsession, ?_, fun e he => ?_⟩
  · rw [donePuts_of_shows hshows, Exchange.taken_eq_served h hrun]
  · obtain ⟨i, hi, rfl⟩ := List.getElem_of_mem he
    have hi' := hi
    rw [← hshows.length_eq] at hi'
    exact (hshows.get hi' hi).returned

/-! ## Clients that put their own keys -/

/-- The payload that the client reads from the reply for it. -/
theorem readReply_outputRequest (hP : ParsesRequests P) (p : KvsPayload) :
    Client.readReply P (outputRequest p).serialize = some p := by
  have hparse : P (outputRequest p).serialize = some (outputRequest p) := by
    refine hP _ fun q hq => ?_
    obtain rfl := Option.some.inj hq
    rfl
  rw [Client.readReply, hparse]
  rfl

/-- The put of the client arrives with the message type that the client sets. -/
theorem callOf_putRequest (hP : ParsesRequests P) (p : KvsPayload) :
    callOf P (Client.putRequest p).serialize =
      some (.put { p with txn_msgType := CapsuleDBDriver.putType }) := by
  have hparse : P (Client.putRequest p).serialize = some (Client.putRequest p) := by
    refine hP _ fun q hq => ?_
    obtain rfl := Option.some.inj hq
    rfl
  rw [callOf, hparse]
  rfl

/-- The server reads the request of a get as a get. -/
theorem callOf_getRequest (hP : ParsesRequests P) (hk : k ≠ []) :
    callOf P (Client.getRequest k).serialize = some (.get k) := by
  have hparse : P (Client.getRequest k).serialize = some (Client.getRequest k) :=
    hP _ fun q hq => by cases hq
  rw [callOf, hparse]
  exact congrArg some (if_neg hk)

/-- Every key is put by its owner only, and every client puts its keys with increasing
timestamps. -/
structure SingleWriters {ε : Type} (P : Str → Option DBRequest) (owner : Str → C)
    (es : List (ExchangeEvent C Str Str ε)) : Prop where
  owns : ∀ c, ∀ p ∈ putsOf P (sentBy es c), owner p.key = c
  increasing : ∀ c, Increasing (putsOf P (sentBy es c))

/-- Increasing timestamps, as a relation between messages. -/
theorem increasing_putsOf {ms : List Str} :
    Increasing (putsOf P ms) ↔ ms.Pairwise fun m m' => ∀ p, putOf P m = some p →
      ∀ q, putOf P m' = some q → p.key = q.key → p.txn_timestamp < q.txn_timestamp :=
  List.pairwise_filterMap

section

variable {owner : Str → C} {es : List (ExchangeEvent C Str Str ServerFault)} {s : World S}
  {x : Exchange C Str Str (World S)}

/-- The server takes the puts of each key with increasing timestamps. -/
theorem SingleWriters.taken_increasing (hw : SingleWriters P owner es)
    (h : Run (Exchange.Step (CapsuleDBServer.handle P) route) (Exchange.start s) es x) :
    Increasing (putsOf P ((takenAll es).map Prod.snd)) := by
  rw [increasing_putsOf]
  refine Exchange.taken_pairwise h (fun c => increasing_putsOf.mp (hw.increasing c)) ?_
  intro c c' m m' hc hm hm' p hp q hq hkey
  -- two owners of one key
  have hpc := hw.owns c p (List.mem_filterMap.mpr ⟨m, hm, hp⟩)
  have hqc := hw.owns c' q (List.mem_filterMap.mpr ⟨m', hm', hq⟩)
  exact absurd (hpc.symm.trans ((congrArg owner hkey).trans hqc)) hc

/-- A put that was taken came from the owner of its key. -/
theorem SingleWriters.mem_taken (hw : SingleWriters P owner es)
    (h : Run (Exchange.Step (CapsuleDBServer.handle P) route) (Exchange.start s) es x) {c : C}
    (hm : (c, m) ∈ takenAll es) (hp : putOf P m = some p) : owner p.key = c := by
  have hsent := (Exchange.takenFrom_initial h c).subset (Exchange.mem_takenFrom.mpr hm)
  exact hw.owns c p (List.mem_filterMap.mpr ⟨m, hsent, hp⟩)

/-- The last put of a key stands among the messages of its owner. -/
theorem lastPut_owner {as : List (C × Str)} (o : C)
    (howner : ∀ a ∈ as, ∀ p, putOf P a.2 = some p → p.key = k → a.1 = o) :
    lastPut k (putsOf P (as.map Prod.snd)) =
      lastPut k (putsOf P (as.filterMap fun a => if a.1 = o then some a.2 else none)) := by
  induction as using List.reverseRecOn with
  | nil => rfl
  | append_singleton as a ih =>
    have hlast := ih fun a' ha' => howner a' (List.mem_append_left _ ha')
    unfold putsOf at hlast ⊢
    rw [List.map_append, List.map_singleton, List.filterMap_append, List.filterMap_append,
      List.filterMap_append]
    by_cases ho : a.1 = o
    · cases hp : putOf P a.2 with
      | none => simpa only [List.filterMap_cons, List.filterMap_nil, hp, if_pos ho,
          List.append_nil] using hlast
      | some p => simp only [List.filterMap_cons, List.filterMap_nil, hp, if_pos ho,
          lastPut_concat, hlast]
    · cases hp : putOf P a.2 with
      | none => simpa only [List.filterMap_cons, List.filterMap_nil, hp, if_neg ho,
          List.append_nil] using hlast
      | some p =>
        have hk : p.key ≠ k := fun hk => ho (howner a (by simp) p hp hk)
        simpa only [List.filterMap_cons, List.filterMap_nil, hp, if_neg ho, lastPut_concat,
          if_neg hk, List.append_nil] using hlast

/-- **What a running server holds** of clients that put their own keys. -/
theorem server_current {d : S.Disk}
    (h : Run (Exchange.Step (CapsuleDBServer.handle P) route)
      (Exchange.start (CapsuleDBServer.init d)) es x) (hrun : x.running = true)
    (hw : SingleWriters P owner es) :
    CurrentInv S MEMTABLE_SIZE (putsOf P ((takenAll es).map Prod.snd)) x.server := by
  obtain ⟨fs, hsession, hputs, -⟩ := running_session h hrun
  rw [← hputs]
  refine session_current (by decide) (by decide) hsession ?_
  rw [hputs]
  exact hw.taken_increasing h

/-- A put and a get of the key `107` by the client `0`, the put taken already. -/
@[irreducible] def sampleExchange : List (ExchangeEvent ℕ Str Str ServerFault) :=
  [.send 0 (Client.putRequest (sample 107 1 1)).serialize,
    .serve 0 (Client.putRequest (sample 107 1 1)).serialize none,
    .send 0 (Client.getRequest [107]).serialize]

/-- In the sample one client puts. -/
theorem sampleExchange_singleWriters :
    SingleWriters parseRequest (fun _ => 0) sampleExchange := by
  have hput := putOf_eq_some.mpr (callOf_putRequest parseRequest_serialize (sample 107 1 1))
  have hget := putOf_get (callOf_getRequest parseRequest_serialize (k := [107]) (by decide))
  have hputs : ∀ c, putsOf parseRequest (sentBy sampleExchange c) =
      if 0 = c then [{ sample 107 1 1 with txn_msgType := CapsuleDBDriver.putType }] else [] := by
    intro c
    unfold sampleExchange
    by_cases hc : 0 = c
    · simp [putsOf, sentBy, List.filterMap_cons, ExchangeEvent.sent, hc, hput, hget]
    · simp [putsOf, sentBy, List.filterMap_cons, ExchangeEvent.sent, hc]
  constructor
  · intro c p hp
    rw [hputs] at hp
    split_ifs at hp with hc
    · exact hc
    · cases hp
  · intro c
    rw [hputs]
    split_ifs
    · exact List.pairwise_singleton _ _
    · exact List.Pairwise.nil

/-- Two clients put one key, the second with an older timestamp, and ask for it. -/
@[irreducible] def sampleRivals : List (ExchangeEvent ℕ Str Str ServerFault) :=
  [.send 0 (Client.putRequest (sample 107 1 2)).serialize,
    .send 1 (Client.putRequest (sample 107 2 1)).serialize,
    .serve 0 (Client.putRequest (sample 107 1 2)).serialize none,
    .serve 1 (Client.putRequest (sample 107 2 1)).serialize none,
    .send 1 (Client.getRequest [107]).serialize]

/-- **What ends a server**, whatever is sent to it: a message that cannot be parsed, the block
store, or a put that makes a capacity overflow, for which more than `2 ^ 31 / 12 - 50` different
keys must have been put. -/
theorem server_stops_only {d : S.Disk} {c : C} {e : ServerFault}
    (h : Run (Exchange.Step (CapsuleDBServer.handle P) route)
      (Exchange.start (CapsuleDBServer.init d : World S)) (es ++ [.stop c m e]) x) :
    (e = .logicError ∧ P m = none) ∨ e = .engine .io ∨
    (e = .engine .overflow ∧ (putOf P m).isSome ∧
      2 ^ 31 < 12 * (distinctKeys (putsOf P ((takenAll es).map Prod.snd)) + MEMTABLE_SIZE)) := by
  obtain ⟨u, hu, hstep⟩ := h.snoc_inv
  cases hstep with
  | @stop _ _ rest _ s' hrun hq hm =>
    obtain ⟨fs, hsession, hputs, -⟩ := running_session hu hrun
    have hinv := session_inv (B := MEMTABLE_SIZE) (by decide) (by decide) hsession
    rw [hputs] at hinv
    rcases (handle_spec P m u.server).of_error hm with hparse | ⟨p, e', rfl, hput, he⟩ |
      ⟨k, e', rfl, -, he⟩
    · exact Or.inl hparse
    · rcases (put_outcome (by decide) hinv.inv p).of_error he with ⟨rfl, hcramped, hfull⟩ | ⟨rfl, -⟩
      · have hkeys := hcramped.keys hinv.inv (fun k x hx => (hinv.source k x hx).1) hfull
        exact Or.inr (Or.inr ⟨rfl, by simp [putOf_eq_some.mpr hput], hkeys⟩)
      · exact Or.inr (Or.inl rfl)
    · obtain rfl := (get_safe hinv.inv k).of_error he
      exact Or.inr (Or.inl rfl)

end

/-- A message that ends in the middle of a number. -/
theorem server_stops_only_sample :
    (ServerFault.logicError = .logicError ∧ parseRequest [255] = none) ∨
    ServerFault.logicError = .engine .io ∨
    (ServerFault.logicError = .engine .overflow ∧ (putOf parseRequest [255]).isSome ∧
      2 ^ 31 < 12 * (distinctKeys (putsOf parseRequest ((takenAll
        ([.send 0 [255]] : List (ExchangeEvent ℕ Str Str ServerFault))).map Prod.snd))
          + MEMTABLE_SIZE)) := by
  have h : Run (Exchange.Step (CapsuleDBServer.handle parseRequest) fun _ => 0)
      (Exchange.start (CapsuleDBServer.init [] : World memoryStore)) [.send 0 [255]] _ :=
    Run.single (Exchange.Step.send _ _ _)
  exact server_stops_only (S := memoryStore)
    (h.snoc (Exchange.Step.stop (c := 0) (m := [255]) rfl rfl rfl))

/-! ## Where the replies go -/

section

variable {es : List (ExchangeEvent C Str Str ServerFault)} {x : Exchange C Str Str (World S)}

/-- **When replies reach those who asked.**  The socket of the server hands its replies to the
connected clients in some order of its own, in turn or otherwise, that does not look at who asked.
In every run in which only connected clients send, every client gets the replies to its own
messages, exactly if there are no two connected clients. -/
theorem replies_reach_askers_iff (hP : ParsesRequests P) (d : S.Disk) (connected : Set C)
    (hroute : ∀ n, route n ∈ connected) :
    (∀ es x, Run (Exchange.Step (CapsuleDBServer.handle P) route)
        (Exchange.start (CapsuleDBServer.init d : World S)) es x →
      (∀ c, sentBy es c ≠ [] → c ∈ connected) →
      ∀ c, receivedBy es c ++ x.replied c = answersTo es c) ↔ connected.Subsingleton := by
  constructor
  · intro hall c hc c' hc'
    by_contra hne
    -- one of the two is not the one to whom the first reply goes
    obtain ⟨a, ha, hfirst⟩ : ∃ a ∈ connected, route 0 ≠ a := by
      by_cases h0 : route 0 = c
      · exact ⟨c', hc', h0 ▸ hne⟩
      · exact ⟨c, hc, h0⟩
    have hask : callOf P (Client.getRequest [107]).serialize = some (.get [107]) :=
      callOf_getRequest hP (by decide)
    have hanswer : CapsuleDBServer.handle P (Client.getRequest [107]).serialize
        (CapsuleDBServer.init d : World S) =
          .ok (some (outputRequest notFound).serialize) (CapsuleDBServer.init d) := by
      unfold CapsuleDBServer.handle
      rw [handleMessage_get hask]
      rfl
    have hsend : Run (Exchange.Step (CapsuleDBServer.handle P) route)
        (Exchange.start (CapsuleDBServer.init d : World S))
        [.send a (Client.getRequest [107]).serialize] _ :=
      Run.single (Exchange.Step.send _ _ _)
    have hq : Function.update (fun _ => []) a ([] ++ [(Client.getRequest [107]).serialize]) a =
      (Client.getRequest [107]).serialize :: [] := by simp
    have hserve := hsend.snoc (Exchange.Step.serve rfl hq hanswer)
    have hsent : ∀ c, sentBy [ExchangeEvent.send a (Client.getRequest [107]).serialize,
        .serve (ε := ServerFault) a (Client.getRequest [107]).serialize
          (some (outputRequest notFound).serialize)] c ≠ [] → c ∈ connected := by
      intro c hc
      by_contra hnot
      have hca : a ≠ c := fun he => hnot (he ▸ ha)
      simp [sentBy, List.filterMap_cons, ExchangeEvent.sent, hca] at hc
    have h := hall _ _ hserve hsent a
    simp [receivedBy, answersTo, answeredAll, List.filterMap_cons, ExchangeEvent.received,
      ExchangeEvent.answered, Exchange.reply, Exchange.start,
      Function.update_of_ne (Ne.symm hfirst)] at h
  · intro hone es x h hsent c
    have hroute' : ∀ n, route n = route 0 := fun n => hone (hroute n) (hroute 0)
    have hasked : ∀ a ∈ answeredAll es, a.1 = route 0 := fun a ha =>
      hone (hsent a.1 (Exchange.answered_asked h ha)) (hroute 0)
    rw [(Exchange.replies_conserved h).2 c]
    exact routedTo_eq_filterMap hasked hroute' 0 c

/-- Two clients and replies in turn. -/
theorem replies_reach_askers_iff_sample :
    (∀ es x, Run (Exchange.Step (CapsuleDBServer.handle parseRequest) fun n => n % 2)
        (Exchange.start (CapsuleDBServer.init [] : World memoryStore)) es x →
      (∀ c, sentBy es c ≠ [] → c ∈ ({0, 1} : Set ℕ)) →
      ∀ c, receivedBy es c ++ x.replied c = answersTo es c) ↔ ({0, 1} : Set ℕ).Subsingleton :=
  replies_reach_askers_iff (S := memoryStore) parseRequest_serialize [] {0, 1} fun n => by
    have hlt : n % 2 < 2 := Nat.mod_lt n (by decide)
    simp only [Set.mem_insert_iff, Set.mem_singleton_iff]
    omega

end

/-! ## Two servers -/

/-- What two servers send for one message: nothing, or replies with corresponding payloads. -/
def SameReply (f : KvsPayload → KvsPayload) (r r' : Option Str) : Prop :=
  (r = none ∧ r' = none) ∨
    ∃ a, r = some (outputRequest a).serialize ∧ r' = some (outputRequest (f a)).serialize

/-- Replies that are the same up to nothing are the same. -/
theorem sameReply_id {r r' : Option Str} (h : SameReply id r r') : r' = r := by
  rcases h with ⟨rfl, rfl⟩ | ⟨a, rfl, rfl⟩
  · rfl
  · rfl

section

variable {S' : BlockStore} {f : KvsPayload → KvsPayload} {v : World S} {v' : World S'}

/-- What stands behind `db` does what the engine does, on corresponding payloads. -/
structure Mirrors (S : BlockStore) {S' : BlockStore} (f : KvsPayload → KvsPayload)
    (put : KvsPayload → EngineM S' Unit) (get : Str → EngineM S' KvsPayload) : Prop where
  put : ∀ {v : World S} {v' : World S'}, SameWorld f v v' → ∀ p,
    InStep (CallBoth f fun _ _ => True) (CapsuleDB.put p v) (put p v')
  get : ∀ {v : World S} {v' : World S'}, SameWorld f v v' → ∀ {k}, k ≠ [] →
    InStep (CallBoth f fun a a' => a' = f a) (CapsuleDB.get k v) (get k v')

variable {put : KvsPayload → EngineM S' Unit} {get : Str → EngineM S' KvsPayload}

/-- **One message to both servers.** -/
theorem Mirrors.handle (hm : Mirrors S f put get) (P : Str → Option DBRequest) (m : Str)
    (h : SameWorld f v v') :
    Lockstep (fun e => e = .engine .io) (fun r w r' w' => SameReply f r r' ∧ SameWorld f w w')
      (CapsuleDBServer.handle P m v) (handleMessage P put get m v') := by
  unfold CapsuleDBServer.handle
  cases hcall : callOf P m with
  | none =>
    rw [handleMessage_none hcall, handleMessage_none hcall]
    exact Or.inl rfl
  | some call =>
    cases call with
    | put p =>
      rw [handleMessage_put hcall, handleMessage_put hcall]
      apply ((hm.put h p).mapError fun _ => congrArg ServerFault.engine).bind
      rintro - w - w' ⟨-, hw⟩
      exact Lockstep.pure ⟨Or.inl ⟨rfl, rfl⟩, hw⟩
    | get k =>
      obtain ⟨-, -, -, hk⟩ := callOf_get hcall
      rw [handleMessage_get hcall, handleMessage_get hcall]
      apply ((hm.get h hk).mapError fun _ => congrArg ServerFault.engine).bind
      rintro a w _ w' ⟨rfl, hw⟩
      exact Lockstep.pure ⟨Or.inr ⟨a, rfl, rfl⟩, hw⟩

/-- **All messages to both servers.** -/
theorem Mirrors.handleMessages (hm : Mirrors S f put get) (P : Str → Option DBRequest)
    (ms : List Str) (h : SameWorld f v v') :
    Lockstep (fun e => e = .engine .io)
      (fun rs w rs' w' => List.Forall₂ (SameReply f) rs rs' ∧ SameWorld f w w')
      (handleMessages (CapsuleDBServer.handle P) ms v)
      (handleMessages (handleMessage P put get) ms v') := by
  induction ms generalizing v v' with
  | nil => exact Lockstep.pure ⟨List.Forall₂.nil, h⟩
  | cons m ms ih =>
    apply (hm.handle P m h).bind
    rintro r w r' w' ⟨hr, hw⟩
    apply (ih hw).bind
    rintro rs u rs' u' ⟨hrs, hu⟩
    exact Lockstep.pure ⟨List.Forall₂.cons hr hrs, hu⟩

end

/-- Engines over any two stores answer alike. -/
theorem mirrors_engine (S S' : BlockStore) :
    Mirrors S id (CapsuleDB.put : KvsPayload → EngineM S' Unit) CapsuleDB.get where
  put h p := put_inStep relabels_id h p
  get {_ _} h {k} _ := get_inStep relabels_id h k

/-- **The block store does not matter**: servers on any two block stores send the same replies. -/
theorem servers_agree (S S' : BlockStore) (P : Str → Option DBRequest) (ms : List Str) (d : S.Disk)
    (d' : S'.Disk) :
    Lockstep (fun e => e = .engine .io) (fun rs _ rs' _ => rs' = rs)
      (handleMessages (CapsuleDBServer.handle P) ms (CapsuleDBServer.init d : World S))
      (handleMessages (CapsuleDBServer.handle P) ms (CapsuleDBServer.init d' : World S')) := by
  have hboth : SameWorld id (CapsuleDBServer.init d : World S)
      (CapsuleDBServer.init d' : World S') := spawnDB_same id _ d d'
  apply ((mirrors_engine S S').handleMessages P ms hboth).mono
  rintro rs - rs' - ⟨hrs, -⟩
  exact (List.forall₂_eq_eq_eq ▸ hrs.imp fun _ _ h => (sameReply_id h).symm : rs = rs').symm

/-- The engine in the enclave answers as the engine, but for the message type. -/
theorem mirrors_enclave (S S' : BlockStore) :
    Mirrors S strip (CapsuleDBDriver.put : KvsPayload → EngineM S' Unit) CapsuleDBDriver.get where
  put h p := by
    rw [driver_put_eq]
    exact put_inStep relabels_strip h p
  get {v v'} h {k} hk := by
    have hdirect : CapsuleDB.get k v = (CapsuleDB.get k >>= pure) v := by rw [bind_pure]
    rw [hdirect, driver_get_eq hk]
    apply (get_inStep relabels_strip h k).bind
    rintro a w _ w' ⟨rfl, hw⟩
    exact Lockstep.pure ⟨rfl, hw⟩

/-- **The server of the enclave agrees with that of the engine.**  They are sent the same messages
and stand on block stores of any two kinds.  They end at the same message with the same exception,
or answer all messages alike but for the message types of payloads, which the enclave does not
carry, unless one of the block stores fails. -/
theorem enclave_server_agrees (S S' : BlockStore) (P : Str → Option DBRequest) (ms : List Str)
    (d : S.Disk) (d' : S'.Disk) :
    Lockstep (fun e => e = .engine .io) (fun rs _ rs' _ => List.Forall₂ (SameReply strip) rs rs')
      (handleMessages (CapsuleDBServer.handle P) ms (CapsuleDBServer.init d : World S))
      (handleMessages (CapsuleDBEnclaveServer.handle P) ms
        (CapsuleDBEnclaveServer.init d' : World S')) := by
  have hboth : SameWorld strip (CapsuleDBServer.init d : World S)
      (CapsuleDBEnclaveServer.init d' : World S') := by
    unfold CapsuleDBEnclaveServer.init
    rw [initializeEnclave_config]
    exact spawnDB_same strip _ d d'
  exact ((mirrors_enclave S S').handleMessages P ms hboth).mono fun _ _ _ _ hr => hr.1

end Capsule.Analysis
