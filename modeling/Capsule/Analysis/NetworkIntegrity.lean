import Capsule.Analysis.NetworkLaws

/-!
# An attacker between the clients and the engine

On the network PDUs may be dropped, delayed, repeated and altered, and replies of the engine may be
sent back to it as if they were requests.  Nothing but the cipher stands against this: what opens
was sealed, by a client or in a reply (`Sealed`).  A reply holds what was put before, so that
sending it back puts nothing new.  So the engine stores nothing, and clients read nothing, but what
clients have put (`network_stores_client_puts`).
-/

set_option autoImplicit false

namespace Capsule.Analysis

open Library Program CapsuleDBNetworkClient CapsuleDBTestClient

variable {S : BlockStore} {N : CapsuleDBNetworkClient} {B : ℕ} {d : S.Disk} {w w' : World S}

/-- A PDU that arrives, with the nonce for the reply, and the reply. -/
abbrev Delivery := (Str × CapsulePduMsg) × CapsulePduMsg

variable {sent : Set (List KvsPayload)} {as : List Delivery} {p : KvsPayload}

/-! ## What can be opened -/

/-- What opens was sealed: by a client, which sealed one of its lists, or in one of the replies. -/
def Sealed (N : CapsuleDBNetworkClient) (sent : Set (List KvsPayload)) (as : List Delivery)
    (pdu : CapsulePduMsg) : Prop :=
  ∀ text, decryptMessage N.aead pdu.payload_in_transit = some text →
    (∃ l ∈ sent, text = serializePayloadL l) ∨
      ∃ a ∈ as, decryptMessage N.aead a.2.payload_in_transit = some text

/-- A PDU of a list that a client sends is sealed. -/
theorem sealed_of_client (hN : NetworkPlatform N) {nonce : Str}
    (hnonce : nonce.length = N.aead.nonceSize) {l : List KvsPayload} (hl : l ∈ sent) (hne : l ≠ [])
    (sender : Int32) (ret_addr : Str) :
    Sealed N sent as (sealedPdu N nonce sender ret_addr l hne) := by
  intro text htext
  rw [decrypt_sealedPdu hN hnonce] at htext
  exact Or.inl ⟨l, hl, (Option.some.inj htext).symm⟩

/-- An earlier reply is sealed. -/
theorem sealed_of_reply {a : Delivery} (ha : a ∈ as) : Sealed N sent as a.2 :=
  fun _ htext => Or.inr ⟨a, ha, htext⟩

/-- **Ciphertexts cannot be forged**: of every PDU that arrives, what opens was sealed before. -/
def Unforged (N : CapsuleDBNetworkClient) (sent : Set (List KvsPayload)) (as : List Delivery) :
    Prop :=
  ∀ pre a, pre ++ [a] <+: as → Sealed N sent pre a.1.2

/-- Where nothing is delivered, nothing is forged. -/
theorem unforged_nil : Unforged N sent [] := fun pre a h => by simp at h

/-- One more sealed PDU forges nothing. -/
theorem Unforged.concat (h : Unforged N sent as) {a : Delivery} (ha : Sealed N sent as a.1.2) :
    Unforged N sent (as ++ [a]) := by
  intro pre b hb
  rcases List.prefix_concat_iff.mp hb with heq | hold
  · obtain ⟨rfl, hba⟩ := List.append_inj' heq rfl
    rw [List.singleton_inj.mp hba]
    exact ha
  · exact h pre b hold

/-- The lists that clients seal: the codec carries their payloads, and no key is empty. -/
def Sendables (sent : Set (List KvsPayload)) : Prop :=
  ∀ l ∈ sent, l.length < 2 ^ 29 ∧ ∀ p ∈ l, Carried p ∧ p.key ≠ []

/-- A put that a client has asked for. -/
def ClientPut (sent : Set (List KvsPayload)) (p : KvsPayload) : Prop := ∃ l ∈ sent, p ∈ servedPuts l

/-- What is put of a PDU is a put of it. -/
theorem mem_servedPuts {l : List KvsPayload} (h : p ∈ servedPuts l) :
    p ∈ l ∧ p.txn_msgType = CapsuleDBDriver.putType := by
  obtain ⟨hmem, htype⟩ := List.mem_filter.mp h
  exact ⟨(List.takeWhile_prefix _).subset hmem, of_decide_eq_true htype⟩

/-- The get of a PDU is one of its payloads. -/
theorem mem_of_servedGet {l : List KvsPayload} (h : servedGet l = some p) : p ∈ l :=
  List.mem_of_find?_eq_some h

/-- A put of a client is carried, has a key and is a put. -/
theorem ClientPut.spec (hsent : Sendables sent) (h : ClientPut sent p) :
    Carried p ∧ p.key ≠ [] ∧ p.txn_msgType = CapsuleDBDriver.putType := by
  obtain ⟨l, hl, hp⟩ := h
  obtain ⟨hmem, htype⟩ := mem_servedPuts hp
  obtain ⟨hcarried, hkey⟩ := (hsent l hl).2 p hmem
  exact ⟨hcarried, hkey, htype⟩

/-- What can stand in a reply. -/
def Answerable (sent : Set (List KvsPayload)) (q : KvsPayload) : Prop :=
  q = notFound ∨ ClientPut sent q

/-- The codec carries what the engine may answer. -/
theorem Answerable.carried (hsent : Sendables sent) {q : KvsPayload} (h : Answerable sent q) :
    Carried q := by
  rcases h with rfl | hput
  · exact carried_notFound
  · exact (hput.spec hsent).1

/-- **A reply that is sent back** as a request asks for no get, and for no put but one that was made
before. -/
theorem Answerable.served (hsent : Sendables sent) {q : KvsPayload} (h : Answerable sent q) :
    (∀ p ∈ servedPuts [q], ClientPut sent p) ∧ servedGet [q] = none := by
  rcases h with rfl | hput
  · have hputs : servedPuts [notFound] = [] := by decide
    exact ⟨by simp [hputs], by decide⟩
  · obtain ⟨-, -, htype⟩ := hput.spec hsent
    obtain ⟨hputs, hgets⟩ := served_puts (List.forall_mem_singleton.mpr htype)
    exact ⟨by rw [hputs, List.forall_mem_singleton]; exact hput, hgets⟩

/-! ## The invariant -/

/-- The payloads of a PDU that is served are those of the text that it opens to. -/
theorem acceptedPayloads_cases (N : CapsuleDBNetworkClient) (inPDU : CapsulePduMsg) :
    acceptedPayloads N inPDU = [] ∨
      ∃ text, decryptMessage N.aead inPDU.payload_in_transit = some text ∧
        deserializePayloadL text = .ok (acceptedPayloads N inPDU) := by
  unfold acceptedPayloads
  dsimp only
  split
  · exact Or.inl rfl
  · cases hdecrypt : decryptMessage N.aead inPDU.payload_in_transit with
    | none =>
      rw [decryptPayloadL_none (capsuleFromProto NetworkPdu.new inPDU) hdecrypt]
      exact Or.inl rfl
    | some text =>
      rw [decryptPayloadL_some (capsuleFromProto NetworkPdu.new inPDU) hdecrypt]
      cases hread : deserializePayloadL text with
      | error e => exact Or.inl rfl
      | ok l => exact Or.inr ⟨text, rfl, hread⟩

/-- What holds of a session over the network: it stores what clients have put, and the replies hold
nothing else. -/
structure NetworkInv (N : CapsuleDBNetworkClient) (sent : Set (List KvsPayload)) (d : S.Disk)
    (B : ℕ) (as : List Delivery) (w : World S) : Prop where
  session : ∃ es, Run (EngineStep S) (spawnDB B d) es w ∧ ∀ p ∈ donePuts es, ClientPut sent p
  replies : ∀ a ∈ as, ∀ text, decryptMessage N.aead a.2.payload_in_transit = some text →
    ∃ q, Answerable sent q ∧ text = serializePayloadL [q]

/-- What an unforged PDU asks for. -/
theorem NetworkInv.served (h : NetworkInv N sent d B as w) (hsent : Sendables sent)
    {pdu : CapsulePduMsg} (hsealed : Sealed N sent as pdu) :
    (∀ p ∈ servedPuts (acceptedPayloads N pdu), ClientPut sent p) ∧
      ∀ p, servedGet (acceptedPayloads N pdu) = some p → p.key ≠ [] := by
  rcases acceptedPayloads_cases N pdu with hnil | ⟨text, hdecrypt, hread⟩
  · rw [hnil]
    exact ⟨by simp [servedPuts], by simp [servedGet]⟩
  · rcases hsealed text hdecrypt with ⟨l, hl, rfl⟩ | ⟨a, ha, hreply⟩
    · -- a client has sealed it
      obtain ⟨hlen, hall⟩ := hsent l hl
      rw [deserialize_serialize hlen fun p hp => (hall p hp).1] at hread
      rw [← Except.ok.inj hread]
      exact ⟨fun p hp => ⟨l, hl, hp⟩, fun p hp => (hall p (mem_of_servedGet hp)).2⟩
    · -- it is a reply
      obtain ⟨q, hq, rfl⟩ := h.replies a ha text hreply
      rw [deserialize_serialize (by simp)
        (List.forall_mem_singleton.mpr (hq.carried hsent))] at hread
      rw [← Except.ok.inj hread]
      obtain ⟨hputs, hnone⟩ := hq.served hsent
      exact ⟨hputs, by simp [hnone]⟩

/-- Nothing opens to anything in an empty reply. -/
theorem decrypt_empty (hsize : 0 < N.aead.nonceSize) :
    decryptMessage N.aead ({} : CapsulePduMsg).payload_in_transit = none := if_pos hsize

/-- **One PDU keeps it.** -/
theorem NetworkInv.step (hN : NetworkPlatform N) (hsize : 0 < N.aead.nonceSize) (hB : 1 ≤ B)
    (hmax : 2 * B < 2 ^ 31) (h : NetworkInv N sent d B as w) (hsent : Sendables sent) {a : Delivery}
    (hnonce : a.1.1.length = N.aead.nonceSize) (hsealed : Sealed N sent as a.1.2)
    (hstep : N.handle a.1.1 a.1.2 w = .ok a.2 w') : NetworkInv N sent d B (as ++ [a]) w' := by
  obtain ⟨es, hrun, hes⟩ := h.session
  obtain ⟨hputs, hkey⟩ := h.served hsent hsealed
  obtain ⟨v, hrun', hreplied⟩ := (handle_session N a.1.1 a.1.2 w).of_ok hstep
  have hboth := hrun.append hrun'
  have hdone :
      ∀ p ∈ donePuts (es ++ (servedPuts (acceptedPayloads N a.1.2)).map fun p => .put p true),
      ClientPut sent p := by
    intro p hp
    rw [donePuts_append, donePuts_map_put] at hp
    exact (List.mem_append.mp hp).elim (hes p) (hputs p)
  obtain ⟨fs, hrun'', hnone⟩ := hreplied.session
  refine ⟨⟨_, hboth.append hrun'', ?_⟩, ?_⟩
  · rw [donePuts_append, hnone, List.append_nil]
    exact hdone
  · intro b hb text hdecrypt
    rcases List.mem_append.mp hb with hold | hnew
    · exact h.replies b hold text hdecrypt
    · rw [List.mem_singleton.mp hnew] at hdecrypt
      generalize hreply : a.2 = reply at hreplied hdecrypt
      generalize hq : servedGet (acceptedPayloads N a.1.2) = q at hreplied hkey
      cases hreplied with
      | nothing =>
        rw [decrypt_empty hsize] at hdecrypt
        cases hdecrypt
      | @found _ p x hget =>
        rw [replyPdu_eq hN hnonce, decrypt_sealedPdu hN hnonce] at hdecrypt
        refine ⟨x, ?_, (Option.some.inj hdecrypt).symm⟩
        have hfound := (session_inv hB hmax hboth).get_mem
          (fun p hp => ((hdone p hp).spec hsent).2.1) (hkey p rfl) hget
        exact hfound.imp_right (hdone x)

/-- **Every session over the network keeps it**, whatever arrives. -/
theorem network_inv (hN : NetworkPlatform N) (hsize : 0 < N.aead.nonceSize) (hB : 1 ≤ B)
    (hmax : 2 * B < 2 ^ 31) (hsent : Sendables sent)
    (h : Run (Exchange.Handles fun m => N.handle m.1 m.2) (spawnDB B d : World S) as w)
    (hnonces : ∀ a ∈ as, a.1.1.length = N.aead.nonceSize) (hforge : Unforged N sent as) :
    NetworkInv N sent d B as w := by
  have hstart : NetworkInv N sent d B [] (spawnDB B d : World S) :=
    ⟨⟨[], Run.nil _, by simp [donePuts]⟩, by simp⟩
  refine Run.invariant (P := fun (as : List Delivery) v => NetworkInv N sent d B as v) h hstart ?_
  intro pre a u v hpre _ hinv hstep
  exact hinv.step hN hsize hB hmax hsent (hnonces a (hpre.subset (by simp)))
    (hforge pre a hpre) hstep

/-! ## What clients read -/

/-- What is read of a reply is the value of one of its puts, or nothing. -/
theorem firstPut_cases (l : List KvsPayload) :
    firstPut l = [] ∨ ∃ p ∈ l, p.txn_msgType = CapsuleDBDriver.putType ∧ firstPut l = p.value := by
  induction l with
  | nil => exact Or.inl rfl
  | cons q l ih =>
    rw [firstPut]
    split_ifs with hput
    · exact Or.inr ⟨q, List.mem_cons_self, hput, rfl⟩
    · apply ih.imp_right
      rintro ⟨p, hp, htype, hvalue⟩
      exact ⟨p, List.mem_cons_of_mem q hp, htype, hvalue⟩

/-- A client reads a value that a client has sent in a put, or nothing. -/
theorem NetworkInv.read (h : NetworkInv N sent d B as w) (hsent : Sendables sent)
    {in_dc : CapsulePduMsg} (hsealed : Sealed N sent as in_dc) {value : Str}
    (hread : waitResponse N in_dc = .ok value) :
    value = [] ∨ ∃ l ∈ sent, ∃ p ∈ l, p.txn_msgType = CapsuleDBDriver.putType ∧
      value = p.value := by
  unfold waitResponse at hread
  cases hdecrypt : decryptMessage N.aead in_dc.payload_in_transit with
  | none =>
    rw [decryptPayloadL_none (capsuleFromProto NetworkPdu.new in_dc) hdecrypt] at hread
    exact Or.inl (Except.ok.inj hread).symm
  | some text =>
    rw [decryptPayloadL_some (capsuleFromProto NetworkPdu.new in_dc) hdecrypt] at hread
    rcases hsealed text hdecrypt with ⟨l, hl, rfl⟩ | ⟨a, ha, hreply⟩
    · obtain ⟨hlen, hall⟩ := hsent l hl
      rw [deserialize_serialize hlen fun p hp => (hall p hp).1] at hread
      obtain rfl : firstPut l = value := Except.ok.inj hread
      exact (firstPut_cases l).imp_right fun ⟨p, hp⟩ => ⟨l, hl, p, hp⟩
    · obtain ⟨q, hq, rfl⟩ := h.replies a ha text hreply
      rw [deserialize_serialize (by simp)
        (List.forall_mem_singleton.mpr (hq.carried hsent))] at hread
      obtain rfl : firstPut [q] = value := Except.ok.inj hread
      rcases hq with rfl | ⟨l, hl, hput⟩
      · exact Or.inl (by decide)
      · obtain ⟨hmem, htype⟩ := mem_servedPuts hput
        exact Or.inr ⟨l, hl, q, hmem, htype, if_pos htype⟩

/-- **Nothing is stored or read but what clients have put.**  Whatever PDUs arrive at the engine, in
any order and number, altered or sent back, as long as ciphertexts cannot be forged: the engine has
had a session in which every put that was made is one that a client has asked for.  And whatever
arrives at a client in reply, what it reads is the value of a put that a client has sent, or
nothing. -/
theorem network_stores_client_puts (hN : NetworkPlatform N) (hsize : 0 < N.aead.nonceSize)
    (hB : 1 ≤ B) (hmax : 2 * B < 2 ^ 31) (hsent : Sendables sent)
    (h : Run (Exchange.Handles fun m => N.handle m.1 m.2) (spawnDB B d : World S) as w)
    (hnonces : ∀ a ∈ as, a.1.1.length = N.aead.nonceSize) (hforge : Unforged N sent as) :
    (∃ es, Run (EngineStep S) (spawnDB B d) es w ∧ ∀ p ∈ donePuts es, ClientPut sent p) ∧
    ∀ in_dc, Sealed N sent as in_dc → ∀ value, waitResponse N in_dc = .ok value →
      value = [] ∨ ∃ l ∈ sent, ∃ p ∈ l, p.txn_msgType = CapsuleDBDriver.putType ∧
        value = p.value := by
  have hinv := network_inv hN hsize hB hmax hsent h hnonces hforge
  exact ⟨hinv.session, fun in_dc hsealed value => hinv.read hsent hsealed⟩

/-- What a client sends: a put and a get of its key. -/
def sampleSent : Set (List KvsPayload) :=
  {[payloadOfRequest samplePut], [payloadOfRequest sampleGet]}

/-- The reply to the get. -/
def sampleReply : CapsulePduMsg :=
  sealedPdu sampleNetwork sampleGet.replyNonce sampleNetwork.id [] [payloadOfRequest samplePut]
    (List.cons_ne_nil _ _)

/-- A request arrives. -/
def deliver (r : Request) (reply : CapsulePduMsg) : Delivery :=
  ((r.replyNonce, genPayload sampleNetwork r.nonce r.recv_addr r.key r.value r.isPut r.currTime),
    reply)

/-- A put and a get arrive, and then the reply to the get. -/
def sampleDeliveries : List Delivery :=
  [deliver samplePut {}, deliver sampleGet sampleReply, ((sampleGet.replyNonce, sampleReply), {})]

/-- The lists of the sample can be sent. -/
theorem sampleSent_sendable : Sendables sampleSent := by
  rintro l (rfl | rfl)
  · refine ⟨by decide, List.forall_mem_singleton.mpr ⟨?_, by decide⟩⟩
    exact carried_of_not_mem (by decide) (by decide) (by decide) (by decide)
  · refine ⟨by decide, List.forall_mem_singleton.mpr ⟨?_, by decide⟩⟩
    exact carried_of_not_mem (by decide) (by decide) (by decide) (by decide)

/-- The deliveries of the sample are unforged, the reply that comes back included. -/
theorem sampleDeliveries_unforged : Unforged sampleNetwork sampleSent sampleDeliveries := by
  have hput : Sealed sampleNetwork sampleSent [] (deliver samplePut {}).1.2 :=
    sealed_of_client sampleNetwork_platform rfl (Or.inl rfl) (List.cons_ne_nil _ _) 0 _
  have hget :
      Sealed sampleNetwork sampleSent [deliver samplePut {}] (deliver sampleGet sampleReply).1.2 :=
    sealed_of_client sampleNetwork_platform rfl (Or.inr rfl) (List.cons_ne_nil _ _) 0 _
  have hreply : Sealed sampleNetwork sampleSent
      [deliver samplePut {}, deliver sampleGet sampleReply] sampleReply :=
    sealed_of_reply (a := deliver sampleGet sampleReply) (by simp)
  exact ((unforged_nil.concat hput).concat hget).concat hreply

/-- The theorem at a run in which the reply is sent back to the network client. -/
theorem network_stores_client_puts_sample :
    ∃ w : World memoryStore,
      Run (Exchange.Handles fun m => sampleNetwork.handle m.1 m.2) (spawnDB 1 [])
        sampleDeliveries w ∧
      (∃ es, Run (EngineStep memoryStore) (spawnDB 1 []) es w ∧
        ∀ p ∈ donePuts es, ClientPut sampleSent p) ∧
      ∀ in_dc, Sealed sampleNetwork sampleSent sampleDeliveries in_dc → ∀ value,
        waitResponse sampleNetwork in_dc = .ok value → value = [] ∨ ∃ l ∈ sampleSent, ∃ p ∈ l,
          p.txn_msgType = CapsuleDBDriver.putType ∧ value = p.value := by
  have hcarried := fun l hl p hp => ((sampleSent_sendable l hl).2 p hp).1
  have hput : Sendable sampleNetwork samplePut :=
    ⟨hcarried _ (Or.inl rfl) _ (by simp), by decide, rfl, rfl⟩
  have hget : Sendable sampleNetwork sampleGet :=
    ⟨hcarried _ (Or.inr rfl) _ (by simp), by decide, rfl, rfl⟩
  obtain ⟨v, hrun⟩ :
      ∃ v : World memoryStore, Run (Exchange.Handles fun m => sampleNetwork.handle m.1 m.2)
      (spawnDB 1 []) sampleDeliveries v := by
    obtain ⟨hputs, hnone⟩ := served_puts (l := [payloadOfRequest samplePut]) (by decide)
    obtain ⟨hgets, hsome⟩ := served_get (p := payloadOfRequest sampleGet) (l := []) (by decide)
    have hreply := handle_sealed (S := memoryStore) sampleNetwork_platform hget.replyNonce_length
      sampleGet.replyNonce sampleNetwork.id [] (List.cons_ne_nil _ _) (by simp)
      (List.forall_mem_singleton.mpr hput.carried)
    obtain ⟨v, h₁, h₂, h₃⟩ : ∃ v : World memoryStore,
        Exchange.Handles (fun m => sampleNetwork.handle m.1 m.2) (spawnDB 1 [])
          (deliver samplePut {}) v ∧
        Exchange.Handles (fun m => sampleNetwork.handle m.1 m.2) v
          (deliver sampleGet sampleReply) v ∧
        Exchange.Handles (fun m => sampleNetwork.handle m.1 m.2) v
          ((sampleGet.replyNonce, sampleReply), {}) v := by
      show ∃ v,
        sampleNetwork.handle samplePut.replyNonce (genPayload sampleNetwork _ _ _ _ _ _) _ = _ ∧
        sampleNetwork.handle sampleGet.replyNonce (genPayload sampleNetwork _ _ _ _ _ _) _ = _ ∧
        sampleNetwork.handle sampleGet.replyNonce (sealedPdu sampleNetwork _ _ _
          [payloadOfRequest samplePut] _) _ = _
      rw [handle_request sampleNetwork_platform hput, handle_request sampleNetwork_platform hget,
        hreply, handlePayloads_eq, hputs, hnone, hgets, hsome, puts_singleton, replyTo, replyTo,
        get_eq]
      exact ⟨_, rfl, rfl, rfl⟩
    exact ⟨v, ((Run.single h₁).snoc h₂).snoc h₃⟩
  exact ⟨v, hrun, network_stores_client_puts sampleNetwork_platform (by decide) (by decide)
    (by decide) sampleSent_sendable hrun (by decide) sampleDeliveries_unforged⟩

end Capsule.Analysis
