import Capsule.Program.NetworkClient
import Capsule.Analysis.CodecLaws
import Capsule.Analysis.Sessions
import Capsule.Library.Exchange

/-!
# Requests in signed PDUs

What a client sends in a PDU arrives at the engine: the payloads of the PDU are those that were
sent, if the codec carries them, and they are served up to the first get (`handle_batch`).  Whatever
PDUs arrive, the engine sees the puts of the accepted ones only (`pdus_are_session`).  And a client
that sends its requests one after the other has a session with the engine, and reads the value of
its last put (`network_reads_last_put`).
-/

set_option autoImplicit false

namespace Capsule.Analysis

open Library Program CapsuleDBNetworkClient CapsuleDBTestClient

variable {S : BlockStore} {N : CapsuleDBNetworkClient} {w w' : World S}

/-! ## One PDU -/

/-- What is relied on: what is encrypted can be decrypted, messages have digests, and what is signed
with the one key is accepted with the other. -/
structure NetworkPlatform (N : CapsuleDBNetworkClient) : Prop where
  opens : ∀ nonce message, nonce.length = N.aead.nonceSize →
    ∃ ciphertext, N.aead.sealMessage nonce message = some ciphertext ∧
      N.aead.openMessage nonce ciphertext = some message
  digests : ∀ message, ∃ digest, N.crypto.sha256 message = some digest
  accepts : ∀ message, N.crypto.verify N.verifying_key message
    (N.crypto.sign N.signing_key message) = true

/-- What is encrypted is decrypted. -/
theorem decryptMessage_encryptMessage (hN : NetworkPlatform N) {nonce : Str}
    (hnonce : nonce.length = N.aead.nonceSize) (message : Str) :
    ∃ text, encryptMessage N.aead nonce message = some text ∧
      decryptMessage N.aead text = some message := by
  obtain ⟨ciphertext, hseal, hopen⟩ := hN.opens nonce message hnonce
  refine ⟨hexText nonce ++ hexText ciphertext, by rw [encryptMessage, hseal]; rfl, ?_⟩
  have happ : hexText nonce ++ hexText ciphertext = hexText (nonce ++ ciphertext) :=
    List.flatMap_append.symm
  have hlen : ¬ (nonce ++ ciphertext).length < N.aead.nonceSize := by
    rw [List.length_append]
    omega
  rw [decryptMessage, happ, hexBytes_hexText]
  simp only [if_neg hlen]
  rw [← hnonce, List.take_left, List.drop_left, hopen]

/-- The payloads of a PDU are encrypted. -/
theorem encryptPayloadL_eq (hN : NetworkPlatform N) {nonce : Str}
    (hnonce : nonce.length = N.aead.nonceSize) (dc : NetworkPdu) :
    ∃ text, encryptPayloadL N.aead nonce dc true = ({ dc with payload_in_transit := text }, true) ∧
      decryptMessage N.aead text = some (serializePayloadL dc.payload_l) := by
  obtain ⟨text, hencrypt, hdecrypt⟩ :=
    decryptMessage_encryptMessage hN hnonce (serializePayloadL dc.payload_l)
  refine ⟨text, ?_, hdecrypt⟩
  simp only [encryptPayloadL, hencrypt, reduceCtorEq, if_false]

/-- A hash is made. -/
theorem withHash_eq (hN : NetworkPlatform N) (dc : NetworkPdu) :
    ∃ digest, N.crypto.sha256 (aggregated dc.toCapsulePdu) = some digest ∧
      N.withHash dc = ({ dc with hash := hexText digest }, true) := by
  obtain ⟨digest, hdigest⟩ := hN.digests (aggregated dc.toCapsulePdu)
  refine ⟨digest, hdigest, ?_⟩
  unfold withHash generateHash doHash
  rw [hdigest]

/-- A hashed and signed PDU is accepted. -/
theorem verifyDc_signed (hN : NetworkPlatform N) (dc : NetworkPdu) :
    verifyDc N.crypto (N.signed (N.withHash dc).1).toCapsulePdu N.verifying_key = true := by
  obtain ⟨digest, hdigest, hhash⟩ := withHash_eq hN dc
  rw [hhash]
  have hagg : aggregated (N.signed { dc with hash := hexText digest }).toCapsulePdu =
      aggregated dc.toCapsulePdu := rfl
  unfold verifyDc verifyHash verifySignature verifyMessage doHash
  rw [hagg, hdigest]
  simp only [signed, signDc, signMessage, hexBytes_hexText, hN.accepts, decide_true, Bool.and_true]

/-- The codec gives back the lists that it carries. -/
theorem deserialize_serialize {l : List KvsPayload} (hlen : l.length < 2 ^ 29)
    (hl : ∀ p ∈ l, Carried p) : deserializePayloadL (serializePayloadL l) = .ok l := by
  have hsplit := split_serialize fun p hp => (hl p hp).separable
  rcases deserialize_spec (serializePayloadL l) with ⟨hmod, -⟩ | ⟨rs, last, hpieces, -, hdec⟩
  · rw [hsplit, flatMap_fieldsOf, List.length_append, length_flatMap_list] at hmod
    simp at hmod
  · rw [hdec, pieces_eq_of_split hpieces hsplit, List.length_map, List.forall₂_map_left_iff,
      List.forall₂_same]
    exact ⟨by omega, fun p hp => ⟨stoi_stdToString (hl p hp).timestamp, rfl, rfl, rfl⟩⟩

/-- Texts without the character of the delimiter are carried. -/
theorem carried_of_not_mem {p : KvsPayload}
    (ht : -(2 ^ 31) ≤ p.txn_timestamp.toInt ∧ p.txn_timestamp.toInt < 2 ^ 31)
    (hm : 64 ∉ p.txn_msgType) (hk : 64 ∉ p.key) (hv : 64 ∉ p.value) : Carried p := by
  have hfree : ∀ {f : Str}, 64 ∉ f → Undelimited f := fun hf =>
    ⟨fun hin => hf (hin.subset (by simp [delimStr])), fun hlast => hf (List.mem_of_getLast? hlast)⟩
  exact ⟨ht, hfree hm, hfree hk, hfree hv⟩

/-- The codec carries the answer for a key that is not found. -/
theorem carried_notFound : Carried notFound :=
  carried_of_not_mem (by decide) (by decide) (by decide) (by decide)

/-- The message of the PDU that is made of a list of payloads. -/
def sealedPdu (N : CapsuleDBNetworkClient) (nonce : Str) (sender : Int32) (ret_addr : Str)
    (payload_l : List KvsPayload) (hne : payload_l ≠ []) : CapsulePduMsg :=
  let dc := payloadListToCapsule NetworkPdu.new payload_l hne sender ret_addr
  capsuleToProto (N.signed (N.withHash (encryptPayloadL N.aead nonce dc true).1).1)

/-- What cannot be opened leaves the PDU as it is. -/
theorem decryptPayloadL_none {A : Aead} (dc : NetworkPdu)
    (h : decryptMessage A dc.payload_in_transit = none) :
    decryptPayloadL A dc = .ok (dc, false) := by
  unfold decryptPayloadL
  rw [h]

/-- What opens is read. -/
theorem decryptPayloadL_some {A : Aead} (dc : NetworkPdu) {text : Str}
    (h : decryptMessage A dc.payload_in_transit = some text) :
    decryptPayloadL A dc =
      (deserializePayloadL text).map fun l => ({ dc with payload_l := l }, true) := by
  unfold decryptPayloadL
  rw [h]
  dsimp only
  cases deserializePayloadL text <;> rfl

/-- What is sealed is opened. -/
theorem decrypt_sealedPdu (hN : NetworkPlatform N) {nonce : Str}
    (hnonce : nonce.length = N.aead.nonceSize) (sender : Int32) (ret_addr : Str)
    {payload_l : List KvsPayload} (hne : payload_l ≠ []) :
    decryptMessage N.aead (sealedPdu N nonce sender ret_addr payload_l hne).payload_in_transit =
      some (serializePayloadL payload_l) := by
  obtain ⟨text, hencrypt, hdecrypt⟩ := encryptPayloadL_eq hN hnonce
    (payloadListToCapsule NetworkPdu.new payload_l hne sender ret_addr)
  obtain ⟨digest, -, hhash⟩ := withHash_eq hN
    { payloadListToCapsule NetworkPdu.new payload_l hne sender ret_addr with
      payload_in_transit := text }
  have htext : (sealedPdu N nonce sender ret_addr payload_l hne).payload_in_transit = text := by
    show (N.signed (N.withHash (encryptPayloadL N.aead nonce _ true).1).1).payload_in_transit = text
    rw [hencrypt, hhash]
    rfl
  rw [htext]
  exact hdecrypt

/-- **What is sealed arrives.** -/
theorem sealedPdu_arrives (hN : NetworkPlatform N) {nonce : Str}
    (hnonce : nonce.length = N.aead.nonceSize) (sender : Int32) (ret_addr : Str)
    {payload_l : List KvsPayload} (hne : payload_l ≠ []) (hlen : payload_l.length < 2 ^ 29)
    (hcarried : ∀ p ∈ payload_l, Carried p) :
    let dc := capsuleFromProto NetworkPdu.new (sealedPdu N nonce sender ret_addr payload_l hne)
    verifyDc N.crypto dc.toCapsulePdu N.verifying_key = true ∧
      decryptPayloadL N.aead dc = .ok ({ dc with payload_l := payload_l }, true) := by
  intro dc
  refine ⟨verifyDc_signed hN _, ?_⟩
  have hdecrypt :
      decryptMessage N.aead dc.payload_in_transit = some (serializePayloadL payload_l) :=
    decrypt_sealedPdu hN hnonce sender ret_addr hne
  rw [decryptPayloadL_some dc hdecrypt, deserialize_serialize hlen hcarried]
  rfl

/-- A list of one payload is not empty. -/
theorem singleton_ne_nil (a : KvsPayload) : [a] ≠ [] := List.cons_ne_nil a []

/-- The reply with a payload, which is empty where a step fails. -/
def replyPdu (N : CapsuleDBNetworkClient) (nonce : Str) (a : KvsPayload) : CapsulePduMsg :=
  let dc := payloadListToCapsule NetworkPdu.new [a] (singleton_ne_nil a) N.id []
  let encrypted := encryptPayloadL N.aead nonce dc true
  let hashed := N.withHash encrypted.1
  if encrypted.2 && hashed.2 then capsuleToProto (N.signed hashed.1) else {}

/-- A get goes to the engine, and the reply is made of what it returns. -/
theorem get_eq (N : CapsuleDBNetworkClient) (nonce k : Str) :
    (N.get nonce k : NetworkM S CapsulePduMsg) =
      mapError NetworkFault.engine (CapsuleDB.get k) >>= fun a => pure (replyPdu N nonce a) := by
  unfold CapsuleDBNetworkClient.get replyPdu
  refine bind_congr fun a => ?_
  dsimp only
  split
  · rename_i hencrypt
    simp only [hencrypt, Bool.false_and, Bool.false_eq_true, if_false]
  · rename_i dc hencrypt
    simp only [hencrypt, Bool.true_and]
    split
    · rename_i hhash
      simp only [hhash, Bool.false_eq_true, if_false]
    · rename_i dc' hhash
      simp only [hhash, if_true]

/-- No step fails. -/
theorem replyPdu_eq (hN : NetworkPlatform N) {nonce : Str}
    (hnonce : nonce.length = N.aead.nonceSize) (a : KvsPayload) :
    replyPdu N nonce a = sealedPdu N nonce N.id [] [a] (List.cons_ne_nil _ _) := by
  obtain ⟨text, hencrypt, -⟩ := encryptPayloadL_eq hN hnonce
    (payloadListToCapsule NetworkPdu.new [a] (List.cons_ne_nil _ _) N.id [])
  obtain ⟨digest, -, hhash⟩ := withHash_eq hN
    { payloadListToCapsule NetworkPdu.new [a] (List.cons_ne_nil _ _) N.id [] with
      payload_in_transit := text }
  simp only [replyPdu, sealedPdu, hencrypt, hhash, Bool.and_self, if_true]

/-! ## Serving a PDU -/

/-- The puts among the payloads that stand before the first get. -/
def servedPuts (l : List KvsPayload) : List KvsPayload :=
  (l.takeWhile fun p => p.txn_msgType ≠ getType).filter
    fun p => p.txn_msgType = CapsuleDBDriver.putType

/-- The first get among the payloads. -/
def servedGet (l : List KvsPayload) : Option KvsPayload := l.find? fun p => p.txn_msgType = getType

section

variable {p : KvsPayload} {l : List KvsPayload}

/-- A put in front of a PDU is served. -/
theorem served_put (hp : p.txn_msgType = CapsuleDBDriver.putType) :
    servedPuts (p :: l) = p :: servedPuts l ∧ servedGet (p :: l) = servedGet l := by
  have hget : p.txn_msgType ≠ getType := hp ▸ (by decide)
  simp [servedPuts, servedGet, hp, show CapsuleDBDriver.putType ≠ getType by decide]

/-- A get in front of a PDU is the last that is served. -/
theorem served_get (hp : p.txn_msgType = getType) :
    servedPuts (p :: l) = [] ∧ servedGet (p :: l) = some p := by
  simp [servedPuts, servedGet, hp]

/-- A PDU of puts only is served in whole. -/
theorem served_puts (hl : ∀ p ∈ l, p.txn_msgType = CapsuleDBDriver.putType) :
    servedPuts l = l ∧ servedGet l = none := by
  induction l with
  | nil => exact ⟨rfl, rfl⟩
  | cons p l ih =>
    obtain ⟨hputs, hgets⟩ := served_put (l := l) (hl p List.mem_cons_self)
    obtain ⟨hall, hnone⟩ := ih fun q hq => hl q (List.mem_cons_of_mem p hq)
    exact ⟨by rw [hputs, hall], by rw [hgets, hnone]⟩

/-- A payload of another type is passed over. -/
theorem served_other (hput : p.txn_msgType ≠ CapsuleDBDriver.putType)
    (hget : p.txn_msgType ≠ getType) :
    servedPuts (p :: l) = servedPuts l ∧ servedGet (p :: l) = servedGet l := by
  simp [servedPuts, servedGet, hput, hget]

end

/-- The reply to the get of a PDU. -/
def replyTo (N : CapsuleDBNetworkClient) (nonce : Str) :
    Option KvsPayload → NetworkM S CapsulePduMsg
  | some p => N.get nonce p.key
  | none => return {}

/-- **The loop over the payloads of a PDU.** -/
theorem handlePayloads_eq (nonce : Str) (l : List KvsPayload) :
    (N.handlePayloads nonce l : NetworkM S CapsulePduMsg) = (do
      mapError NetworkFault.engine (CapsuleDB.puts (servedPuts l))
      replyTo N nonce (servedGet l)) := by
  induction l with
  | nil => rfl
  | cons p l ih =>
    rw [handlePayloads]
    by_cases hput : p.txn_msgType = CapsuleDBDriver.putType
    · obtain ⟨hputs, hgets⟩ := served_put (l := l) hput
      rw [if_pos hput, hputs, hgets, ih, CapsuleDB.puts, mapError_bind, bind_assoc]
    · rw [if_neg hput]
      by_cases hget : p.txn_msgType = getType
      · obtain ⟨hputs, hgets⟩ := served_get (l := l) hget
        rw [if_pos hget, hputs, hgets]
        rfl
      · obtain ⟨hputs, hgets⟩ := served_other (l := l) hput hget
        rw [if_neg hget, hputs, hgets, ih]

/-- The payloads of what is sealed go into the loop. -/
theorem handle_sealed (hN : NetworkPlatform N) {nonce : Str}
    (hnonce : nonce.length = N.aead.nonceSize) (replyNonce : Str) (sender : Int32) (ret_addr : Str)
    {payload_l : List KvsPayload} (hne : payload_l ≠ []) (hlen : payload_l.length < 2 ^ 29)
    (hcarried : ∀ p ∈ payload_l, Carried p) :
    (N.handle replyNonce (sealedPdu N nonce sender ret_addr payload_l hne) :
      NetworkM S CapsulePduMsg) = N.handlePayloads replyNonce payload_l := by
  obtain ⟨hverify, hdecrypt⟩ := sealedPdu_arrives hN hnonce sender ret_addr hne hlen hcarried
  unfold CapsuleDBNetworkClient.handle
  simp only [hverify, hdecrypt, Bool.true_eq_false, if_false]
  rfl

/-- **A PDU is served up to its first get.**  Of a PDU that a client makes of any payloads that the
codec carries, the puts before the first get are made in their order, the get is answered, and what
stands behind it is dropped. -/
theorem handle_batch (hN : NetworkPlatform N) {nonce : Str}
    (hnonce : nonce.length = N.aead.nonceSize) (replyNonce recv_addr : Str)
    {payload_l : List KvsPayload} (hne : payload_l ≠ []) (hlen : payload_l.length < 2 ^ 29)
    (hcarried : ∀ p ∈ payload_l, Carried p) :
    (N.handle replyNonce (makePdu N nonce recv_addr payload_l hne) : NetworkM S CapsulePduMsg) = (do
      mapError NetworkFault.engine (CapsuleDB.puts (servedPuts payload_l))
      replyTo N replyNonce (servedGet payload_l)) := by
  rw [← handlePayloads_eq]
  exact handle_sealed hN hnonce replyNonce 0 recv_addr hne hlen hcarried

/-- The other entry puts every payload of the PDU, a get as well. -/
theorem put_batch (hN : NetworkPlatform N) {nonce : Str}
    (hnonce : nonce.length = N.aead.nonceSize) (recv_addr : Str) {payload_l : List KvsPayload}
    (hne : payload_l ≠ []) (hlen : payload_l.length < 2 ^ 29)
    (hcarried : ∀ p ∈ payload_l, Carried p) :
    (N.put (makePdu N nonce recv_addr payload_l hne) : NetworkM S Unit) =
      mapError NetworkFault.engine (CapsuleDB.puts payload_l) := by
  obtain ⟨hverify, hdecrypt⟩ := sealedPdu_arrives hN hnonce 0 recv_addr hne hlen hcarried
  have hmake : makePdu N nonce recv_addr payload_l hne =
    sealedPdu N nonce 0 recv_addr payload_l hne := rfl
  rw [hmake]
  unfold CapsuleDBNetworkClient.put
  simp only [hverify, hdecrypt, Bool.true_eq_false, if_false]
  rfl

/-- **The two entries agree** on the PDUs that hold puts only. -/
theorem handle_eq_put (hN : NetworkPlatform N) {nonce : Str}
    (hnonce : nonce.length = N.aead.nonceSize) (replyNonce recv_addr : Str)
    {payload_l : List KvsPayload} (hne : payload_l ≠ []) (hlen : payload_l.length < 2 ^ 29)
    (hcarried : ∀ p ∈ payload_l, Carried p)
    (hputs : ∀ p ∈ payload_l, p.txn_msgType = CapsuleDBDriver.putType) :
    (N.handle replyNonce (makePdu N nonce recv_addr payload_l hne) : NetworkM S CapsulePduMsg) = (do
      N.put (makePdu N nonce recv_addr payload_l hne)
      return {}) := by
  obtain ⟨hall, hnone⟩ := served_puts hputs
  have hhandle : (N.handle replyNonce (makePdu N nonce recv_addr payload_l hne) :
      NetworkM S CapsulePduMsg) = N.handlePayloads replyNonce payload_l :=
    handle_sealed hN hnonce replyNonce 0 recv_addr hne hlen hcarried
  rw [hhandle, handlePayloads_eq, put_batch hN hnonce recv_addr hne hlen hcarried, hall, hnone]
  rfl

/-! ## A platform -/

/-- Some texts sealed by AES-GCM-SIV under the key of the source: nonce and message, and the
ciphertext. -/
@[irreducible] def sampleSeals : List ((Str × Str) × Str) :=
  [((List.replicate 12 1,
      [49, 64, 64, 64, 80, 85, 84, 64, 64, 64, 107, 64, 64, 64, 118, 64, 64, 64]),
    [28, 213, 221, 72, 195, 99, 185, 99, 8, 117, 44, 83, 223, 145, 245, 1, 223, 134, 50, 58, 135,
    164, 35, 60, 67, 222, 199, 199, 36, 133, 177, 72, 162, 200]),
   ((List.replicate 12 2,
      [50, 64, 64, 64, 71, 69, 84, 64, 64, 64, 107, 64, 64, 64, 85, 78, 85, 83, 69, 68, 95, 86, 65,
      76, 64, 64, 64]),
    [186, 255, 234, 215, 89, 161, 44, 169, 213, 85, 125, 155, 191, 55, 242, 136, 96, 211, 50, 148,
    24, 77, 18, 207, 14, 119, 162, 35, 112, 14, 146, 63, 191, 162, 133, 92, 161, 158, 77, 184, 177,
    126, 223]),
   ((List.replicate 12 3,
      [49, 64, 64, 64, 80, 85, 84, 64, 64, 64, 107, 64, 64, 64, 118, 64, 64, 64]),
    [177, 231, 106, 218, 152, 197, 175, 166, 189, 159, 137, 88, 213, 110, 109, 6, 18, 110, 206, 142,
    24, 181, 75, 176, 5, 29, 194, 212, 140, 163, 98, 191, 150, 207]),
   ((List.replicate 12 1,
      [49, 64, 64, 64, 80, 85, 84, 64, 64, 64, 107, 64, 64, 64, 118, 64, 64, 64, 50, 64, 64, 64, 71,
      69, 84, 64, 64, 64, 107, 64, 64, 64, 85, 78, 85, 83, 69, 68, 95, 86, 65, 76, 64, 64, 64, 51,
      64, 64, 64, 80, 85, 84, 64, 64, 64, 107, 64, 64, 64, 119, 64, 64, 64]),
    [86, 122, 109, 27, 171, 58, 173, 238, 127, 165, 33, 77, 199, 186, 171, 116, 20, 147, 15, 176, 9,
    198, 43, 144, 234, 87, 25, 133, 190, 244, 93, 135, 144, 6, 5, 254, 211, 218, 95, 92, 255, 36, 0,
    109, 162, 255, 187, 242, 60, 182, 184, 207, 169, 234, 8, 251, 63, 115, 159, 4, 216, 12, 65, 71,
    184, 42, 7, 63, 98, 163, 49, 45, 74, 21, 211, 251, 224, 86, 200])]

/-- A cipher that seals the samples as AES-GCM-SIV does. -/
def sampleAead : Aead where
  nonceSize := 12
  sealMessage nonce message :=
    some ((sampleSeals.lookup (nonce, message)).getD (message ++ List.replicate 16 0))
  openMessage nonce ciphertext :=
    some (((sampleSeals.find? fun e => e.1.1 = nonce ∧ e.2 = ciphertext).map fun e => e.1.2).getD
      (ciphertext.take (ciphertext.length - 16)))

/-- The cipher of the samples opens what it sealed. -/
theorem sampleAead_opens (nonce message : Str) :
    ∃ ciphertext, sampleAead.sealMessage nonce message = some ciphertext ∧
      sampleAead.openMessage nonce ciphertext = some message := by
  refine ⟨_, rfl, congrArg some ?_⟩
  cases hl : sampleSeals.lookup (nonce, message) with
  | some ciphertext =>
    have hall : ∀ e ∈ sampleSeals, sampleAead.openMessage e.1.1 e.2 = some e.1.2 := by
      unfold sampleAead sampleSeals
      decide
    obtain ⟨before, after, hmem, -⟩ := List.lookup_eq_some_iff.mp hl
    exact Option.some.inj (hall ((nonce, message), ciphertext) (by rw [hmem]; simp))
  | none =>
    have htail : ∀ e ∈ sampleSeals, e.2.drop (e.2.length - 16) ≠ List.replicate 16 0 := by
      unfold sampleSeals
      decide
    have hfind : sampleSeals.find? (fun e => e.1.1 = nonce ∧ e.2 = message ++ List.replicate 16 0) =
        none := by
      rw [List.find?_eq_none]
      intro e he hc
      have hc' : e.1.1 = nonce ∧ e.2 = message ++ List.replicate 16 0 := by simpa using hc
      exact htail e he (by rw [hc'.2]; simp)
    rw [Option.getD_none, hfind]
    simp

/-- The digests of the texts that are hashed of the samples. -/
@[irreducible] def sampleTexts : List (Str × Str) :=
  ([48, 48], [241, 83, 67, 146, 39, 155, 221, 191, 157, 67, 221, 232, 112, 28, 181, 190, 20, 184,
    47, 118, 236, 102, 7, 191, 141, 106, 213, 87, 246, 15, 48, 78]) ::
  (sampleSeals.zip
    [([48, 49], [59, 119, 49, 199, 182, 207, 191, 95, 228, 34, 39, 18, 104, 29, 172, 107, 215, 143,
      234, 167, 74, 11, 186, 203, 4, 21, 200, 127, 231, 78, 94, 230]),
    ([48, 50], [156, 56, 15, 194, 46, 168, 30, 214, 54, 38, 72, 222, 159, 136, 55, 225, 196, 32, 71,
      124, 34, 83, 210, 4, 49, 44, 115, 182, 28, 106, 220, 198]),
    ([49, 49], [6, 3, 187, 86, 171, 202, 3, 118, 224, 203, 246, 195, 105, 14, 76, 155, 147, 173, 70,
      151, 224, 164, 157, 235, 220, 108, 230, 221, 168, 238, 33, 146]),
    ([48, 51], [62, 206, 236, 143, 195, 99, 212, 211, 51, 106, 97, 232, 244, 35, 212, 207, 3, 255,
      129, 5, 114, 29, 54, 99, 201, 159, 153, 176, 240, 184, 242, 75])]).map
    fun e => (e.2.1 ++ hexText e.1.1.1 ++ hexText e.1.2, e.2.2)

/-- A network client on a platform on which a signature is the message it signs. -/
def sampleNetwork : CapsuleDBNetworkClient where
  crypto :=
    { SigningKey := Unit
      VerifyingKey := Unit
      sha256 := fun message => some ((sampleTexts.lookup message).getD (List.replicate 32 0))
      sign := fun _ message => message
      verify := fun _ message signature => decide (message = signature) }
  aead := sampleAead
  id := 1
  signing_key := ()
  verifying_key := ()

/-- The platform of the samples keeps the laws. -/
theorem sampleNetwork_platform : NetworkPlatform sampleNetwork where
  opens nonce message _ := sampleAead_opens nonce message
  digests _ := ⟨_, rfl⟩
  accepts _ := decide_eq_true rfl

/-- A put, a get and another put. -/
@[irreducible] def sampleBatch : List KvsPayload :=
  [⟨[107], [118], 1, CapsuleDBDriver.putType⟩,
    ⟨[107], [85, 78, 85, 83, 69, 68, 95, 86, 65, 76], 2, getType⟩,
    ⟨[107], [119], 3, CapsuleDBDriver.putType⟩]

/-- The sample PDU is not empty. -/
theorem sampleBatch_ne : sampleBatch ≠ [] := by
  unfold sampleBatch
  simp

/-- The codec carries the payloads of the sample PDU. -/
theorem sampleBatch_carried : ∀ p ∈ sampleBatch, Carried p := by
  have hall : ∀ q ∈ sampleBatch, (-(2 ^ 31) ≤ q.txn_timestamp.toInt ∧
      q.txn_timestamp.toInt < 2 ^ 31) ∧ 64 ∉ q.txn_msgType ∧ 64 ∉ q.key ∧ 64 ∉ q.value := by
    unfold sampleBatch
    decide
  intro p hp
  obtain ⟨ht, hm, hk, hv⟩ := hall p hp
  exact carried_of_not_mem ht hm hk hv

/-- The theorem at a PDU whose last put is dropped. -/
theorem handle_batch_sample :
    (sampleNetwork.handle (List.replicate 12 3) (makePdu sampleNetwork (List.replicate 12 1) []
      sampleBatch sampleBatch_ne) : NetworkM memoryStore CapsulePduMsg) = (do
        mapError NetworkFault.engine (CapsuleDB.puts (servedPuts sampleBatch))
        replyTo sampleNetwork (List.replicate 12 3) (servedGet sampleBatch)) :=
  handle_batch (S := memoryStore) sampleNetwork_platform rfl _ _ _ (by unfold sampleBatch; decide)
    sampleBatch_carried

/-! ## Any PDUs -/

/-- The payloads of a PDU that is accepted and can be read. -/
def acceptedPayloads (N : CapsuleDBNetworkClient) (inPDU : CapsulePduMsg) : List KvsPayload :=
  let dc := capsuleFromProto NetworkPdu.new inPDU
  if verifyDc N.crypto dc.toCapsulePdu N.verifying_key = false then []
  else match decryptPayloadL N.aead dc with
    | .ok (dc, true) => dc.payload_l
    | _ => []

/-- A sequence of puts that returns is a session. -/
theorem session_of_puts (ps : List KvsPayload) (w : World S) :
    Outcome (fun _ w' => Run (EngineStep S) w (ps.map fun p => .put p true) w') (fun _ _ => True)
      (CapsuleDB.puts ps w) := by
  induction ps generalizing w with
  | nil => exact Outcome.pure (Run.nil w)
  | cons p ps ih =>
    refine (Outcome.self (CapsuleDB.put p w)).bind (fun _ _ _ => trivial) ?_
    intro _ v hv
    exact (ih v).mono (fun _ _ h => (Run.single (EngineStep.put hv)).append h) fun _ _ h => h

/-- The puts of two sessions, one after the other. -/
theorem donePuts_append (es fs : List Event) : donePuts (es ++ fs) = donePuts es ++ donePuts fs :=
  List.filterMap_append

/-- A session of puts that return puts them all. -/
theorem donePuts_map_put (ps : List KvsPayload) : donePuts (ps.map fun p => .put p true) = ps := by
  induction ps with
  | nil => rfl
  | cons p ps ih => exact congrArg (p :: ·) ih

/-- The get of a PDU, what is replied to it, and the states around it. -/
inductive Replied (N : CapsuleDBNetworkClient) (nonce : Str) :
    World S → Option KvsPayload → CapsulePduMsg → World S → Prop
  | nothing (v : World S) : Replied N nonce v none {} v
  | found {v w' : World S} {p a : KvsPayload} (h : CapsuleDB.get p.key v = .ok a w') :
      Replied N nonce v (some p) (replyPdu N nonce a) w'

/-- A reply is at most a get of the engine. -/
theorem Replied.session {nonce : Str} {v : World S} {q : Option KvsPayload} {reply : CapsulePduMsg}
    (h : Replied N nonce v q reply w') : ∃ es, Run (EngineStep S) v es w' ∧ donePuts es = [] := by
  cases h with
  | nothing => exact ⟨[], Run.nil _, rfl⟩
  | found hget => exact ⟨_, Run.single (EngineStep.get hget), rfl⟩

/-- **One PDU, whatever it is**: its accepted puts are made, and its get is answered. -/
theorem handle_session (N : CapsuleDBNetworkClient) (nonce : Str) (inPDU : CapsulePduMsg)
    (w : World S) :
    Outcome
      (fun reply w' => ∃ v,
        Run (EngineStep S) w ((servedPuts (acceptedPayloads N inPDU)).map fun p => .put p true) v ∧
        Replied N nonce v (servedGet (acceptedPayloads N inPDU)) reply w')
      (fun _ _ => True) (N.handle nonce inPDU w) := by
  have hnothing : ∃ v, Run (EngineStep S) w ((servedPuts []).map fun p => .put p true) v ∧
      Replied N nonce v (servedGet []) {} w := ⟨w, Run.nil w, Replied.nothing w⟩
  unfold CapsuleDBNetworkClient.handle acceptedPayloads
  dsimp only
  cases hverify : verifyDc N.crypto (capsuleFromProto NetworkPdu.new inPDU).toCapsulePdu
      N.verifying_key with
  | false => exact Outcome.pure hnothing
  | true =>
    simp only [Bool.true_eq_false, if_false]
    cases hdecrypt : decryptPayloadL N.aead (capsuleFromProto NetworkPdu.new inPDU) with
    | error e => trivial
    | ok result =>
      obtain ⟨dc, success⟩ := result
      cases success with
      | false => exact Outcome.pure hnothing
      | true =>
        show Outcome _ _ (N.handlePayloads nonce dc.payload_l w)
        rw [handlePayloads_eq]
        refine (Outcome.mapError (session_of_puts (servedPuts dc.payload_l) w)).bind
          (fun _ _ _ => trivial) ?_
        intro _ v hrun
        cases servedGet dc.payload_l with
        | none =>
          have hdone :
              ∃ u, Run (EngineStep S) w ((servedPuts dc.payload_l).map fun p => .put p true)
            u ∧ Replied N nonce u none {} v := ⟨v, hrun, Replied.nothing v⟩
          exact Outcome.pure hdone
        | some p =>
          rw [replyTo, get_eq]
          refine (Outcome.mapError (Outcome.self (CapsuleDB.get p.key v))).bind
            (fun _ _ _ => trivial) ?_
          intro a u hget
          have hdone :
              ∃ v, Run (EngineStep S) w ((servedPuts dc.payload_l).map fun p => .put p true)
            v ∧ Replied N nonce v (some p) (replyPdu N nonce a) u := ⟨v, hrun, Replied.found hget⟩
          exact Outcome.pure hdone

/-- **Rejected PDUs leave no trace.**  Whatever PDUs arrive, forged, altered, repeated or malformed:
as long as no exception ends the client, the engine has had a session in which exactly the puts of
the accepted PDUs were made, of each up to its first get and in the order of arrival. -/
theorem pdus_are_session (N : CapsuleDBNetworkClient) {B : ℕ} {d : S.Disk}
    {as : List ((Str × CapsulePduMsg) × CapsulePduMsg)}
    (h : Run (Exchange.Handles fun m => N.handle m.1 m.2) (spawnDB B d : World S) as w) :
    ∃ es, Run (EngineStep S) (spawnDB B d) es w ∧
      donePuts es = as.flatMap fun a => servedPuts (acceptedPayloads N a.1.2) := by
  have hstart : ∃ es, Run (EngineStep S) (spawnDB B d) es (spawnDB B d) ∧ donePuts es = [] :=
    ⟨[], Run.nil _, rfl⟩
  refine Run.invariant (P := fun (as : List ((Str × CapsulePduMsg) × CapsulePduMsg)) v =>
    ∃ es, Run (EngineStep S) (spawnDB B d) es v ∧
      donePuts es = as.flatMap fun a => servedPuts (acceptedPayloads N a.1.2)) h hstart ?_
  rintro pre a u v - - ⟨es, hrun, hputs⟩ hstep
  obtain ⟨v', hrun', hreply⟩ := (handle_session N a.1.1 a.1.2 u).of_ok hstep
  obtain ⟨fs, hrun'', hnone⟩ := hreply.session
  refine ⟨_, (hrun.append hrun').append hrun'', ?_⟩
  rw [donePuts_append, donePuts_append, hputs, donePuts_map_put, hnone, List.append_nil,
    List.flatMap_append, List.flatMap_singleton]

/-- The payloads of what is sealed are accepted. -/
theorem acceptedPayloads_sealed (hN : NetworkPlatform N) {nonce : Str}
    (hnonce : nonce.length = N.aead.nonceSize) (sender : Int32) (ret_addr : Str)
    {payload_l : List KvsPayload} (hne : payload_l ≠ []) (hlen : payload_l.length < 2 ^ 29)
    (hcarried : ∀ p ∈ payload_l, Carried p) :
    acceptedPayloads N (sealedPdu N nonce sender ret_addr payload_l hne) = payload_l := by
  obtain ⟨hverify, hdecrypt⟩ := sealedPdu_arrives hN hnonce sender ret_addr hne hlen hcarried
  unfold acceptedPayloads
  simp only [hverify, hdecrypt, Bool.true_eq_false, if_false]

/-- The theorem at a rejected PDU and one that is served. -/
theorem pdus_are_session_sample :
    ∃ (w : World memoryStore) (reply : CapsulePduMsg) (es : List Event),
      Run (Exchange.Handles fun m => sampleNetwork.handle m.1 m.2) (spawnDB 1 [])
        [((List.replicate 12 3, {}), {}), ((List.replicate 12 3, makePdu sampleNetwork
          (List.replicate 12 1) [] sampleBatch sampleBatch_ne), reply)] w ∧
      Run (EngineStep memoryStore) (spawnDB 1 []) es w ∧
      donePuts es = [⟨[107], [118], 1, CapsuleDBDriver.putType⟩] := by
  have hrejected : verifyDc sampleNetwork.crypto (capsuleFromProto NetworkPdu.new {}).toCapsulePdu
      sampleNetwork.verifying_key = false := by
    unfold sampleNetwork sampleTexts sampleSeals
    decide
  have hnothing : acceptedPayloads sampleNetwork {} = [] := if_pos hrejected
  have hempty : Run (Exchange.Handles fun m => sampleNetwork.handle m.1 m.2)
      (spawnDB 1 [] : World memoryStore) [((List.replicate 12 3, {}), {})] (spawnDB 1 []) := by
    refine Run.single ?_
    show sampleNetwork.handle _ {} _ = _
    unfold CapsuleDBNetworkClient.handle
    rw [if_pos hrejected]
    rfl
  have hputs : servedPuts sampleBatch = [⟨[107], [118], 1, CapsuleDBDriver.putType⟩] := by
    unfold sampleBatch
    decide
  have hgets : servedGet sampleBatch =
      some ⟨[107], [85, 78, 85, 83, 69, 68, 95, 86, 65, 76], 2, getType⟩ := by
    unfold sampleBatch
    decide
  have hpayloads : acceptedPayloads sampleNetwork (makePdu sampleNetwork (List.replicate 12 1) []
      sampleBatch sampleBatch_ne) = sampleBatch :=
    acceptedPayloads_sealed sampleNetwork_platform rfl 0 [] sampleBatch_ne
      (by unfold sampleBatch; decide) sampleBatch_carried
  obtain ⟨v, reply, hv⟩ : ∃ (v : World memoryStore) (reply : CapsulePduMsg),
      sampleNetwork.handle (List.replicate 12 3) (makePdu sampleNetwork (List.replicate 12 1) []
        sampleBatch sampleBatch_ne) (spawnDB 1 []) = .ok reply v := by
    have hnonce : (List.replicate 12 1 : Str).length = sampleNetwork.aead.nonceSize := rfl
    have hsealed := handle_sealed (S := memoryStore) sampleNetwork_platform hnonce
      (List.replicate 12 3) 0 [] sampleBatch_ne (by unfold sampleBatch; decide) sampleBatch_carried
    show ∃ v reply, sampleNetwork.handle _ (sealedPdu sampleNetwork _ 0 [] sampleBatch _) _ = _
    rw [hsealed, handlePayloads_eq, hputs, hgets, puts_singleton, replyTo, get_eq]
    exact ⟨_, _, rfl⟩
  have hserved : Exchange.Handles (fun m => sampleNetwork.handle m.1 m.2) (spawnDB 1 [])
      ((List.replicate 12 3, makePdu sampleNetwork (List.replicate 12 1) [] sampleBatch
        sampleBatch_ne), reply) v := hv
  have hrun := hempty.append (Run.single hserved)
  obtain ⟨es, hes, hdone⟩ := pdus_are_session sampleNetwork hrun
  refine ⟨v, reply, es, hrun, hes, ?_⟩
  rw [hdone]
  simp only [List.cons_append, List.nil_append, List.flatMap_cons, List.flatMap_nil, hnothing,
    hpayloads, hputs]
  rfl

/-! ## Requests of a client -/

/-- The payload of a request. -/
def payloadOfRequest (r : Request) : KvsPayload := genRequest r.key r.value r.isPut r.currTime

/-- A request that can be sent: the codec carries its payload, its key is not empty, and the nonces
are those of the cipher. -/
structure Sendable (N : CapsuleDBNetworkClient) (r : Request) : Prop where
  carried : Carried (payloadOfRequest r)
  key_ne : r.key ≠ []
  nonce_length : r.nonce.length = N.aead.nonceSize
  replyNonce_length : r.replyNonce.length = N.aead.nonceSize

/-- What a request and what is read for it show of the engine. -/
inductive Asks : Request × Option Str → Event → Prop
  | put {r : Request} (h : r.isPut = true) : Asks (r, none) (.put (payloadOfRequest r) true)
  | get {r : Request} {a : KvsPayload} (h : r.isPut = false) :
      Asks (r, some (firstPut [a])) (.get r.key (some a))

/-- What arrives of a request. -/
theorem handle_request (hN : NetworkPlatform N) {r : Request} (hr : Sendable N r) :
    (N.handle r.replyNonce (genPayload N r.nonce r.recv_addr r.key r.value r.isPut r.currTime) :
      NetworkM S CapsulePduMsg) = (do
        mapError NetworkFault.engine (CapsuleDB.puts (servedPuts [payloadOfRequest r]))
        replyTo N r.replyNonce (servedGet [payloadOfRequest r])) := by
  rw [← handlePayloads_eq]
  exact handle_sealed hN hr.nonce_length r.replyNonce 0 r.recv_addr (List.cons_ne_nil _ _) (by simp)
    (List.forall_mem_singleton.mpr hr.carried)

/-- A put reaches the engine. -/
theorem ask_put (hN : NetworkPlatform N) {r : Request} (hr : Sendable N r) (hput : r.isPut = true) :
    (ask N r : NetworkM S (Option Str)) =
      mapError NetworkFault.engine (CapsuleDB.put (payloadOfRequest r)) >>= fun _ => pure none := by
  have htype : (payloadOfRequest r).txn_msgType = CapsuleDBDriver.putType := by
    rw [payloadOfRequest, hput]
    rfl
  obtain ⟨hputs, hgets⟩ := served_put (l := []) htype
  rw [ask, handle_request hN hr, hputs, hgets, hput]
  simp only [servedPuts, servedGet, List.takeWhile_nil, List.filter_nil, List.find?_nil,
    puts_singleton, replyTo, bind_assoc, pure_bind, if_true]

/-- The client reads the payload of a reply. -/
theorem waitResponse_eq (hN : NetworkPlatform N) {nonce : Str}
    (hnonce : nonce.length = N.aead.nonceSize) {a : KvsPayload} (ha : Carried a) :
    waitResponse N (sealedPdu N nonce N.id [] [a] (List.cons_ne_nil _ _)) = .ok (firstPut [a]) := by
  obtain ⟨-, hdecrypt⟩ := sealedPdu_arrives hN hnonce N.id [] (List.cons_ne_nil a []) (by simp)
    (List.forall_mem_singleton.mpr ha)
  unfold waitResponse
  rw [hdecrypt]
  rfl

/-- A get reaches the engine. -/
theorem ask_get (hN : NetworkPlatform N) {r : Request} (hr : Sendable N r)
    (hget : r.isPut = false) :
    (ask N r : NetworkM S (Option Str)) = (do
      let a ← mapError NetworkFault.engine (CapsuleDB.get r.key)
      let value ← lift ((waitResponse N (sealedPdu N r.replyNonce N.id [] [a]
        (List.cons_ne_nil _ _))).mapError NetworkFault.codec)
      return some value) := by
  have htype : (payloadOfRequest r).txn_msgType = getType := by
    rw [payloadOfRequest, hget]
    rfl
  have hkey : (payloadOfRequest r).key = r.key := by
    rw [payloadOfRequest, hget]
    rfl
  obtain ⟨hputs, hgets⟩ := served_get (l := []) htype
  rw [ask, handle_request hN hr, hputs, hgets, hget]
  simp only [replyTo, hkey, get_eq, replyPdu_eq hN hr.replyNonce_length, CapsuleDB.puts,
    mapError_pure, pure_bind, bind_assoc, Bool.false_eq_true, if_false]

/-- **One request** of a client that sends what the codec carries. -/
theorem ask_spec (hN : NetworkPlatform N) {r : Request} (hr : Sendable N r)
    (hanswer : r.isPut = false → ∀ a w', CapsuleDB.get r.key w = .ok a w' → Carried a) :
    Outcome (fun o w' => ∃ e, Asks (r, o) e ∧ EngineStep S w e w')
      (fun e _ => ∃ e', e = .engine e') (ask N r w) := by
  cases hput : r.isPut with
  | true =>
    rw [ask_put hN hr hput]
    refine (Outcome.mapError (Outcome.self (CapsuleDB.put (payloadOfRequest r) w))).bind ?_ ?_
    · rintro _ v ⟨e, rfl, -⟩
      exact ⟨e, rfl⟩
    · intro _ v hv
      exact Outcome.pure ⟨_, Asks.put hput, EngineStep.put hv⟩
  | false =>
    rw [ask_get hN hr hput]
    refine (Outcome.mapError (Outcome.self (CapsuleDB.get r.key w))).bind ?_ ?_
    · rintro _ v ⟨e, rfl, -⟩
      exact ⟨e, rfl⟩
    · intro a v hv
      rw [waitResponse_eq hN hr.replyNonce_length (hanswer hput a v hv)]
      exact ⟨_, Asks.get hput, EngineStep.get hv⟩

/-! ## Sessions over the network -/

/-- The puts among requests. -/
def putsOfRequests (rs : List Request) : List KvsPayload :=
  (rs.filter fun r => r.isPut).map payloadOfRequest

/-- The payload of a request has its key. -/
theorem key_payloadOfRequest (r : Request) : (payloadOfRequest r).key = r.key := by
  unfold payloadOfRequest genRequest
  cases r.isPut <;> rfl

/-- The puts of a list of requests. -/
theorem mem_putsOfRequests {rs : List Request} {p : KvsPayload} :
    p ∈ putsOfRequests rs ↔ ∃ r ∈ rs, r.isPut = true ∧ payloadOfRequest r = p := by
  simp [putsOfRequests, and_assoc]

/-- A request stores its payload exactly if it is a put. -/
theorem Asks.stores_eq {a : Request × Option Str} {e : Event} (h : Asks a e) :
    e.stores.toList = putsOfRequests [a.1] := by
  cases h with
  | put hput => simp [putsOfRequests, hput, Event.stores]
  | get hget =>
    simp only [putsOfRequests, hget, List.filter_cons, List.filter_nil, Bool.false_eq_true,
      if_false]
    rfl

/-- The puts of a session are those of its requests: by induction on the requests. -/
theorem donePuts_of_asks {as : List (Request × Option Str)} {es : List Event}
    (h : List.Forall₂ Asks as es) : donePuts es = putsOfRequests (as.map Prod.fst) := by
  induction h with
  | nil => rfl
  | @cons a e as es hask _ ih =>
    have happ : putsOfRequests (a.1 :: as.map Prod.fst) =
        putsOfRequests [a.1] ++ putsOfRequests (as.map Prod.fst) := by
      unfold putsOfRequests
      rw [← List.map_append, ← List.filter_append]
      rfl
    rw [List.map_cons, happ, ← hask.stores_eq, ← ih]
    cases hs : e.stores <;> simp [donePuts, hs]

variable {B : ℕ} {d : S.Disk} {as : List (Request × Option Str)}

/-- The puts of requests that can be sent. -/
theorem sendable_puts (has : ∀ a ∈ as, Sendable N a.1) :
    ∀ p ∈ putsOfRequests (as.map Prod.fst), Carried p ∧ p.key ≠ [] := by
  intro p hp
  obtain ⟨r, hr, -, rfl⟩ := mem_putsOfRequests.mp hp
  obtain ⟨a, ha, rfl⟩ := List.mem_map.mp hr
  exact ⟨(has a ha).carried, key_payloadOfRequest a.1 ▸ (has a ha).key_ne⟩

/-- **Requests one after the other are a session of the engine.** -/
theorem network_session (hN : NetworkPlatform N) (hB : 1 ≤ B) (hmax : 2 * B < 2 ^ 31)
    (h : Run (Exchange.Handles (ask N)) (spawnDB B d : World S) as w)
    (has : ∀ a ∈ as, Sendable N a.1) :
    ∃ es, List.Forall₂ Asks as es ∧ Run (EngineStep S) (spawnDB B d) es w := by
  refine h.invariant (P := fun as v => ∃ es, List.Forall₂ Asks as es ∧
    Run (EngineStep S) (spawnDB B d) es v) ⟨[], List.Forall₂.nil, Run.nil _⟩ ?_
  rintro pre a u v hpre - ⟨es, hasks, hrun⟩ hstep
  have hsend : ∀ a' ∈ pre ++ [a], Sendable N a'.1 := fun a' ha' => has a' (hpre.subset ha')
  have hr := hsend a (by simp)
  have hinv := session_inv hB hmax hrun
  rw [donePuts_of_asks hasks] at hinv
  have hputs := sendable_puts fun a' ha' => hsend a' (List.mem_append_left _ ha')
  -- whatever the engine finds can be sent back
  have hanswer : a.1.isPut = false → ∀ q w', CapsuleDB.get a.1.key u = .ok q w' → Carried q := by
    intro _ q w' hq
    rcases hinv.get_mem (fun p hp => (hputs p hp).2) hr.key_ne hq with rfl | hmem
    · exact carried_notFound
    · exact (hputs q hmem).1
  obtain ⟨e, hask, hengine⟩ := (ask_spec hN hr hanswer).of_ok hstep
  exact ⟨es ++ [e], List.rel_append hasks (List.Forall₂.cons hask List.Forall₂.nil),
    Run.snoc hrun hengine⟩

/-- **Clients of the network read their last put.**  Of a sequence of requests that a client seals
in PDUs and that are served one after the other, with increasing timestamps of the puts of each key,
every get of a key that was put reads the value of the last put, through encryption, hashing,
signing and the codec on the way there and back, and wherever the payload has got to. -/
theorem network_reads_last_put (hN : NetworkPlatform N) (hB : 1 ≤ B) (hmax : 2 * B < 2 ^ 31)
    {r : Request} {o : Option Str} {p : KvsPayload}
    (h : Run (Exchange.Handles (ask N)) (spawnDB B d : World S) (as ++ [(r, o)]) w)
    (has : ∀ a ∈ as ++ [(r, o)], Sendable N a.1)
    (hts : Increasing (putsOfRequests (as.map Prod.fst))) (hget : r.isPut = false)
    (hp : lastPut r.key (putsOfRequests (as.map Prod.fst)) = some p) : o = some p.value := by
  obtain ⟨u, hu, hstep⟩ := h.snoc_inv
  have hpre : ∀ a ∈ as, Sendable N a.1 := fun a ha => has a (List.mem_append_left _ ha)
  have hr : Sendable N r := has (r, o) (by simp)
  obtain ⟨es, hasks, hrun⟩ := network_session hN hB hmax hu hpre
  rw [← donePuts_of_asks hasks] at hts hp
  have hcur := session_current hB hmax hrun hts
  have hputs := sendable_puts hpre
  rw [← donePuts_of_asks hasks] at hputs
  have hfound : ∀ q w', CapsuleDB.get r.key u = .ok q w' → q = p := by
    intro q w' hq
    rw [hcur.get_eq hts (fun p hp => (hputs p hp).2) hr.key_ne hq, hp]
    rfl
  have hmem := (lastPut_mem hp).1
  have hanswer : r.isPut = false → ∀ q w', CapsuleDB.get r.key u = .ok q w' → Carried q := by
    intro _ q w' hq
    exact hfound q w' hq ▸ (hputs p hmem).1
  obtain ⟨e, hask, hengine⟩ := (ask_spec hN hr hanswer).of_ok hstep
  cases hask with
  | put hput => exact absurd (hput.symm.trans hget) (by simp)
  | get _ =>
    cases hengine with
    | get hq =>
      obtain rfl := hfound _ _ hq
      rw [donePuts_of_asks hasks] at hmem
      obtain ⟨r', -, hput, rfl⟩ := mem_putsOfRequests.mp hmem
      have htype : (payloadOfRequest r').txn_msgType = CapsuleDBDriver.putType := by
        rw [payloadOfRequest, hput]
        rfl
      rw [firstPut, if_pos htype]

/-- A put and a get of its key. -/
def samplePut : Request := ⟨[107], [118], true, 1, List.replicate 12 1, List.replicate 12 3, []⟩

/-- The client sends a value with a get that nothing reads. -/
def sampleGet : Request :=
  ⟨[107], [85, 78, 85, 83, 69, 68, 95, 86, 65, 76], false, 2, List.replicate 12 2,
    List.replicate 12 3, []⟩

/-- The theorem at a put and a get of its key. -/
theorem network_reads_last_put_sample :
    ∃ (w : World memoryStore) (o : Option Str),
      Run (Exchange.Handles (ask sampleNetwork)) (spawnDB 1 [])
        ([(samplePut, none)] ++ [(sampleGet, o)]) w ∧ o = some [118] := by
  have hput : Sendable sampleNetwork samplePut :=
    ⟨carried_of_not_mem (by decide) (by decide) (by decide) (by decide), by decide, rfl, rfl⟩
  have hget : Sendable sampleNetwork sampleGet :=
    ⟨carried_of_not_mem (by decide) (by decide) (by decide) (by decide), by decide, rfl, rfl⟩
  obtain ⟨v, hv⟩ : ∃ v : World memoryStore,
      ask sampleNetwork samplePut (spawnDB 1 []) = .ok none v ∧
      ask sampleNetwork sampleGet v = .ok (some [118]) v := by
    rw [ask_put sampleNetwork_platform hput rfl, ask_get sampleNetwork_platform hget rfl]
    refine ⟨_, rfl, ?_⟩
    -- the engine finds the payload of the put
    have hread := waitResponse_eq sampleNetwork_platform hget.replyNonce_length hput.carried
    show (lift ((waitResponse sampleNetwork (sealedPdu sampleNetwork sampleGet.replyNonce _ []
      [payloadOfRequest samplePut] (List.cons_ne_nil _ _))).mapError NetworkFault.codec) >>=
        fun value => pure (some value) : NetworkM memoryStore (Option Str)) _ = _
    rw [hread]
    rfl
  have hrun : Run (Exchange.Handles (ask sampleNetwork)) (spawnDB 1 [])
        ([(samplePut, none)] ++ [(sampleGet, some [118])]) v := (Run.single hv.1).snoc hv.2
  refine ⟨v, some [118], hrun, ?_⟩
  exact network_reads_last_put sampleNetwork_platform (by decide) (by decide) hrun
    (by simp [hput, hget]) (by decide) rfl (p := payloadOfRequest samplePut) rfl

end Capsule.Analysis
