import Capsule.Program.Signature

/-!
# What a signature binds

The hash joins sender, timestamp and payload without separators, so digits may move from one to
the next without changing the text that is hashed.
-/

set_option autoImplicit false

namespace Capsule.Analysis

open Library Program

/-- Two PDUs with one content. -/
structure SameContent (p q : CapsulePdu) : Prop where
  sender : p.sender = q.sender
  timestamp : p.timestamp = q.timestamp
  payload : p.payload_in_transit = q.payload_in_transit
  prevHash : p.prevHash = q.prevHash

/-- The texts of the senders are of one length, and so are those of the timestamps. -/
def SameCut (p q : CapsulePdu) : Prop :=
  (stdToString p.sender.toInt).length = (stdToString q.sender.toInt).length ∧
  (stdToString p.timestamp.toInt).length = (stdToString q.timestamp.toInt).length

/-- What is relied on: a digest has 32 bytes, the strings hashed for two PDUs do not collide, and a
signature is accepted for one message only. -/
structure CryptoLaws (C : Crypto) (p q : CapsulePdu) : Prop where
  digest_length : ∀ m d, C.sha256 m = some d → d.length = 32
  injective : C.sha256 (aggregated p) = C.sha256 (aggregated q) → aggregated p = aggregated q
  once : ∀ key m m' sig, C.verify key m sig = true → C.verify key m' sig = true → m = m'

variable {C : Crypto} {p q : CapsulePdu}

/-- What acceptance says. -/
theorem verifyDc_iff {key : C.VerifyingKey} : verifyDc C p key = true ↔
    ∃ digest, C.sha256 (aggregated p) = some digest ∧ p.hash = hexText digest ∧
      C.verify key (p.hash ++ p.prevHash) (hexBytes p.signature) = true := by
  unfold verifyDc verifyHash verifySignature verifyMessage doHash
  cases C.sha256 (aggregated p) with
  | none => simp
  | some digest => simp

/-- **One signature on two accepted PDUs**: they hash the same text and have the same previous
hash. -/
theorem aggregated_eq_of_signature {key : C.VerifyingKey} (h : CryptoLaws C p q)
    (hp : verifyDc C p key = true) (hq : verifyDc C q key = true)
    (hsig : p.signature = q.signature) : aggregated p = aggregated q ∧ p.prevHash = q.prevHash := by
  obtain ⟨dp, hdp, hhp, hvp⟩ := verifyDc_iff.mp hp
  obtain ⟨dq, hdq, hhq, hvq⟩ := verifyDc_iff.mp hq
  rw [hsig] at hvp
  have hmsg : p.hash ++ p.prevHash = q.hash ++ q.prevHash := h.once key _ _ _ hvp hvq
  -- both hashes have 64 characters
  have hlen : p.hash.length = q.hash.length := by
    rw [hhp, hhq, length_hexText, length_hexText, h.digest_length _ _ hdp,
      h.digest_length _ _ hdq]
  obtain ⟨hhash, hprev⟩ := List.append_inj hmsg hlen
  refine ⟨h.injective ?_, hprev⟩
  rw [hdp, hdq, hexText_injective (hhp.symm.trans (hhash.trans hhq))]

/-- **Two accepted PDUs with one signature have one content** if and only if the digits of sender
and timestamp are cut in the same places. -/
theorem signature_binds_iff (key : C.VerifyingKey) (h : CryptoLaws C p q)
    (hp : verifyDc C p key = true) (hq : verifyDc C q key = true)
    (hsig : p.signature = q.signature) : SameContent p q ↔ SameCut p q := by
  obtain ⟨hagg, hprev⟩ := aggregated_eq_of_signature h hp hq hsig
  constructor
  · intro hsame
    exact ⟨by rw [hsame.sender], by rw [hsame.timestamp]⟩
  · rintro ⟨hsender, htimestamp⟩
    unfold aggregated at hagg
    rw [List.append_assoc, List.append_assoc] at hagg
    obtain ⟨hs, hrest⟩ := List.append_inj hagg hsender
    obtain ⟨ht, hpayload⟩ := List.append_inj hrest htimestamp
    exact ⟨Int32.toInt_inj.mp (intText_injective hs), Int64.toInt_inj.mp (intText_injective ht),
      hpayload, hprev⟩

/-! ## Two PDUs with one signature -/

/-- A platform on which a signature is the message it signs; its digest of `123x` is the SHA-256
digest. -/
def sampleCrypto : Crypto where
  SigningKey := Unit
  VerifyingKey := Unit
  sha256 m := some (
    if m = [49, 50, 51, 120] then
      [196, 81, 26, 162, 236, 208, 229, 155, 121, 26, 88, 80, 59, 201, 116, 140,
        218, 203, 107, 105, 115, 214, 156, 193, 36, 149, 87, 105, 88, 205, 162, 155]
    else (m ++ List.replicate 32 0).take 32)
  sign _ m := m
  verify _ m sig := decide (m = sig)

/-- The signed PDU of sender 1 at time 23. -/
def signedPdu : CapsulePdu :=
  signDc sampleCrypto (generateHash sampleCrypto ⟨[120], [], 1, [105], [], 23⟩).1 ()

/-- The same PDU with sender 12 and time 3. -/
def alteredPdu : CapsulePdu := { signedPdu with sender := 12, timestamp := 3 }

/-- The platform of the samples keeps the laws on both PDUs. -/
theorem sampleCrypto_laws : CryptoLaws sampleCrypto signedPdu alteredPdu where
  digest_length m d h := by
    rw [← Option.some.inj h]
    split <;> simp
  injective _ := by decide +kernel
  once key m m' sig h h' := (of_decide_eq_true h).trans (of_decide_eq_true h').symm

/-- The theorem at two PDUs that are cut differently. -/
theorem signature_binds_iff_sample :
    SameContent signedPdu alteredPdu ↔ SameCut signedPdu alteredPdu :=
  signature_binds_iff (C := sampleCrypto) () sampleCrypto_laws (by decide +kernel)
    (by decide +kernel) rfl

/-- Sender and timestamp of a signed PDU are altered, and its signature is still accepted. -/
theorem altered_pdu_is_accepted : CryptoLaws sampleCrypto signedPdu alteredPdu ∧
    verifyDc sampleCrypto signedPdu () = true ∧ verifyDc sampleCrypto alteredPdu () = true ∧
    signedPdu.signature = alteredPdu.signature ∧ ¬ SameContent signedPdu alteredPdu := by
  refine ⟨sampleCrypto_laws, by decide +kernel, by decide +kernel, rfl, fun h => ?_⟩
  exact absurd h.sender (by decide +kernel)

end Capsule.Analysis
