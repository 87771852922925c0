import Capsule.Analysis.BlockParser

/-!
# Blocks on disk

What `putCapsuleBlock` writes and `getCapsuleBlock` reads, and what happens if the file was altered
in between.  A block is named by a hash of its message up to the first zero byte, so what lies
behind that byte may be exchanged.
-/

set_option autoImplicit false

namespace Capsule.Analysis

open Library Program FakeCapsule

variable {P : CapsulePlatform}

/-- The level of a block is an `int`. -/
def IntLevel (b : CapsuleBlock) : Prop := -(2 ^ 31) ≤ b.level ∧ b.level < 2 ^ 31

instance (b : CapsuleBlock) : Decidable (IntLevel b) :=
  inferInstanceAs (Decidable (-(2 ^ 31) ≤ b.level ∧ b.level < 2 ^ 31))

/-! ## One file -/

/-- What a put does. -/
theorem putCapsuleBlock_eq {b : CapsuleBlock} {d : Directory} (hc : d.counter + 1 < 2 ^ 31) :
    putCapsuleBlock P b d = .ok (sha256String P (blockMsg d.counter b).serialize)
      ⟨d.counter + 1, (sha256String P (blockMsg d.counter b).serialize,
        (blockMsg d.counter b).serialize) :: d.files⟩ := by
  have hdef : putCapsuleBlock P b d = (if d.counter + 1 < 2 ^ 31 then do
      set ({ counter := d.counter + 1
             files := (sha256String P (blockMsg d.counter b).serialize,
               (blockMsg d.counter b).serialize) :: d.files } : Directory)
      return sha256String P (blockMsg d.counter b).serialize
    else throw .overflow : EStateM Fault Directory Str) d := rfl
  rw [hdef, if_pos hc]
  rfl

/-- A put that returns names the block by the digest of its message. -/
theorem put_eq_ok {b : CapsuleBlock} {d d' : Directory} {h : Str}
    (hput : putCapsuleBlock P b d = .ok h d') : d.counter + 1 < 2 ^ 31 ∧
      h = sha256String P (blockMsg d.counter b).serialize := by
  by_cases hc : d.counter + 1 < 2 ^ 31
  · rw [putCapsuleBlock_eq hc] at hput
    cases hput
    exact ⟨hc, rfl⟩
  · have hthrow : putCapsuleBlock P b d = .error .overflow d := by
      have hdef : putCapsuleBlock P b d = (if d.counter + 1 < 2 ^ 31 then _ else throw .overflow :
          EStateM Fault Directory Str) d := rfl
      rw [hdef, if_neg hc]
      rfl
    rw [hthrow] at hput
    cases hput

/-- What a get does. -/
theorem getCapsuleBlock_eq (h : Str) (d : Directory) :
    getCapsuleBlock P h d = match d.files.lookup h with
      | none => .error .io d
      | some storedBlock =>
        match P.parse storedBlock with
        | none => .error .io d
        | some m => if sha256String P m.serialize ≠ h then .error .io d
          else .ok (blockOfMsg m) d := by
  have hdef : getCapsuleBlock P h d = (match d.files.lookup h with
      | none => throw .io
      | some storedBlock =>
        match P.parse storedBlock with
        | none => throw .io
        | some recoveredBlock =>
          if sha256String P recoveredBlock.serialize ≠ h then throw .io
          else return blockOfMsg recoveredBlock : EStateM Fault Directory CapsuleBlock) d := rfl
  rw [hdef]
  cases d.files.lookup h with
  | none => rfl
  | some storedBlock =>
    dsimp only
    cases P.parse storedBlock with
    | none => rfl
    | some m =>
      dsimp only
      split <;> rfl

/-- A file that parses is returned if its digest is its name. -/
theorem get_of_parse {d : Directory} {h content : Str} {m : CapsuleBlockMsg}
    (hfile : d.files.lookup h = some content) (hparse : P.parse content = some m) :
    getCapsuleBlock P h d =
      if sha256String P m.serialize ≠ h then .error .io d else .ok (blockOfMsg m) d := by
  rw [getCapsuleBlock_eq, hfile]
  dsimp only
  rw [hparse]

/-! ## A platform -/

/-- The message of the sample block when it is the second one. -/
@[irreducible] def sampleMessage : Str :=
  [8, 1, 16, 1, 26, 1, 107, 34, 1, 107, 42, 11, 10, 1, 107, 18, 1, 118, 24, 7, 34, 1, 80]

/-- Some digests of SHA-256. -/
@[irreducible] def sampleDigests : List (Str × Str) :=
  [([8],
    [190, 234, 215, 121, 148, 207, 87, 51, 65, 236, 23, 181, 139, 191, 126, 179, 77, 39, 17, 201,
    147, 193, 217, 118, 177, 40, 179, 24, 141, 193, 130, 154]),
   (sampleMessage,
    [67, 194, 133, 104, 5, 197, 73, 1, 10, 246, 57, 51, 205, 150, 68, 11, 108, 190, 109, 64, 57,
    155, 243, 249, 183, 248, 99, 199, 183, 183, 1, 10])]

/-- A platform for the samples. -/
def samplePlatform : CapsulePlatform :=
  { sha256 := fun s => (sampleDigests.lookup s).getD []
    parse := parseBlock }

/-- The platform of the samples parses what was serialized. -/
theorem samplePlatform_parses : ParsesBlocks samplePlatform := parseBlock_serialize

/-- A block with one payload. -/
def singleBlock : CapsuleBlock := ⟨1, [107], [107], [⟨[107], [118], 7, [80]⟩]⟩

/-- The block with another value. -/
def forgedBlock : CapsuleBlock := ⟨1, [107], [107], [⟨[107], [119], 7, [80]⟩]⟩

/-! ## Altered files -/

/-- The C strings of two byte strings are told apart by their digests. -/
def NoCollision (P : CapsulePlatform) (s t : Str) : Prop :=
  P.sha256 (cString s) = P.sha256 (cString t) → cString s = cString t

/-- **Altered files are detected**: whatever the file of the hash `h` of the block `b`, which was
written as `stored`, is replaced by, if it parses and says anything else than `b`, then
`getCapsuleBlock` throws. -/
def Detects (P : CapsulePlatform) (b : CapsuleBlock) (stored h : Str) : Prop :=
  ∀ content m, P.parse content = some m → decoded m ≠ written b → NoCollision P m.serialize stored →
    ∀ d : Directory, d.files.lookup h = some content → ∃ e, getCapsuleBlock P h d = .error e d

/-- A message that agrees with that of a block up to the first zero byte says the same, if the
message of the block has no zero byte. -/
theorem decoded_of_cString {m : CapsuleBlockMsg} {counter : ℕ} {b : CapsuleBlock}
    (hfree : (0 : UInt8) ∉ (blockMsg counter b).serialize)
    (h : cString m.serialize = cString (blockMsg counter b).serialize) : decoded m = written b := by
  obtain ⟨rest, hm, hrest⟩ := cString_spec m.serialize
  rw [h, cString_eq_self hfree, serialize_blockMsg] at hm
  exact decoded_of_fields
    (fields_eq_of_append (block_tags m) (block_tags _) m.unknown hrest hm).1

/-- A further payload is written behind the others. -/
theorem serialize_append (counter : ℕ) (b : CapsuleBlock) (p : KvsPayload) :
    (blockMsg counter { b with kvPairs := b.kvPairs ++ [p] }).serialize =
      (blockMsg counter b).serialize ++ (WireField.bytes 5 (payloadMsg p).serialize).encode := by
  have hfields : (blockMsg counter { b with kvPairs := b.kvPairs ++ [p] }).fields =
      (blockMsg counter b).fields ++ [.bytes 5 (payloadMsg p).serialize] := by
    simp [CapsuleBlockMsg.fields, blockMsg]
  rw [serialize_blockMsg, serialize_blockMsg, hfields, encodeFields, List.flatMap_append]
  simp [encodeFields]

/-- **Altered blocks are detected** for exactly those blocks whose message has no zero byte. -/
theorem tampering_detected_iff (hparse : ParsesBlocks P) {b : CapsuleBlock} (hlevel : IntLevel b)
    {d d' : Directory} {h : Str} (hput : putCapsuleBlock P b d = .ok h d') :
    Detects P b (blockMsg d.counter b).serialize h ↔ Shielded d.counter b := by
  obtain ⟨hc, rfl⟩ := put_eq_ok hput
  rw [← zero_not_mem_block (by omega) hlevel]
  constructor
  · intro hdetects hzero
    -- another payload behind the zero byte changes the block but not its hash
    obtain ⟨b', hb'⟩ : ∃ b' : CapsuleBlock,
        b' = { b with kvPairs := b.kvPairs ++ [⟨[], [], 0, []⟩] } := ⟨_, rfl⟩
    have hne : decoded (blockMsg d.counter b') ≠ written b := by
      intro heq
      rw [decoded_blockMsg, hb'] at heq
      have hlen := congrArg (fun w : Int64 × Str × Str × List KvsPayload => w.2.2.2.length) heq
      simp [written] at hlen
    have hprefix : cString (blockMsg d.counter b').serialize =
        cString (blockMsg d.counter b).serialize := by
      rw [hb', serialize_append, cString_of_mem hzero]
    have hhash : sha256String P (blockMsg d.counter b').serialize =
        sha256String P (blockMsg d.counter b).serialize := by
      rw [sha256String, hprefix, sha256String]
    have hfile : List.lookup (sha256String P (blockMsg d.counter b).serialize)
        [(sha256String P (blockMsg d.counter b).serialize, (blockMsg d.counter b').serialize)] =
        some (blockMsg d.counter b').serialize := List.lookup_cons_self
    obtain ⟨e, he⟩ := hdetects _ _ (hparse d.counter b') hne (fun _ => hprefix) ⟨0, _⟩ hfile
    rw [get_of_parse hfile (hparse d.counter b'), hhash, if_neg (not_not.mpr rfl)] at he
    cases he
  · intro hfree content m hm hne hsha d₁ hfile
    rw [get_of_parse hfile hm]
    by_cases heq : sha256String P m.serialize = sha256String P (blockMsg d.counter b).serialize
    · exact absurd (decoded_of_cString hfree (hsha (hexText_injective heq))) hne
    · rw [if_pos heq]
      exact ⟨_, rfl⟩

/-- A second block whose message has no zero byte. -/
theorem tampering_detected_iff_sample :
    ∃ h d, putCapsuleBlock samplePlatform singleBlock ⟨1, []⟩ = .ok h d ∧
      Detects samplePlatform singleBlock (blockMsg 1 singleBlock).serialize h := by
  have hput :=
    putCapsuleBlock_eq (P := samplePlatform) (b := singleBlock) (d := ⟨1, []⟩) (by decide)
  have hfree : ZeroFree [107] := by simp [ZeroFree]
  refine ⟨_, _, hput, (tampering_detected_iff samplePlatform_parses (by decide) hput).mpr ?_⟩
  refine ⟨by decide, by decide, hfree, hfree, ?_⟩
  intro p hp
  obtain rfl := List.mem_singleton.mp hp
  exact ⟨hfree, by simp [ZeroFree], by decide, by simp [ZeroFree]⟩

/-- The directory after the file of the first block was replaced. -/
def forgedDirectory : Directory :=
  ⟨1, [(sha256String samplePlatform (blockMsg 0 singleBlock).serialize,
    (blockMsg 0 forgedBlock).serialize)]⟩

/-- The first block of a process is not protected: its message starts with the counter zero, so only
one byte is hashed, and a file with another value is returned. -/
theorem altered_block_is_returned :
    ∃ h d, putCapsuleBlock samplePlatform singleBlock ⟨0, []⟩ = .ok h d ∧
      forgedDirectory.files.lookup h = some (blockMsg 0 forgedBlock).serialize ∧
      samplePlatform.parse (blockMsg 0 forgedBlock).serialize = some (blockMsg 0 forgedBlock) ∧
      decoded (blockMsg 0 forgedBlock) ≠ written singleBlock ∧
      getCapsuleBlock samplePlatform h forgedDirectory = .ok forgedBlock forgedDirectory ∧
      ¬ Detects samplePlatform singleBlock (blockMsg 0 singleBlock).serialize h := by
  have hput :=
    putCapsuleBlock_eq (P := samplePlatform) (b := singleBlock) (d := ⟨0, []⟩) (by decide)
  have hparse := samplePlatform_parses 0 forgedBlock
  have hne : decoded (blockMsg 0 forgedBlock) ≠ written singleBlock := by decide +kernel
  have hprefix : cString (blockMsg 0 forgedBlock).serialize =
      cString (blockMsg 0 singleBlock).serialize := by decide +kernel
  have hhash : sha256String samplePlatform (blockMsg 0 forgedBlock).serialize =
      sha256String samplePlatform (blockMsg 0 singleBlock).serialize := by
    rw [sha256String, hprefix, sha256String]
  have hblock : blockOfMsg (blockMsg 0 forgedBlock) = forgedBlock := by decide +kernel
  have hfile : forgedDirectory.files.lookup (sha256String samplePlatform
      (blockMsg 0 singleBlock).serialize) = some (blockMsg 0 forgedBlock).serialize :=
    List.lookup_cons_self
  have hget := get_of_parse hfile hparse
  rw [if_neg (not_not.mpr hhash), hblock] at hget
  refine ⟨_, _, hput, hfile, hparse, hne, hget, ?_⟩
  intro hdetects
  obtain ⟨e, he⟩ := hdetects _ _ hparse hne (fun _ => hprefix) forgedDirectory hfile
  exact absurd (hget.symm.trans he) (by simp)

end Capsule.Analysis
