import Capsule.Analysis.BlockFileLaws

/-!
# The log of blocks on disk

A process numbers the blocks it puts, and the number stands at the beginning of the message, before
the first zero byte.  So no two blocks share a name, and every block stays readable while others are
written.  This is what the engine expects of its store (`BlockStore`).
-/

set_option autoImplicit false

namespace Capsule.Analysis

open Library Program FakeCapsule

variable {P : CapsulePlatform}

/-! ## The names of the files -/

/-- The name of the file of a block that is put with a counter. -/
def blockHash (P : CapsulePlatform) (counter : ℕ) (b : CapsuleBlock) : Str :=
  sha256String P (blockMsg counter b).serialize

/-- The strings that are hashed when a sequence of blocks is put, from counter 0 on. -/
def hashed (bs : List CapsuleBlock) : Set Str :=
  {s | ∃ i b, bs[i]? = some b ∧ s = cString (blockMsg i b).serialize}

/-- The message of a block starts with the counter. -/
theorem serialize_eq_counter_append {counter : ℕ} (hc : counter < 2 ^ 31) (b : CapsuleBlock) :
    ∃ rest, (blockMsg counter b).serialize = 8 :: varint counter ++ rest := by
  have hvalue : (Int64.ofNat counter).toUInt64.toNat = counter := by
    have hofNat : (Int64.ofNat counter).toUInt64 = UInt64.ofNat counter := rfl
    rw [hofNat, UInt64.toNat_ofNat']
    omega
  have htag : varint 8 = [8] := varint_of_lt (by omega)
  have hcons : (blockMsg counter b).fields =
      [.varint 1 (Int64.ofNat counter).toUInt64] ++ ((blockMsg counter b).fields.drop 1) := rfl
  refine ⟨encodeFields ((blockMsg counter b).fields.drop 1), ?_⟩
  rw [serialize_blockMsg, hcons, encodeFields, List.flatMap_append, List.flatMap_singleton,
    WireField.encode, WireField.encodeValue, WireField.tag, hvalue, htag]
  rfl

/-- What is hashed of the first block: the tag of the counter. -/
theorem cString_block_zero (b : CapsuleBlock) : cString (blockMsg 0 b).serialize = [8] := by
  obtain ⟨rest, hrest⟩ := serialize_eq_counter_append (show 0 < 2 ^ 31 by omega) b
  have hzero : varint 0 = [0] := varint_of_lt (by omega)
  rw [hrest, hzero]
  rfl

/-- What is hashed of the other blocks starts with the counter. -/
theorem cString_block_pos {counter : ℕ} (hc : counter < 2 ^ 31) (hpos : counter ≠ 0)
    (b : CapsuleBlock) :
    ∃ rest, cString (blockMsg counter b).serialize = 8 :: (varint counter ++ rest) := by
  obtain ⟨rest, hrest⟩ := serialize_eq_counter_append hc b
  have hfree : (0 : UInt8) ∉ 8 :: varint counter := by
    rw [List.mem_cons, zero_mem_varint_iff, not_or]
    exact ⟨by decide, hpos⟩
  exact ⟨cString rest, by rw [hrest, cString_of_not_mem hfree, List.cons_append]⟩

/-- **What is hashed of a block tells its counter.** -/
theorem counter_eq_of_cString {i j : ℕ} (hi : i < 2 ^ 31) (hj : j < 2 ^ 31) {b b' : CapsuleBlock}
    (h : cString (blockMsg i b).serialize = cString (blockMsg j b').serialize) : i = j := by
  by_cases hi0 : i = 0
  · by_cases hj0 : j = 0
    · rw [hi0, hj0]
    · obtain ⟨rest, hrest⟩ := cString_block_pos hj hj0 b'
      rw [hi0, cString_block_zero, hrest, List.cons.injEq] at h
      exact absurd (List.append_eq_nil_iff.mp h.2.symm).1 (varint_ne_nil j)
  · obtain ⟨rest, hrest⟩ := cString_block_pos hi hi0 b
    by_cases hj0 : j = 0
    · rw [hj0, cString_block_zero, hrest, List.cons.injEq] at h
      exact absurd (List.append_eq_nil_iff.mp h.2).1 (varint_ne_nil i)
    · obtain ⟨rest', hrest'⟩ := cString_block_pos hj hj0 b'
      rw [hrest, hrest', List.cons.injEq] at h
      exact (varint_append_inj h.2).1

/-- No two blocks of a sequence get one name. -/
theorem blockHash_inj {bs : List CapsuleBlock} (hlen : bs.length < 2 ^ 31)
    (hsha : Set.InjOn P.sha256 (hashed bs)) {i j : ℕ} {b b' : CapsuleBlock} (hi : bs[i]? = some b)
    (hj : bs[j]? = some b') (h : blockHash P i b = blockHash P j b') : i = j := by
  have hilt := (List.getElem?_eq_some_iff.mp hi).1
  have hjlt := (List.getElem?_eq_some_iff.mp hj).1
  exact counter_eq_of_cString (by omega) (by omega)
    (hsha ⟨i, b, hi, rfl⟩ ⟨j, b', hj, rfl⟩ (hexText_injective h))

/-! ## Sequences of puts -/

/-- A directory after the blocks `bs` were put, which held the files `old` before: every block is in
its file, and the other files are as before. -/
structure Logged (P : CapsulePlatform) (old : List (Str × Str)) (bs : List CapsuleBlock)
    (d : Directory) : Prop where
  counter : d.counter = bs.length
  files : ∀ i b, bs[i]? = some b →
    d.files.lookup (blockHash P i b) = some (blockMsg i b).serialize
  others : ∀ h, (∀ i b, bs[i]? = some b → h ≠ blockHash P i b) → d.files.lookup h = old.lookup h

/-- A new file does not hide the files of other names. -/
theorem lookup_cons_ne {α : Type} {h h' : Str} (hne : h ≠ h') (a : α) (files : List (Str × α)) :
    ((h', a) :: files).lookup h = files.lookup h := by
  rw [List.lookup_cons, beq_false_of_ne hne]

/-- **One put**, of a block that gets a name of its own. -/
theorem Logged.put {old : List (Str × Str)} {bs : List CapsuleBlock} {d : Directory}
    (hd : Logged P old bs d) {b : CapsuleBlock} (hlen : bs.length + 1 < 2 ^ 31)
    (hnew : ∀ i b', bs[i]? = some b' → blockHash P i b' ≠ blockHash P bs.length b) :
    Outcome (fun h d' => h = blockHash P bs.length b ∧ Logged P old (bs ++ [b]) d')
      (fun _ _ => False) (putCapsuleBlock P b d) := by
  rw [putCapsuleBlock_eq (by rw [hd.counter]; exact hlen), hd.counter]
  refine ⟨rfl, ⟨by simp, ?_, ?_⟩⟩
  · intro i b' hi
    rcases Nat.lt_or_ge i bs.length with hlt | hge
    · rw [List.getElem?_append_left hlt] at hi
      exact (lookup_cons_ne (hnew i b' hi) _ _).trans (hd.files i b' hi)
    · rw [List.getElem?_append_right hge, List.getElem?_singleton] at hi
      obtain rfl : i = bs.length := by
        by_contra hne
        rw [if_neg (by omega)] at hi
        cases hi
      rw [Nat.sub_self, if_pos rfl] at hi
      cases hi
      exact List.lookup_cons_self
  · intro h hh
    have hlast : h ≠ blockHash P bs.length b := hh bs.length b (by simp)
    refine (lookup_cons_ne hlast _ _).trans (hd.others h fun i b' hi => hh i b' ?_)
    exact (List.getElem?_append_left (List.getElem?_eq_some_iff.mp hi).1).trans hi

/-- The names of a sequence of blocks, from a counter on. -/
def blockHashes (P : CapsulePlatform) (counter : ℕ) (bs : List CapsuleBlock) : List Str :=
  (bs.zipIdx counter).map fun bi => blockHash P bi.2 bi.1

/-- **A sequence of puts.** -/
theorem Logged.puts {old : List (Str × Str)} {done bs : List CapsuleBlock} {d : Directory}
    (hd : Logged P old done d) (hlen : (done ++ bs).length < 2 ^ 31)
    (hsha : Set.InjOn P.sha256 (hashed (done ++ bs))) :
    Outcome (fun hashes d' => hashes = blockHashes P done.length bs ∧ Logged P old (done ++ bs) d')
      (fun _ _ => False) (putCapsuleBlocks P bs d) := by
  induction bs generalizing done d with
  | nil => exact ⟨rfl, by rwa [List.append_nil]⟩
  | cons b bs ih =>
    have hb : (done ++ b :: bs)[done.length]? = some b := by simp
    have hnew : ∀ i b', done[i]? = some b' → blockHash P i b' ≠ blockHash P done.length b := by
      intro i b' hi heq
      have hilt := (List.getElem?_eq_some_iff.mp hi).1
      have hi' : (done ++ b :: bs)[i]? = some b' := (List.getElem?_append_left hilt).trans hi
      exact absurd (blockHash_inj hlen hsha hi' hb heq) (by omega)
    have hnext : done.length + 1 < 2 ^ 31 := by
      rw [List.length_append, List.length_cons] at hlen
      omega
    have happ : done ++ b :: bs = done ++ [b] ++ bs := by simp
    rw [happ] at hlen hsha ⊢
    rw [putCapsuleBlocks]
    apply Outcome.bind (hd.put hnext hnew) (fun _ _ h => h)
    rintro hash d₁ ⟨rfl, hd₁⟩
    apply Outcome.bind (ih hd₁ hlen hsha) (fun _ _ h => h)
    rintro hashes d' ⟨rfl, hd'⟩
    refine Outcome.pure ⟨?_, hd'⟩
    rw [List.length_append]
    rfl

/-! ## Reading back -/

/-- The keys of a block are not empty, and its range is that of its keys. -/
def TightRange (b : CapsuleBlock) : Prop :=
  (∀ p ∈ b.kvPairs, p.key ≠ []) ∧ IsLeast {k | ∃ p ∈ b.kvPairs, p.key = k} b.startKey ∧
    IsGreatest {k | ∃ p ∈ b.kvPairs, p.key = k} b.endKey

/-- What is read back of a block: its level, its payloads and, if it is tight, its range. -/
structure ReadsBack (b b' : CapsuleBlock) : Prop where
  level : b'.level = b.level
  kvPairs : b'.kvPairs = b.kvPairs
  range : TightRange b → b'.startKey = b.startKey ∧ b'.endKey = b.endKey

/-- Adding pairs one by one keeps the level and appends the pairs. -/
theorem foldl_addKVPair (ps : List KvsPayload) (b : CapsuleBlock) :
    (ps.foldl CapsuleBlock.addKVPair b).level = b.level ∧
    (ps.foldl CapsuleBlock.addKVPair b).kvPairs = b.kvPairs ++ ps := by
  induction ps generalizing b with
  | nil => exact ⟨rfl, (List.append_nil _).symm⟩
  | cons p ps ih =>
    obtain ⟨hlevel, hpairs⟩ := ih (b.addKVPair p)
    refine ⟨hlevel, ?_⟩
    rw [List.foldl_cons, hpairs, CapsuleBlock.kvPairs_addKVPair, List.append_assoc,
      List.singleton_append]

/-- Adding payloads within the range of a block leaves the range as it is. -/
theorem foldl_addKVPair_range {ps : List KvsPayload} {b : CapsuleBlock} (hstart : b.startKey ≠ [])
    (hend : b.endKey ≠ []) (hps : ∀ p ∈ ps, b.startKey ≤ p.key ∧ p.key ≤ b.endKey) :
    (ps.foldl CapsuleBlock.addKVPair b).startKey = b.startKey ∧
    (ps.foldl CapsuleBlock.addKVPair b).endKey = b.endKey := by
  induction ps generalizing b with
  | nil => exact ⟨rfl, rfl⟩
  | cons p ps ih =>
    obtain ⟨hle, hge⟩ := hps p List.mem_cons_self
    have hs : (b.addKVPair p).startKey = b.startKey := by
      simp only [CapsuleBlock.addKVPair, if_neg hstart, min_eq_left hle]
    have he : (b.addKVPair p).endKey = b.endKey := by
      simp only [CapsuleBlock.addKVPair, if_neg hend, max_eq_left hge]
    have hrest := ih (b := b.addKVPair p) (hs ▸ hstart) (he ▸ hend) fun q hq =>
      hs ▸ he ▸ hps q (List.mem_cons_of_mem p hq)
    rwa [hs, he] at hrest

/-- The block that is read back, as the loop over its pairs. -/
theorem blockOfMsg_eq (m : CapsuleBlockMsg) :
    blockOfMsg m = (m.kvpairs.map payloadOf).foldl CapsuleBlock.addKVPair
      ⟨toInt m.getLevel.toInt, m.getStartKey, m.getEndKey, []⟩ := by
  rw [List.foldl_map]
  rfl

/-- **A block is read back.** -/
theorem readsBack_blockOfMsg (counter : ℕ) {b : CapsuleBlock} (hlevel : IntLevel b) :
    ReadsBack b (blockOfMsg (blockMsg counter b)) := by
  have hint : toInt (Int64.ofInt b.level).toInt = b.level := by
    obtain ⟨hlo, hhi⟩ := hlevel
    rw [Int64.toInt_ofInt_of_le (by omega) (by omega)]
    exact Int.bmod_eq_of_le (by omega) (by omega)
  have hmsg : blockOfMsg (blockMsg counter b) =
      b.kvPairs.foldl CapsuleBlock.addKVPair ⟨b.level, b.startKey, b.endKey, []⟩ := by
    have hpairs : (blockMsg counter b).kvpairs.map payloadOf = b.kvPairs := map_payloadOf b.kvPairs
    have hlev : toInt (blockMsg counter b).getLevel.toInt = b.level := hint
    rw [blockOfMsg_eq, hpairs, hlev]
    rfl
  rw [hmsg]
  obtain ⟨hl, hk⟩ := foldl_addKVPair b.kvPairs ⟨b.level, b.startKey, b.endKey, []⟩
  refine ⟨hl, hk, ?_⟩
  rintro ⟨hne, ⟨⟨p, hp, hpstart⟩, hleast⟩, ⟨q, hq, hqend⟩, hgreatest⟩
  exact foldl_addKVPair_range (hpstart ▸ hne p hp) (hqend ▸ hne q hq) fun r hr =>
    ⟨hleast ⟨r, hr, rfl⟩, hgreatest ⟨r, hr, rfl⟩⟩

/-- The block in the file of its hash. -/
theorem Logged.get (hparse : ParsesBlocks P) {old : List (Str × Str)} {bs : List CapsuleBlock}
    {d : Directory} (hd : Logged P old bs d) {i : ℕ} {b : CapsuleBlock} (hi : bs[i]? = some b) :
    getCapsuleBlock P (blockHash P i b) d = .ok (blockOfMsg (blockMsg i b)) d := by
  rw [get_of_parse (hd.files i b hi) (hparse i b)]
  exact if_neg (not_not.mpr rfl)

/-- The name of a block among the names of all. -/
theorem getElem?_blockHashes {bs : List CapsuleBlock} {i : ℕ} {b : CapsuleBlock} {h : Str}
    (hi : bs[i]? = some b) (hh : (blockHashes P 0 bs)[i]? = some h) : h = blockHash P i b := by
  rw [blockHashes, List.getElem?_map, List.getElem?_zipIdx, hi, Nat.zero_add] at hh
  exact (Option.some.inj hh).symm

/-- Without collisions all names are different. -/
theorem nodup_blockHashes {bs : List CapsuleBlock} (hlen : bs.length < 2 ^ 31)
    (hsha : Set.InjOn P.sha256 (hashed bs)) : (blockHashes P 0 bs).Nodup := by
  apply List.pairwise_iff_getElem.mpr
  intro i j hi hj hlt heq
  have hlen' : (blockHashes P 0 bs).length = bs.length := by
    rw [blockHashes, List.length_map, List.length_zipIdx]
  have hbi := List.getElem?_eq_getElem (hlen' ▸ hi)
  have hbj := List.getElem?_eq_getElem (hlen' ▸ hj)
  rw [getElem?_blockHashes hbi (List.getElem?_eq_getElem hi),
    getElem?_blockHashes hbj (List.getElem?_eq_getElem hj)] at heq
  exact absurd (blockHash_inj hlen hsha hbi hbj heq) (by omega)

/-- **The store on disk**: a process that puts blocks, less than `2 ^ 31` of them, into a directory
with any files gets different hashes, and afterwards reads back every block under its hash. -/
theorem puts_read_back (hparse : ParsesBlocks P) {bs : List CapsuleBlock}
    (hlevels : ∀ b ∈ bs, IntLevel b) (hlen : bs.length < 2 ^ 31)
    (hsha : Set.InjOn P.sha256 (hashed bs)) (files : List (Str × Str)) :
    ∃ hashes d, putCapsuleBlocks P bs ⟨0, files⟩ = .ok hashes d ∧ hashes.length = bs.length ∧
      hashes.Nodup ∧ ∀ (i : ℕ) b h, bs[i]? = some b → hashes[i]? = some h →
        ∃ b', getCapsuleBlock P h d = .ok b' d ∧ ReadsBack b b' := by
  have hstart : Logged P files [] ⟨0, files⟩ := ⟨rfl, by simp, fun _ _ => rfl⟩
  have hrun : Outcome _ _ (putCapsuleBlocks P bs ⟨0, files⟩) := hstart.puts hlen hsha
  cases hputs : putCapsuleBlocks P bs ⟨0, files⟩ with
  | error e d =>
    rw [hputs] at hrun
    exact hrun.elim
  | ok hashes d =>
    rw [hputs] at hrun
    obtain ⟨rfl, hd⟩ := hrun
    refine ⟨_, d, rfl, ?_, nodup_blockHashes hlen hsha, ?_⟩
    · rw [blockHashes, List.length_map, List.length_zipIdx]
    · intro i b h hi hh
      rw [getElem?_blockHashes hi hh]
      exact ⟨_, hd.get hparse hi, readsBack_blockOfMsg i (hlevels b (List.mem_of_getElem? hi))⟩

/-- One block put twice. -/
theorem puts_read_back_sample :
    ∃ hashes d, putCapsuleBlocks samplePlatform [singleBlock, singleBlock] ⟨0, []⟩ = .ok hashes d ∧
      hashes.length = 2 ∧ hashes.Nodup ∧
      ∀ (i : ℕ) b h, [singleBlock, singleBlock][i]? = some b → hashes[i]? = some h →
        ∃ b', getCapsuleBlock samplePlatform h d = .ok b' d ∧ ReadsBack b b' := by
  have hlevels : ∀ b ∈ [singleBlock, singleBlock], IntLevel b := by
    intro b hb
    obtain rfl : b = singleBlock := by simpa using hb
    decide
  have hsecond : cString (blockMsg 1 singleBlock).serialize = sampleMessage := by decide +kernel
  have hdigests : samplePlatform.sha256 [8] ≠ samplePlatform.sha256 sampleMessage := by
    decide +kernel
  have hsha : Set.InjOn samplePlatform.sha256 (hashed [singleBlock, singleBlock]) := by
    have hcases : ∀ s ∈ hashed [singleBlock, singleBlock], s = [8] ∨ s = sampleMessage := by
      rintro s ⟨i, b, hi, rfl⟩
      match i, hi with
      | 0, hi => exact Or.inl (cString_block_zero b)
      | 1, hi =>
        cases hi
        exact Or.inr hsecond
    intro s hs t ht heq
    rcases hcases s hs with rfl | rfl <;> rcases hcases t ht with rfl | rfl
    · rfl
    · exact absurd heq hdigests
    · exact absurd heq.symm hdigests
    · rfl
  exact puts_read_back samplePlatform_parses hlevels (by decide) hsha []

/-! ## The interface of the engine -/

/-- What the file of a hash decodes to. -/
def storedBlock (P : CapsulePlatform) (d : Directory) (h : Str) : Option CapsuleBlock :=
  match getCapsuleBlock P h d with
  | .ok b _ => some b
  | .error _ _ => none

/-- A read leaves the directory as it is and can only throw. -/
theorem getCapsuleBlock_state (h : Str) (d : Directory) :
    Outcome (fun _ d' => d' = d) (fun e d' => e = .io ∧ d' = d) (getCapsuleBlock P h d) := by
  rw [getCapsuleBlock_eq]
  split
  · exact ⟨rfl, rfl⟩
  · split
    · exact ⟨rfl, rfl⟩
    · split
      · exact ⟨rfl, rfl⟩
      · rfl

/-- **Reads are as the engine expects them.** -/
theorem getCapsuleBlock_spec (h : Str) (d : Directory) :
    Outcome
      (fun b d' => Keeps (storedBlock P) d d' ∧ ∀ b₀, storedBlock P d h = some b₀ → b = b₀)
      (fun e d' => e = .io ∧ Keeps (storedBlock P) d d') (getCapsuleBlock P h d) := by
  have hstate := getCapsuleBlock_state (P := P) h d
  cases hget : getCapsuleBlock P h d with
  | ok b d' =>
    rw [hget] at hstate
    obtain rfl : d' = d := hstate
    refine ⟨fun _ _ hb => hb, fun b₀ hb => ?_⟩
    rw [storedBlock, hget] at hb
    exact Option.some.inj hb
  | error e d' =>
    rw [hget] at hstate
    obtain ⟨rfl, rfl⟩ : e = .io ∧ d' = d := hstate
    exact ⟨rfl, fun _ _ hb => hb⟩

/-- The names are those of the blocks put. -/
theorem mem_blockHashes {bs : List CapsuleBlock} {h : Str} :
    h ∈ blockHashes P 0 bs ↔ ∃ i b, bs[i]? = some b ∧ h = blockHash P i b := by
  unfold blockHashes
  constructor
  · intro hmem
    obtain ⟨⟨b, i⟩, hbi, rfl⟩ := List.mem_map.mp hmem
    exact ⟨i, b, List.mem_zipIdx_iff_getElem?.mp hbi, rfl⟩
  · rintro ⟨i, b, hi, rfl⟩
    exact List.mem_map.mpr ⟨(b, i), List.mem_zipIdx_iff_getElem?.mpr hi, rfl⟩

/-- What the file of a hash decodes to, if one of the blocks put has the hash. -/
def loggedBlock (P : CapsulePlatform) (bs : List CapsuleBlock) (d : Directory) (h : Str) :
    Option CapsuleBlock :=
  if h ∈ blockHashes P 0 bs then storedBlock P d h else none

/-- Every block put is found. -/
theorem Logged.logged_eq (hparse : ParsesBlocks P) {old : List (Str × Str)} {bs : List CapsuleBlock}
    {d : Directory} (hd : Logged P old bs d) {i : ℕ} {b : CapsuleBlock} (hi : bs[i]? = some b) :
    loggedBlock P bs d (blockHash P i b) = some (blockOfMsg (blockMsg i b)) := by
  unfold loggedBlock storedBlock
  rw [if_pos (mem_blockHashes.mpr ⟨i, b, hi, rfl⟩), hd.get hparse hi]

/-- What is found is one of the blocks put. -/
theorem Logged.of_logged (hparse : ParsesBlocks P) {old : List (Str × Str)} {bs : List CapsuleBlock}
    {d : Directory} (hd : Logged P old bs d) {h : Str} {b : CapsuleBlock}
    (hb : loggedBlock P bs d h = some b) :
    ∃ i b', bs[i]? = some b' ∧ h = blockHash P i b' ∧ b = blockOfMsg (blockMsg i b') := by
  by_cases hmem : h ∈ blockHashes P 0 bs
  · obtain ⟨i, b', hi, rfl⟩ := mem_blockHashes.mp hmem
    rw [hd.logged_eq hparse hi] at hb
    exact ⟨i, b', hi, rfl, (Option.some.inj hb).symm⟩
  · rw [loggedBlock, if_neg hmem] at hb
    cases hb

/-- **Writes are as the engine expects them**, for a block that gets a name of its own among the
blocks put, whatever other files there are. -/
theorem Logged.put_spec (hparse : ParsesBlocks P) (hdigest : ∀ s, P.sha256 s ≠ [])
    {old : List (Str × Str)} {bs : List CapsuleBlock} {d : Directory} (hd : Logged P old bs d)
    {b : CapsuleBlock} (hlevel : IntLevel b) (hlen : bs.length + 1 < 2 ^ 31)
    (hnew : blockHash P bs.length b ∉ blockHashes P 0 bs) :
    Outcome
      (fun h d' => Logged P old (bs ++ [b]) d' ∧ h ≠ [] ∧
        (∀ h₀ b₀, loggedBlock P bs d h₀ = some b₀ → loggedBlock P (bs ++ [b]) d' h₀ = some b₀) ∧
        ∃ b', loggedBlock P (bs ++ [b]) d' h = some b' ∧ b'.level = b.level ∧
          b'.kvPairs = b.kvPairs)
      (fun _ _ => False) (putCapsuleBlock P b d) := by
  have hb : (bs ++ [b])[bs.length]? = some b := by simp
  have hfree : ∀ i b', bs[i]? = some b' → blockHash P i b' ≠ blockHash P bs.length b :=
    fun i b' hi heq => hnew (mem_blockHashes.mpr ⟨i, b', hi, heq.symm⟩)
  refine (hd.put hlen hfree).mono ?_ fun _ _ h => h
  rintro h d' ⟨rfl, hd'⟩
  refine ⟨hd', ?_, ?_, _, hd'.logged_eq hparse hb, ?_⟩
  · intro hnil
    exact hdigest _ (hexText_injective hnil)
  · intro h₀ b₀ hb₀
    obtain ⟨i, b', hi, rfl, rfl⟩ := hd.of_logged hparse hb₀
    exact hd'.logged_eq hparse
      ((List.getElem?_append_left (List.getElem?_eq_some_iff.mp hi).1).trans hi)
  · exact ⟨(readsBack_blockOfMsg bs.length hlevel).level, (readsBack_blockOfMsg _ hlevel).kvPairs⟩

/-- A block gets a name of its own unless digests collide. -/
theorem blockHash_fresh {bs : List CapsuleBlock} {b : CapsuleBlock}
    (hlen : (bs ++ [b]).length < 2 ^ 31) (hsha : Set.InjOn P.sha256 (hashed (bs ++ [b]))) :
    blockHash P bs.length b ∉ blockHashes P 0 bs := by
  intro hmem
  obtain ⟨i, b', hi, heq⟩ := mem_blockHashes.mp hmem
  have hilt := (List.getElem?_eq_some_iff.mp hi).1
  have hi' : (bs ++ [b])[i]? = some b' := (List.getElem?_append_left hilt).trans hi
  have hb : (bs ++ [b])[bs.length]? = some b := by simp
  exact absurd (blockHash_inj hlen hsha hi' hb heq.symm) (by omega)

end Capsule.Analysis
