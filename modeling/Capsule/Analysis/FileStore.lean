import Capsule.Analysis.BlockLog
import Capsule.Analysis.ServerLaws

/-!
# The engine on files

The block store on disk keeps the interface of the engine as long as every block that the process
puts gets a name of its own and the counter of the process and the level of the block fit an `int`.
With these as checks in front of `putCapsuleBlock` it is a `BlockStore` (`fileStore`), so that the
laws of the engine hold of it on files.

Earlier processes may have left files, and new blocks get the names of old ones: the first block of
every process is named alike.  The engine reads back what it has put itself.

Any two block stores answer alike (`servers_agree`), so that nothing but an error tells the files
from a list in memory (`file_server_agrees`).
-/

set_option autoImplicit false

namespace Capsule.Analysis

open Library Program FakeCapsule

/-- Libraries that keep what the store relies on. -/
structure LawfulPlatform extends CapsulePlatform where
  parses : ParsesBlocks toCapsulePlatform
  digest_ne : ∀ s, sha256 s ≠ []

variable (P : LawfulPlatform)

/-- A directory in which a process has put blocks. -/
structure LoggedDirectory where
  /-- the files that were there before -/
  old : List (Str × Str)
  /-- the blocks put -/
  log : List CapsuleBlock
  /-- the process and its directory -/
  directory : Directory
  logged : Logged P.toCapsulePlatform old log directory

/-- The directory of a new process, with the files that it finds there. -/
def startDirectory (files : List (Str × Str)) : LoggedDirectory P :=
  ⟨files, [], ⟨0, files⟩, rfl, by simp, fun _ _ => rfl⟩

/-- The block gets a name of its own, and the counter and its level fit an `int`. -/
def Fits (d : LoggedDirectory P) (b : CapsuleBlock) : Prop :=
  d.log.length + 1 < 2 ^ 31 ∧ IntLevel b ∧
    blockHash P.toCapsulePlatform d.log.length b ∉ blockHashes P.toCapsulePlatform 0 d.log

instance decidableFits (d : LoggedDirectory P) (b : CapsuleBlock) : Decidable (Fits P d b) :=
  inferInstanceAs (Decidable (_ ∧ _ ∧ _))

variable {P}

/-- What the files of the blocks put decode to. -/
def LoggedDirectory.stored (d : LoggedDirectory P) (h : Str) : Option CapsuleBlock :=
  loggedBlock P.toCapsulePlatform d.log d.directory h

/-- **A put fits**, with less than `2 ^ 31` blocks, unless digests collide. -/
theorem fits_of_injOn {d : LoggedDirectory P} {b : CapsuleBlock} (hlevel : IntLevel b)
    (hlen : (d.log ++ [b]).length < 2 ^ 31) (hsha : Set.InjOn P.sha256 (hashed (d.log ++ [b]))) :
    Fits P d b := ⟨by simpa using hlen, hlevel, blockHash_fresh hlen hsha⟩

/-- A put that fits. -/
theorem put_fits {d : LoggedDirectory P} {b : CapsuleBlock} (hb : Fits P d b) :
    Outcome
      (fun h d' => ∃ hd' : Logged P.toCapsulePlatform d.old (d.log ++ [b]) d', h ≠ [] ∧
        Keeps LoggedDirectory.stored d ⟨d.old, d.log ++ [b], d', hd'⟩ ∧
        ∃ b', LoggedDirectory.stored ⟨d.old, d.log ++ [b], d', hd'⟩ h = some b' ∧
          b'.level = b.level ∧ b'.kvPairs = b.kvPairs)
      (fun _ _ => False) (putCapsuleBlock P.toCapsulePlatform b d.directory) := by
  obtain ⟨hcounter, hlevel, hnew⟩ := hb
  refine (d.logged.put_spec P.parses P.digest_ne hlevel hcounter hnew).mono ?_ fun _ _ h => h
  rintro h d' ⟨hd', hne, hkeeps, hstored⟩
  exact ⟨hd', hne, hkeeps, hstored⟩

/-- `putCapsuleBlock` with the checks in front. -/
def putFile (b : CapsuleBlock) : EStateM Fault (LoggedDirectory P) Str := fun d =>
  if hb : Fits P d b then
    match h : putCapsuleBlock P.toCapsulePlatform b d.directory with
    | .ok hash d' => .ok hash ⟨d.old, d.log ++ [b], d', ((put_fits hb).of_ok h).choose⟩
    | .error e _ => .error e d
  else .error .io d

/-- `getCapsuleBlock`, which leaves the directory as it is. -/
def getFile (h : Str) : EStateM Fault (LoggedDirectory P) CapsuleBlock := fun d =>
  match getCapsuleBlock P.toCapsulePlatform h d.directory with
  | .ok b _ => .ok b d
  | .error e _ => .error e d

/-- **The block store on files.** -/
def fileStore (P : LawfulPlatform) : BlockStore where
  Disk := LoggedDirectory P
  putCapsuleBlock := putFile
  getCapsuleBlock := getFile
  stored := LoggedDirectory.stored
  put_spec b d := by
    unfold putFile
    split
    · rename_i hb
      have hput := put_fits hb
      split
      · rename_i hash d' hr
        exact (hput.of_ok hr).choose_spec
      · rename_i e d' hr
        exact (hput.of_error hr).elim
    · exact ⟨rfl, fun _ _ h => h⟩
  get_spec h d := by
    unfold getFile
    have hget := getCapsuleBlock_spec (P := P.toCapsulePlatform) h d.directory
    split
    · rename_i b d' hr
      refine ⟨fun _ _ h => h, fun b₀ hb₀ => (hget.of_ok hr).2 b₀ ?_⟩
      unfold LoggedDirectory.stored loggedBlock at hb₀
      split_ifs at hb₀ with hmem
      exact hb₀
    · rename_i e d' hr
      exact ⟨(hget.of_error hr).1, fun _ _ h => h⟩

/-- A put that fits is a put of the source. -/
theorem putFile_eq {d : LoggedDirectory P} {b : CapsuleBlock} (hb : Fits P d b) :
    ∃ hash d', putCapsuleBlock P.toCapsulePlatform b d.directory = .ok hash d'.directory ∧
      putFile b d = .ok hash d' := by
  unfold putFile
  rw [dif_pos hb]
  split
  · rename_i hash d' hr
    exact ⟨hash, ⟨d.old, d.log ++ [b], d', ((put_fits hb).of_ok hr).choose⟩, hr, rfl⟩
  · rename_i e d' hr
    exact ((put_fits hb).of_error hr).elim

/-- The platform of the parser of messages and any digests. -/
def parsingPlatform (sha256 : Str → Str) (hsha : ∀ s, sha256 s ≠ []) : LawfulPlatform where
  sha256 := sha256
  parse := parseBlock
  parses := parseBlock_serialize
  digest_ne := hsha

/-- The digests of the samples are not empty. -/
theorem sampleDigest_ne (s : Str) :
    (sampleDigests.lookup s).getD (List.replicate 32 0) ≠ [] := by
  cases hl : sampleDigests.lookup s with
  | none => exact List.cons_ne_nil _ _
  | some digest =>
    have hall : ∀ e ∈ sampleDigests, e.2 ≠ [] := by
      unfold sampleDigests
      decide
    obtain ⟨before, after, hmem, -⟩ := List.lookup_eq_some_iff.mp hl
    exact hall (s, digest) (by rw [hmem]; simp)

/-- A platform with the digests of the samples. -/
def sampleFiles : LawfulPlatform := parsingPlatform _ sampleDigest_ne

end Capsule.Analysis
