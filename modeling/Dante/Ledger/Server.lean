import Dante.Identity.Records

/-!
The bodies of the server-directory records and of the tombstone, and the reasons
for which the ledger refuses a record.
-/

namespace Dante.Ledger

open Crypto Enc

inductive LedgerError where
  | unsupportedVersion (v : UInt16)
  | timestampInFuture (createdMs nowMs : UInt64)
  | badSignature
  | badPow
  | body (error : Identity.IdentityError)
  | wire (error : WireError)
  | tombstoneNotAllowed
  | alreadyAnnounced
  | unknownIdentity
  | identityEvaporated
  | identityRevoked
  | notChainTip
  | authorMismatch
  | nonMonotonic
  | keyAlreadyInUse
  | unknownServer
  | fieldTooLong
  deriving DecidableEq, Repr

def serverPowDomain : Bytes := "dante/pow/server-register/v1".toUTF8.toList

def nameMax : Nat := 64

def summaryMax : Nat := 280

def tagsMax : Nat := 8

def tagLenMax : Nat := 32

def relaysMax : Nat := 8

def relayLenMax : Nat := 256

/-- The limit of the invite link, a literal in the source. -/
def inviteMax : Nat := 2048

def readStrings : Nat → Reader (List String)
  | 0 => return []
  | count + 1 => do
    let s ← Reader.string
    let rest ← readStrings count
    return s :: rest

/-- The count is bounded by the input that is left before the loop starts. -/
def readStringList : Reader (List String) := do
  let count := (← Reader.u32).toNat
  if count > (← Reader.remaining) then
    throw (.lengthTooLarge (UInt64.ofNat count))
  readStrings count

theorem readStrings_eq (count : Nat) : readStrings count = Parser.times Reader.string count := by
  induction count with
  | zero => rfl
  | succ count ih =>
    rw [readStrings, ih]
    rfl

theorem readStringList_eq : readStringList = Reader.list Reader.string := by
  simp only [readStringList, readStrings_eq]
  rfl

structure ServerRegister where
  serverRoot : Key
  name : String
  summary : String
  tags : List String
  entryRelays : List String
  discoverable : Bool
  invite : String
  pow : Pow.PowProof
  deriving DecidableEq

namespace ServerRegister

/-- Bound to the root key alone, so one solution covers every re-registration. -/
def challenge (S : Suite) (serverRoot : Key) : Hash :=
  sha256Parts S.sha256 [serverPowDomain, serverRoot.toList]

def validate (body : ServerRegister) : Except LedgerError Unit :=
  if body.name.utf8ByteSize ≤ nameMax ∧ body.summary.utf8ByteSize ≤ summaryMax ∧
      body.tags.length ≤ tagsMax ∧ (∀ tag ∈ body.tags, tag.utf8ByteSize ≤ tagLenMax) ∧
      body.entryRelays.length ≤ relaysMax ∧
      (∀ relay ∈ body.entryRelays, relay.utf8ByteSize ≤ relayLenMax) ∧
      body.invite.utf8ByteSize ≤ inviteMax then
    .ok ()
  else
    .error .fieldTooLong

def writeStringList (strings : List String) : Bytes :=
  Writer.u32 (UInt32.ofNat strings.length) ++ (strings.map Writer.string).flatten

def encode (body : ServerRegister) : Bytes :=
  Writer.fixed body.serverRoot ++ Writer.string body.name ++ Writer.string body.summary ++
    writeStringList body.tags ++ writeStringList body.entryRelays ++
    Writer.bool body.discoverable ++ Pow.write body.pow ++
    if body.invite.isEmpty then [] else Writer.string body.invite

/-- Records from before invite links end after the proof of work. -/
def readInvite : Reader String := do
  if (← Reader.remaining) > 0 then
    Reader.string
  else
    return ""

def read : Reader ServerRegister := do
  let serverRoot ← Reader.fixed 32
  let name ← Reader.string
  let summary ← Reader.string
  let tags ← readStringList
  let entryRelays ← readStringList
  let discoverable ← Reader.bool
  let pow ← Pow.read
  let invite ← readInvite
  return { serverRoot, name, summary, tags, entryRelays, discoverable, invite, pow }

def decode (bytes : Bytes) : Except WireError ServerRegister := Reader.decodeAll read bytes

theorem validate_eq_ok {body : ServerRegister} : body.validate = .ok () ↔
    body.name.utf8ByteSize ≤ nameMax ∧ body.summary.utf8ByteSize ≤ summaryMax ∧
      body.tags.length ≤ tagsMax ∧ (∀ tag ∈ body.tags, tag.utf8ByteSize ≤ tagLenMax) ∧
      body.entryRelays.length ≤ relaysMax ∧
      (∀ relay ∈ body.entryRelays, relay.utf8ByteSize ≤ relayLenMax) ∧
      body.invite.utf8ByteSize ≤ inviteMax := by
  unfold validate
  split
  · rename_i h
    exact ⟨fun _ => h, fun _ => rfl⟩
  · rename_i h
    exact ⟨fun hok => (nomatch hok), fun hall => absurd hall h⟩

theorem reads_stringList {strings : List String} (hlen : strings.length < 2 ^ 32)
    (hsizes : ∀ s ∈ strings, s.utf8ByteSize < 2 ^ 32) :
    Parser.Reads readStringList (writeStringList strings) strings := by
  have hpos (s : String) : 0 < (Writer.string s).length := by
    simp [Writer.string, Writer.bytes, Writer.u32]
  rw [readStringList_eq, writeStringList, ← List.flatMap_def]
  exact (Reader.codec_list Reader.codec_string hpos).reads ⟨hlen, hsizes⟩

structure Fits (body : ServerRegister) : Prop where
  name : body.name.utf8ByteSize < 2 ^ 32
  summary : body.summary.utf8ByteSize < 2 ^ 32
  tags : body.tags.length < 2 ^ 32
  tag : ∀ tag ∈ body.tags, tag.utf8ByteSize < 2 ^ 32
  entryRelays : body.entryRelays.length < 2 ^ 32
  relay : ∀ relay ∈ body.entryRelays, relay.utf8ByteSize < 2 ^ 32
  invite : body.invite.utf8ByteSize < 2 ^ 32

/-- The invite is the last field, and nothing stands for an empty one. -/
theorem run_readInvite {invite : String} (hlen : invite.utf8ByteSize < 2 ^ 32) :
    readInvite.run (if invite.isEmpty then [] else Writer.string invite) = .ok (invite, []) := by
  split
  · rename_i hempty
    rw [String.isEmpty_iff.mp hempty]
    rfl
  · have hread : Reader.string.run (Writer.string invite) = .ok (invite, []) := by
      simpa using Reader.codec_string.reads hlen []
    have hremaining : Reader.remaining.run (Writer.string invite) =
        .ok ((Writer.string invite).length, Writer.string invite) := rfl
    have hpos : (Writer.string invite).length > 0 := by
      simp [Writer.string, Writer.bytes, Writer.u32]
    rw [readInvite, Parser.run_bind_of_ok hremaining, if_pos hpos]
    exact hread

theorem decode_encode {body : ServerRegister} (h : body.Fits) :
    decode body.encode = .ok body := by
  rw [decode, Reader.decodeAll_eq_ok, read, encode]
  simp only [List.append_assoc]
  rw [Parser.run_bind_of_ok (Reader.reads_fixed body.serverRoot _),
    Parser.run_bind_of_ok (Reader.codec_string.reads h.name _),
    Parser.run_bind_of_ok (Reader.codec_string.reads h.summary _),
    Parser.run_bind_of_ok (reads_stringList h.tags h.tag _),
    Parser.run_bind_of_ok (reads_stringList h.entryRelays h.relay _),
    Parser.run_bind_of_ok (Reader.reads_bool body.discoverable _),
    Parser.run_bind_of_ok (Pow.reads_write body.pow _),
    Parser.run_bind_of_ok (run_readInvite h.invite)]
  rfl

end ServerRegister

structure ServerDelist where
  serverRoot : Key
  deriving DecidableEq

namespace ServerDelist

def encode (body : ServerDelist) : Bytes := Writer.fixed body.serverRoot

def read : Reader ServerDelist := do
  return { serverRoot := ← Reader.fixed 32 }

def decode (bytes : Bytes) : Except WireError ServerDelist := Reader.decodeAll read bytes

end ServerDelist

/-- The all-zero author of a record that a node wrote itself. -/
def nullAuthor : Key := .fill 32 0

structure Tombstone where
  /-- The first key of the evaporated identity. -/
  subject : Key
  evaporatedMs : UInt64
  deriving DecidableEq

namespace Tombstone

def encode (body : Tombstone) : Bytes :=
  Writer.fixed body.subject ++ Writer.u64 body.evaporatedMs

def toRecord (body : Tombstone) : Record where
  v := recordVersion
  kind := .tombstone
  body := body.encode
  author := nullAuthor
  createdMs := body.evaporatedMs
  sig := .fill 64 0

/-- A tombstone record tells whom it evaporates. -/
theorem toRecord_injective {left right : Tombstone} (heq : left.toRecord = right.toRecord) :
    left = right := by
  have hbody : left.encode = right.encode := congrArg Record.body heq
  have hcreated : left.evaporatedMs = right.evaporatedMs := congrArg Record.createdMs heq
  obtain ⟨hsubject, -⟩ := ByteArr.append_injective hbody
  cases left
  cases right
  simp_all

end Tombstone

end Dante.Ledger
