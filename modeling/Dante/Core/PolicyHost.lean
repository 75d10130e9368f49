import Dante.Core.Policy
import Dante.Library.AssocMap
import Dante.Library.Keyed
import Dante.Library.Run

/-!
How a host edits the policies of its servers. Every edit takes a draft of the stored
policy, changes it and commits it: the result is signed at the next version and stored.
Sending it to the members comes after that and cannot fail the call.
-/

namespace Dante.Core.Policy

open Crypto Enc Except

namespace ServerPolicy

def roleIds (policy : ServerPolicy) : List UInt16 := policy.roles.map fun role => role.id

/-- The id of a role that is created without one: one more than the greatest. -/
def nextRoleId (policy : ServerPolicy) : UInt16 := policy.roleIds.max?.getD 0 + 1

def setRole (policy : ServerPolicy) (role : Role) : ServerPolicy :=
  { policy with
    roles := Keyed.upsert (fun other => other.id) role.id (fun _ => role) role policy.roles }

def deleteRole (policy : ServerPolicy) (roleId : UInt16) : ServerPolicy :=
  { policy with
    roles := policy.roles.filter fun role => role.id ≠ roleId
    assignments := Core.ServerPolicy.assigned
      (policy.assignments.map fun row => (row.1, row.2.filter fun id => id ≠ roleId)) }

def assignRole (policy : ServerPolicy) (member : Hash) (roleId : UInt16) (add : Bool) :
    ServerPolicy :=
  { policy with
    assignments := Core.ServerPolicy.assigned <|
      if add then
        Keyed.upsert Prod.fst member
          (fun row => (row.1, if roleId ∈ row.2 then row.2 else row.2 ++ [roleId]))
          (member, [roleId]) policy.assignments
      else
        Keyed.update Prod.fst member (fun row => (row.1, row.2.filter fun id => id ≠ roleId))
          policy.assignments }

end ServerPolicy

def putNamed (entries : List (String × Hash)) (name : String) (hash : Hash) :
    List (String × Hash) :=
  Keyed.upsert Prod.fst name (fun entry => (entry.1, hash)) (name, hash) entries

def removeNamed (entries : List (String × Hash)) (name : String) : List (String × Hash) :=
  entries.filter fun entry => entry.1 ≠ name

def hasName (entries : List (String × Hash)) (name : String) : Bool :=
  entries.any fun entry => entry.1 = name

def isPng (image : Bytes) : Bool :=
  [0x89, 0x50, 0x4e, 0x47, 0x0d, 0x0a, 0x1a, 0x0a].isPrefixOf image

def isJpeg (image : Bytes) : Bool := [0xff, 0xd8, 0xff].isPrefixOf image

def isGif (image : Bytes) : Bool :=
  "GIF87a".toUTF8.toList.isPrefixOf image || "GIF89a".toUTF8.toList.isPrefixOf image

def isRiff (form : String) (file : Bytes) : Bool :=
  file.length > 12 && file.take 4 = "RIFF".toUTF8.toList &&
    (file.drop 8).take 4 = form.toUTF8.toList

def isWebp (image : Bytes) : Bool := isRiff "WEBP" image

def isOgg (audio : Bytes) : Bool := "OggS".toUTF8.toList.isPrefixOf audio

def isWav (audio : Bytes) : Bool := isRiff "WAVE" audio

def isMp3 (audio : Bytes) : Bool :=
  "ID3".toUTF8.toList.isPrefixOf audio || [0xff, 0xfb].isPrefixOf audio ||
    [0xff, 0xf3].isPrefixOf audio || [0xff, 0xf2].isPrefixOf audio

structure Host (S : Suite) where
  me : Hash
  /-- The root keys of the servers that this client hosts. -/
  hosted : AssocMap Key (SignSecret S)
  serverPolicies : AssocMap Key ServerPolicy

namespace Host

variable {S : Suite} (h : Host S)

def new (me : Hash) : Host S := { me := me, hosted := ∅, serverPolicies := ∅ }

/-- `create_server` with a root key that was generated; `sent` is whether the relay took the
record. -/
def createServer (root : SignSecret S) (sent : Bool) (nowMs : UInt64) :
    Except PolicyError (Host S) := do
  refuseIf (sent = false) .net
  return { h with
    serverPolicies := h.serverPolicies.insert root.publicBytes
      (ServerPolicy.genesis root h.me nowMs)
    hosted := h.hosted.insert root.publicBytes root }

def policyDraft (serverRoot : Key) : Except PolicyError (ServerPolicy × SignSecret S) := do
  let root ← okOr (h.hosted.lookup serverRoot) .notServerHost
  let policy ← okOr (h.serverPolicies.lookup serverRoot) .notServerHost
  return (policy, root)

def commitPolicy (serverRoot : Key) (root : SignSecret S) (draft : ServerPolicy)
    (nowMs : UInt64) : Except PolicyError (Host S) := do
  refuseIf (iconsValid draft.roles draft.emojis = false)
    (.channel "role icon must name a custom emoji on this server")
  let policy := ServerPolicy.signed root { draft with version := draft.version + 1 } nowMs
  return { h with serverPolicies := h.serverPolicies.insert serverRoot policy }

/-- Returns the role's id. -/
def setRole (serverRoot : Key) (id : Option UInt16) (name : String) (allow deny : UInt32)
    (rank : UInt16) (icon : Option String) (nowMs : UInt64) :
    Except PolicyError (UInt16 × Host S) := do
  let (policy, root) ← h.policyDraft serverRoot
  let id := id.getD policy.nextRoleId
  let h' ← h.commitPolicy serverRoot root
    (policy.setRole { id, name, allow, deny, rank, icon }) nowMs
  return (id, h')

def deleteRole (serverRoot : Key) (roleId : UInt16) (nowMs : UInt64) :
    Except PolicyError (Host S) := do
  let (policy, root) ← h.policyDraft serverRoot
  h.commitPolicy serverRoot root (policy.deleteRole roleId) nowMs

def assignRole (serverRoot : Key) (member : Hash) (roleId : UInt16) (add : Bool)
    (nowMs : UInt64) : Except PolicyError (Host S) := do
  let (policy, root) ← h.policyDraft serverRoot
  refuseIf (add ∧ roleId ∉ policy.roleIds) (.channel "no such role")
  h.commitPolicy serverRoot root (policy.assignRole member roleId add) nowMs

/-- `stored` is whether the relay took the blob, here and below. -/
def setServerEmoji (serverRoot : Key) (name : String) (image : Bytes) (stored : Bool)
    (nowMs : UInt64) : Except PolicyError (Host S) := do
  refuseIf (validEmojiName name = false) (.channel "bad emoji name")
  refuseIf (image = [] ∨ image.length > 1024 * 1024) (.channel "emoji image must be 1..=1024 KiB")
  refuseIf (¬ isPng image ∧ ¬ isJpeg image) (.channel "emoji image must be a PNG or JPEG")
  let (policy, root) ← h.policyDraft serverRoot
  refuseIf (hasName policy.stickers name) (.channel "a sticker already uses that name")
  refuseIf (hasName policy.sounds name) (.channel "a soundboard clip already uses that name")
  refuseIf (¬ hasName policy.emojis name ∧ policy.emojis.length ≥ maxServerEmojis)
    (.channel "server emoji limit reached")
  refuseIf (stored = false) .net
  h.commitPolicy serverRoot root
    { policy with emojis := putNamed policy.emojis name (S.sha256 image) } nowMs

def removeServerEmoji (serverRoot : Key) (name : String) (nowMs : UInt64) :
    Except PolicyError (Host S) := do
  let (policy, root) ← h.policyDraft serverRoot
  let emojis := removeNamed policy.emojis name
  refuseIf (emojis.length = policy.emojis.length) (.channel "no such emoji")
  h.commitPolicy serverRoot root { policy with emojis := emojis } nowMs

/-- Unlike the two others, this one does not look for the name among the sounds. -/
def setServerSticker (serverRoot : Key) (name : String) (image : Bytes) (stored : Bool)
    (nowMs : UInt64) : Except PolicyError (Host S) := do
  refuseIf (validEmojiName name = false) (.channel "bad sticker name")
  refuseIf (image = [] ∨ image.length > 512 * 1024) (.channel "sticker image must be 1..=512 KiB")
  refuseIf (¬ isPng image ∧ ¬ isJpeg image ∧ ¬ isGif image ∧ ¬ isWebp image)
    (.channel "sticker image must be PNG, JPEG, GIF or WebP")
  let (policy, root) ← h.policyDraft serverRoot
  refuseIf (hasName policy.emojis name) (.channel "a custom emoji already uses that name")
  refuseIf (¬ hasName policy.stickers name ∧ policy.stickers.length ≥ maxServerStickers)
    (.channel "server sticker limit reached")
  refuseIf (stored = false) .net
  h.commitPolicy serverRoot root
    { policy with stickers := putNamed policy.stickers name (S.sha256 image) } nowMs

def removeServerSticker (serverRoot : Key) (name : String) (nowMs : UInt64) :
    Except PolicyError (Host S) := do
  let (policy, root) ← h.policyDraft serverRoot
  let stickers := removeNamed policy.stickers name
  refuseIf (stickers.length = policy.stickers.length) (.channel "no such sticker")
  h.commitPolicy serverRoot root { policy with stickers := stickers } nowMs

def setServerSound (serverRoot : Key) (name : String) (audio : Bytes) (stored : Bool)
    (nowMs : UInt64) : Except PolicyError (Host S) := do
  refuseIf (validEmojiName name = false) (.channel "bad sound name")
  refuseIf (audio = [] ∨ audio.length > 256 * 1024) (.channel "sound clip must be 1..=256 KiB")
  refuseIf (¬ isOgg audio ∧ ¬ isWav audio ∧ ¬ isMp3 audio)
    (.channel "sound clip must be OGG, MP3 or WAV")
  let (policy, root) ← h.policyDraft serverRoot
  refuseIf (hasName policy.emojis name ∨ hasName policy.stickers name)
    (.channel "an emoji or sticker already uses that name")
  refuseIf (¬ hasName policy.sounds name ∧ policy.sounds.length ≥ maxServerSounds)
    (.channel "server soundboard limit reached")
  refuseIf (stored = false) .net
  h.commitPolicy serverRoot root
    { policy with sounds := putNamed policy.sounds name (S.sha256 audio) } nowMs

def removeServerSound (serverRoot : Key) (name : String) (nowMs : UInt64) :
    Except PolicyError (Host S) := do
  let (policy, root) ← h.policyDraft serverRoot
  let sounds := removeNamed policy.sounds name
  refuseIf (sounds.length = policy.sounds.length) (.channel "no such sound")
  h.commitPolicy serverRoot root { policy with sounds := sounds } nowMs

/-- `none` clears the nickname. -/
def setMemberNickname (serverRoot : Key) (member : Hash) (nickname : Option String)
    (nowMs : UInt64) : Except PolicyError (Host S) := do
  refuseIf (nickname.any fun name => !validNickname name) (.channel "bad nickname")
  let (policy, root) ← h.policyDraft serverRoot
  let nicknames := match nickname with
    | some name =>
      Keyed.upsert Prod.fst member (fun entry => (entry.1, name)) (member, name) policy.nicknames
    | none => policy.nicknames.filter fun entry => entry.1 ≠ member
  h.commitPolicy serverRoot root { policy with nicknames := nicknames } nowMs

end Host

/-- The edits of one policy, with the arguments of the calls. -/
inductive Edit where
  | setRole (id : Option UInt16) (name : String) (allow deny : UInt32) (rank : UInt16)
      (icon : Option String)
  | deleteRole (roleId : UInt16)
  | assignRole (member : Hash) (roleId : UInt16) (add : Bool)
  | setServerEmoji (name : String) (image : Bytes) (stored : Bool)
  | removeServerEmoji (name : String)
  | setServerSticker (name : String) (image : Bytes) (stored : Bool)
  | removeServerSticker (name : String)
  | setServerSound (name : String) (audio : Bytes) (stored : Bool)
  | removeServerSound (name : String)
  | setMemberNickname (member : Hash) (nickname : Option String)

inductive Op (S : Suite) where
  | createServer (root : SignSecret S) (sent : Bool) (nowMs : UInt64)
  | edit (serverRoot : Key) (edit : Edit) (nowMs : UInt64)

namespace Host

variable {S : Suite} (h : Host S)

def edit (serverRoot : Key) (nowMs : UInt64) : Edit → Except PolicyError (Host S)
  | .setRole id name allow deny rank icon => do
    let (_, h') ← h.setRole serverRoot id name allow deny rank icon nowMs
    return h'
  | .deleteRole roleId => h.deleteRole serverRoot roleId nowMs
  | .assignRole member roleId add => h.assignRole serverRoot member roleId add nowMs
  | .setServerEmoji name image stored => h.setServerEmoji serverRoot name image stored nowMs
  | .removeServerEmoji name => h.removeServerEmoji serverRoot name nowMs
  | .setServerSticker name image stored => h.setServerSticker serverRoot name image stored nowMs
  | .removeServerSticker name => h.removeServerSticker serverRoot name nowMs
  | .setServerSound name audio stored => h.setServerSound serverRoot name audio stored nowMs
  | .removeServerSound name => h.removeServerSound serverRoot name nowMs
  | .setMemberNickname member nickname => h.setMemberNickname serverRoot member nickname nowMs

def call : Op S → Except PolicyError (Host S)
  | .createServer root sent nowMs => h.createServer root sent nowMs
  | .edit serverRoot edit nowMs => h.edit serverRoot nowMs edit

/-- A call that fails changes nothing. -/
def step (op : Op S) : Host S := (h.call op).toOption.getD h

end Host

namespace ServerPolicy

theorem permissions_deleteRole (policy : ServerPolicy) (roleId : UInt16) :
    (policy.deleteRole roleId).permissions = policy.permissions.deleteRole roleId := by
  simp only [permissions, deleteRole, Core.ServerPolicy.deleteRole, List.filter_map]
  rfl

theorem permissions_setRole (policy : ServerPolicy) (id : Option UInt16) (role : Role)
    (hid : role.id = id.getD policy.nextRoleId) :
    (policy.setRole role).permissions = policy.permissions.setRole id role.allow role.deny := by
  have hids : policy.permissions.roles.map Core.Role.id = policy.roleIds := by
    simp only [permissions, roleIds, List.map_map]
    rfl
  have hnext : id.getD (policy.roleIds.max?.getD 0 + 1) = role.id := hid.symm
  unfold Core.ServerPolicy.setRole
  simp only [hids, hnext, setRole, Keyed.upsert_eq_modify]
  simp only [permissions, List.findIdx?_map, Function.comp_def]
  cases policy.roles.findIdx? fun other => other.id = role.id with
  | none => simp
  | some i => simp [← List.set_eq_modify, List.map_set]

theorem permissions_assignRole (policy : ServerPolicy) (member : Hash) (roleId : UInt16)
    (add : Bool) (hrole : add = true → roleId ∈ policy.roleIds) :
    policy.permissions.assignRole member roleId add =
      some (policy.assignRole member roleId add).permissions := by
  have hexists : ¬ (add ∧ policy.permissions.roles.all (fun role => role.id ≠ roleId)) := by
    simpa [permissions, roleIds] using hrole
  unfold Core.ServerPolicy.assignRole
  rw [if_neg hexists]
  simp only [permissions, assignRole, Keyed.upsert_eq_modify, Keyed.update_eq_modify]
  cases policy.assignments.findIdx? fun row => row.1 = member with
  | none => cases add <;> rfl
  | some i => cases add <;> rfl

end ServerPolicy

end Dante.Core.Policy
