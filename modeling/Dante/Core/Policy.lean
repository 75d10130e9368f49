import Dante.Core.Roles
import Dante.Identity.Records

/-!
The policy of a server as its host signs it: roles with names and icons, who has which, the custom
emoji, stickers and sounds, and the nicknames. `permissions` is the part that decides what a member
may do. The body has four optional sections at its end.
-/

namespace Dante.Core.Policy

open Crypto Enc Except

def emojiNameMax : Nat := 32

def maxServerEmojis : Nat := 200

def maxServerStickers : Nat := 100

def maxServerSounds : Nat := 50

def nicknameMax : Nat := 32

/-- `SIG_DOMAIN` -/
def policyDomain : Bytes := "dante/server-policy/v1".toUTF8.toList

def roleIconFlag : UInt32 := (1 : UInt32) <<< 31

def validNickname (name : String) : Bool :=
  !name.isEmpty && name.utf8ByteSize ≤ nicknameMax &&
    name.toList.all fun c => !Identity.isControl c

/-- Lower case letters, digits and the underscore. -/
def shortcodeByte (b : UInt8) : Bool :=
  (97 ≤ b && b ≤ 122) || (48 ≤ b && b ≤ 57) || b = 95

def validEmojiName (name : String) : Bool :=
  !name.isEmpty && name.utf8ByteSize ≤ emojiNameMax && name.toUTF8.toList.all shortcodeByte

structure Role extends Core.Role where
  name : String
  rank : UInt16
  /-- The shortcode of an emoji of the same policy. -/
  icon : Option String
  deriving DecidableEq

structure ServerPolicy where
  serverRoot : Key
  ownerId : Hash
  version : UInt64
  roles : List Role
  /-- The ids of each member's roles. -/
  assignments : List (Hash × List UInt16)
  emojis : List (String × Hash)
  stickers : List (String × Hash)
  sounds : List (String × Hash)
  nicknames : List (Hash × String)
  issuedMs : UInt64
  sig : Signature
  deriving DecidableEq

inductive PolicyError where
  | notServerHost
  | channel (what : String)
  /-- A call to the relay that failed. -/
  | net
  deriving DecidableEq

def Role.write (withIcons : Bool) (role : Role) : Bytes :=
  Writer.u16 role.id ++ Writer.string role.name ++ Writer.u32 role.allow ++
    Writer.u32 role.deny ++ Writer.u16 role.rank ++
    if withIcons then
      match role.icon with
      | some icon => Writer.bool true ++ Writer.string icon
      | none => Writer.bool false
    else []

def readIcon (withIcons : Bool) : Reader (Option String) := do
  if withIcons then
    if ← Reader.bool then return some (← Reader.string)
    else return none
  else return none

def Role.read (withIcons : Bool) : Reader Role := do
  let id ← Reader.u16
  let name ← Reader.string
  let allow ← Reader.u32
  let deny ← Reader.u32
  let rank ← Reader.u16
  let icon ← readIcon withIcons
  return { id, name, allow, deny, rank, icon }

def iconsValid (roles : List Role) (emojis : List (String × Hash)) : Bool :=
  roles.all fun role => role.icon.all fun icon =>
    validEmojiName icon && emojis.any fun entry => entry.1 = icon

def writeAssignment (row : Hash × List UInt16) : Bytes :=
  Writer.fixed row.1 ++ Writer.list Writer.u16 row.2

def writeNamed (entry : String × Hash) : Bytes := Writer.string entry.1 ++ Writer.fixed entry.2

def writeNickname (entry : Hash × String) : Bytes := Writer.fixed entry.1 ++ Writer.string entry.2

/-- A count, bounded by the number of elements of the given size that the rest of the input
has room for. -/
def bounded (minElemBytes : Nat) : Reader Nat := do
  let n := (← Reader.u32).toNat
  if n > (← Reader.remaining) / max minElemBytes 1 then
    throw (.lengthTooLarge (UInt64.ofNat n))
  return n

def counted {α : Type} (minElemBytes : Nat) (item : Reader α) : Reader (List α) := do
  Parser.times item (← bounded minElemBytes)

def readAssignment : Reader (Hash × List UInt16) := do
  let member ← Reader.fixed 32
  let ids ← counted 2 Reader.u16
  return (member, ids)

def minRoleBytes : Nat := 16

def minAssignmentBytes : Nat := 32 + 4

def minNamedEntryBytes : Nat := 4 + 32

/-- An emoji, a sticker or a sound; `what` is the error for a bad name. -/
def readNamed (what : String) : Reader (String × Hash) := do
  let name ← Reader.string
  if !validEmojiName name then
    throw (.invalid what)
  let hash ← Reader.fixed 32
  return (name, hash)

def readNickname : Reader (Hash × String) := do
  let member ← Reader.fixed 32
  let nick ← Reader.string
  if !validNickname nick then
    throw (.invalid "nickname")
  return (member, nick)

/-- A section that older policies do not have: it is empty where the input ends. -/
def readTail {α : Type} (entry : Reader α) : Reader (List α) := do
  if (← Reader.remaining) > 0 then
    counted minNamedEntryBytes entry
  else return []

def readRoles : Reader (List Role) := do
  let raw ← Reader.u32
  let withIcons : Bool := raw &&& roleIconFlag ≠ 0
  let count := (raw &&& ~~~ roleIconFlag).toNat
  if count > (← Reader.remaining) / minRoleBytes then
    throw (.lengthTooLarge (UInt64.ofNat count))
  Parser.times (Role.read withIcons) count

def challenge (S : Suite) (body : Bytes) : Hash := S.sha256 (policyDomain ++ body)

namespace ServerPolicy

def permissions (policy : ServerPolicy) : Core.ServerPolicy where
  ownerId := policy.ownerId
  roles := policy.roles.map Role.toRole
  assignments := policy.assignments

def withIcons (policy : ServerPolicy) : Bool := policy.roles.any fun role => role.icon.isSome

/-- The count of the roles, with the flag in its top bit. -/
def writeRoles (policy : ServerPolicy) : Bytes :=
  let count := UInt32.ofNat policy.roles.length
  Writer.u32 (if policy.withIcons then count ||| roleIconFlag else count) ++
    policy.roles.flatMap (Role.write policy.withIcons)

/-- What the signature covers. A section of the tail is written if it or a later one has an
entry. -/
def body (policy : ServerPolicy) : Bytes :=
  Writer.fixed policy.serverRoot ++ Writer.fixed policy.ownerId ++ Writer.u64 policy.version ++
    Writer.u64 policy.issuedMs ++ policy.writeRoles ++
    Writer.list writeAssignment policy.assignments ++
    (if policy.emojis ≠ [] ∨ policy.stickers ≠ [] ∨ policy.sounds ≠ [] ∨ policy.nicknames ≠ [] then
      Writer.list writeNamed policy.emojis else []) ++
    (if policy.stickers ≠ [] ∨ policy.sounds ≠ [] ∨ policy.nicknames ≠ [] then
      Writer.list writeNamed policy.stickers else []) ++
    (if policy.sounds ≠ [] ∨ policy.nicknames ≠ [] then
      Writer.list writeNamed policy.sounds else []) ++
    (if policy.nicknames ≠ [] then Writer.list writeNickname policy.nicknames else [])

def verify (S : Suite) (policy : ServerPolicy) : Except PolicyError Unit := do
  let key ← (SignPublic.fromBytes S policy.serverRoot).mapError
    fun _ => .channel "bad server key in policy"
  (key.verify (challenge S policy.body).toList policy.sig).mapError
    fun _ => .channel "bad policy signature"

def encode (policy : ServerPolicy) : Bytes := Writer.bytes policy.body ++ Writer.fixed policy.sig

def readBody (sig : Signature) : Reader ServerPolicy := do
  let serverRoot ← Reader.fixed 32
  let ownerId ← Reader.fixed 32
  let version ← Reader.u64
  let issuedMs ← Reader.u64
  let roles ← readRoles
  let assignments ← counted minAssignmentBytes readAssignment
  let emojis ← readTail (readNamed "emoji shortcode")
  if !iconsValid roles emojis then
    throw (.invalid "role icon")
  let stickers ← readTail (readNamed "sticker name")
  let sounds ← readTail (readNamed "sound name")
  let nicknames ← readTail readNickname
  return { serverRoot, ownerId, version, roles, assignments, emojis, stickers, sounds, nicknames,
           issuedMs, sig }

def decode (input : Bytes) : Except WireError ServerPolicy := do
  let outer : Reader (Bytes × Signature) := do
    let body ← Reader.bytes
    let sig ← Reader.fixed 64
    return (body, sig)
  let (body, sig) ← Reader.decodeAll outer input
  Reader.decodeAll (readBody sig) body

variable {S : Suite}

/-- `signed`: the draft under the key `root`, at its own version. -/
def signed (root : SignSecret S) (draft : ServerPolicy) (nowMs : UInt64) : ServerPolicy :=
  let policy := { draft with serverRoot := root.publicBytes, issuedMs := nowMs }
  { policy with sig := root.sign (challenge S policy.body).toList }

def genesis (root : SignSecret S) (ownerId : Hash) (nowMs : UInt64) : ServerPolicy :=
  signed root
    { serverRoot := root.publicBytes, ownerId := ownerId, version := 1, roles := []
      assignments := [], emojis := [], stickers := [], sounds := [], nicknames := []
      issuedMs := nowMs, sig := .fill 64 0 } nowMs

end ServerPolicy

end Dante.Core.Policy
