import Dante.Core.Channels
import Dante.Core.InviteToken
import Dante.Core.Messenger

/-!
The host of a server: invitations, redeemed links, removals, kicks and role changes. A membership
change is three writes at three places: the host's MLS group, the roster at the relay and the commit
in the channel's log. Each call to the relay may fail, and then the writes before it stay.
-/

namespace Dante.Core

open Crypto Dm

structure Handshake where
  commit : Bytes
  welcome : Option Bytes

structure Groups extends Mls where
  /-- Identity and key of a key package whose binding verifies. -/
  keyPackageIdentity : Member → Bytes → Except String (Bytes × Key)
  add : Member → Bytes → Except String Handshake × Member
  remove : Member → UInt32 → Except String Handshake × Member

inductive HostError where
  | unknownChannel
  | notServerHost
  | channel (reason : String)
  | voice (reason : String)
  | invite (error : InviteError)
  | net
  deriving DecidableEq

/-- How a call to the relay ends: it is done, done but the answer is lost, or not done. -/
inductive Reply where
  | done
  | unheard
  | failed
  deriving DecidableEq

def Reply.effective : Reply → Bool
  | done | unheard => true
  | failed => false

def Reply.result : Reply → Except HostError Unit
  | done => .ok ()
  | unheard | failed => .error .net

structure HostedServer where
  channels : List ChannelId
  joinPwHash : Option Hash
  banned : Finset Hash

/-- A leaf that the host has taken out of a group, and the commit that says so. -/
structure Removal where
  channelId : ChannelId
  member : Hash
  leaf : UInt32
  commit : Bytes
  deriving DecidableEq

structure Hosting (G : Groups) where
  me : Hash
  ledger : Ledger
  hosted : AssocMap Key HostedServer
  serverPolicies : AssocMap Key ServerPolicy
  channels : AssocMap ChannelId (ChannelSession G.toMls)
  channelRosterVersion : AssocMap ChannelId UInt64
  invitesSent : Finset (ChannelId × Hash)
  inviteUses : AssocMap (ByteArr 8) UInt32
  /-- The last roster that the relay has accepted for each channel, with its version. -/
  rosters : AssocMap ChannelId (UInt64 × Finset Hash)
  logs : AssocMap ChannelId (List Bytes)
  /-- A record of all removals; no function reads it. -/
  removals : List Removal

/-- The relay's part in adding a member: the key package (`none` is a failed call), the
roster, the commit, and the direct message with the Welcome. -/
structure AddCalls where
  keyPackage : Option (Option Bytes)
  roster : Reply
  /-- The nonce of the commit's outer layer. -/
  nonce : ByteArr 24
  post : Reply
  welcome : Reply

structure RemoveCalls where
  roster : Reply
  nonce : ByteArr 24
  post : Reply

/-- The leaf index of `member` in the group, the first one if there are several. -/
def ChannelSession.leafOf {M : Mls} (ch : ChannelSession M) (member : Hash) : Option UInt32 :=
  ((M.members ch.mls).find? fun row => row.2 = member.toList).map Prod.fst

def frameCommit : UInt8 := 2

/-- A frame of the log, under the outer key if the channel has one. -/
def wrapChannelFrame (P : Primitives) (logKey : Option Key) (channelId : ChannelId) (tag : UInt8)
    (payload : Bytes) (nonce : ByteArr 24) : Bytes :=
  match logKey with
  | some key => nonce.toList ++ P.xchachaSeal key nonce (tag :: payload) channelId.toList
  | none => tag :: payload

/-- The proof a joiner presents to a server with a password. -/
def joinPwHash (S : Suite) (serverRoot : Key) (pw : String) : Hash :=
  S.sha256 ("dante/join-pw/v1".toUTF8.toList ++ serverRoot.toList ++ pw.toUTF8.toList)

namespace Hosting

variable (P : Primitives) (S : Suite) {G : Groups} (h : Hosting G)

def withSession (channelId : ChannelId) (ch : ChannelSession G.toMls) : Hosting G :=
  { h with channels := h.channels.insert channelId ch }

def hosts (serverRoot : Key) : Bool := (h.hosted.lookup serverRoot).isSome

def isBanned (serverRoot : Key) (member : Hash) : Bool :=
  (h.hosted.lookup serverRoot).any fun server => member ∈ server.banned

def pushChannelRoster (channelId : ChannelId) (nowMs : UInt64) (reply : Reply) :
    Except HostError Unit × Hosting G :=
  match h.channels.lookup channelId with
  | none => (.ok (), h)
  | some ch =>
    if h.hosts ch.info.serverRoot then
      let last := (h.channelRosterVersion.lookup channelId).getD 0
      let version := max nowMs (last + 1)
      (reply.result,
        { h with
          channelRosterVersion := h.channelRosterVersion.insert channelId version
          rosters :=
            if reply.effective then h.rosters.insert channelId (version, ch.roster)
            else h.rosters })
    else (.ok (), h)

def log (channelId : ChannelId) : List Bytes := (h.logs.lookup channelId).getD []

def postChannelFrame (channelId : ChannelId) (frame : Bytes) (reply : Reply) :
    Except HostError Unit × Hosting G :=
  (reply.result,
    { h with
      logs :=
        if reply.effective then h.logs.insert channelId (h.log channelId ++ [frame]) else h.logs })

section Members

/-- The fetched key package belongs to the identity it was fetched for. -/
def keyPackageBindsTo (mls : G.Member) (kp : Bytes) (peerId : Hash) : Bool :=
  match G.keyPackageIdentity mls kp with
  | .error _ => false
  | .ok (identity, idkPub) =>
    identity = peerId.toList ∧ h.ledger.chainUsableForId peerId = some true ∧
      h.ledger.identityId S idkPub = some peerId

/-- The session and the key package with which `mls_add_member` goes to the group. -/
def checkAdd (channelId : ChannelId) (peerId : Hash) (keyPackage : Option (Option Bytes)) :
    Except HostError (ChannelSession G.toMls × Bytes) := do
  let ch ← Except.okOr (h.channels.lookup channelId) .unknownChannel
  Except.refuseIf (h.isBanned ch.info.serverRoot peerId)
    (.channel "that identity is banned from this server")
  let found ← Except.okOr keyPackage .net
  let kp ← Except.okOr found (.channel
    "that identity has no published MLS KeyPackage — they must connect first")
  Except.refuseIf (h.keyPackageBindsTo S ch.mls kp peerId = false) (.channel
    "fetched KeyPackage's credential doesn't carry a valid DaNTe binding for the identity it was fetched for")
  return (ch, kp)

/-- Publishes a commit that the group has already merged. A lost roster is made good by the
next one. -/
def publishAdd (channelId : ChannelId) (logKey : Option Key) (commit : Bytes) (nowMs : UInt64)
    (calls : AddCalls) : Except HostError Unit × Hosting G :=
  let pushed := (h.pushChannelRoster channelId nowMs calls.roster).2
  let frame := wrapChannelFrame P logKey channelId frameCommit commit calls.nonce
  match pushed.postChannelFrame channelId frame calls.post with
  | (.error e, posted) => (.error e, posted)
  -- the policy and the history that follow the Welcome are sent without regard to errors
  | (.ok (), posted) => (calls.welcome.result, posted)

def mlsAddMember (channelId : ChannelId) (peerId : Hash) (nowMs : UInt64) (calls : AddCalls) :
    Except HostError Unit × Hosting G :=
  match h.checkAdd S channelId peerId calls.keyPackage with
  | .error e => (.error e, h)
  | .ok (ch, kp) =>
    match G.add ch.mls kp with
    | (.error e, mls) => (.error (.voice ("mls: " ++ e)), h.withSession channelId { ch with mls })
    | (.ok handshake, mls) =>
      match handshake.welcome with
      | none =>
        (.error (.voice "MLS add produced no Welcome"), h.withSession channelId { ch with mls })
      | some _ =>
        (h.withSession channelId { ch with mls }.resyncRoster).publishAdd P channelId ch.logKey
          handshake.commit nowMs calls

/-- The session and the leaf of a removal; no leaf if the member is already gone. -/
def checkRemoval (channelId : ChannelId) (member : Hash) :
    Except HostError (ChannelSession G.toMls × Option UInt32) := do
  Except.refuseIf (member = h.me) (.channel "cannot remove yourself")
  let ch ← Except.okOr (h.channels.lookup channelId) .unknownChannel
  Except.refuseIf (h.hosts ch.info.serverRoot = false) .notServerHost
  return (ch, ch.leafOf member)

/-- Publishes a removal that the group has already merged: the roster first, and the commit
only if that went well. -/
def publishRemoval (channelId : ChannelId) (logKey : Option Key) (commit : Bytes) (nowMs : UInt64)
    (calls : RemoveCalls) : Except HostError Unit × Hosting G :=
  match h.pushChannelRoster channelId nowMs calls.roster with
  | (.error e, pushed) => (.error e, pushed)
  | (.ok (), pushed) =>
    pushed.postChannelFrame channelId
      (wrapChannelFrame P logKey channelId frameCommit commit calls.nonce) calls.post

def removeFromChannel (channelId : ChannelId) (member : Hash) (nowMs : UInt64)
    (calls : RemoveCalls) : Except HostError Unit × Hosting G :=
  match h.checkRemoval channelId member with
  | .error e => (.error e, h)
  | .ok (_, none) => (.ok (), h)
  | .ok (ch, some leaf) =>
    match G.remove ch.mls leaf with
    | (.error e, mls) => (.error (.voice ("mls: " ++ e)), h.withSession channelId { ch with mls })
    | (.ok handshake, mls) =>
      let ch' := { ch with mls, removed := ch.removed.insert member nowMs }.resyncRoster
      let removal : Removal := ⟨channelId, member, leaf, handshake.commit⟩
      let merged : Hosting G :=
        { h.withSession channelId ch' with removals := h.removals ++ [removal] }
      merged.publishRemoval P channelId ch.logKey handshake.commit nowMs calls

end Members

section Server

def setBanned (serverRoot : Key) (change : Finset Hash → Finset Hash) : Hosting G :=
  match h.hosted.lookup serverRoot with
  | some server =>
    { h with hosted := h.hosted.insert serverRoot { server with banned := change server.banned } }
  | none => h

/-- Removes the member from those of the channels whose roster it is in. -/
def removeFromEach (channels : List ChannelId) (member : Hash) (nowMs : UInt64)
    (calls : ChannelId → RemoveCalls) : Hosting G :=
  channels.foldl (fun h channelId =>
    if (h.channels.lookup channelId).any fun ch => member ∈ ch.roster then
      (h.removeFromChannel P channelId member nowMs (calls channelId)).2
    else h) h

def kickFromServer (serverRoot : Key) (member : Hash) (ban : Bool) (nowMs : UInt64)
    (calls : ChannelId → RemoveCalls) : Except HostError Unit × Hosting G :=
  match h.hosted.lookup serverRoot with
  | none => (.error .notServerHost, h)
  | some server =>
    if member = h.me then (.error (.channel "cannot remove yourself"), h)
    else
      let kicked := h.removeFromEach P server.channels member nowMs calls
      (.ok (), if ban then kicked.setBanned serverRoot (insert member) else kicked)

def memberPerms (serverRoot : Key) (member : Hash) : UInt32 :=
  ((h.serverPolicies.lookup serverRoot).map fun policy => policy.effectivePerms member).getD
    permDefault

/-- `commit_policy`: every change of the roles ends here, and fails for a role whose icon is
no emoji of the server. -/
def commitPolicy (serverRoot : Key) (iconsValid : Bool) (change : ServerPolicy → Option ServerPolicy) :
    Hosting G :=
  match h.hosts serverRoot, h.serverPolicies.lookup serverRoot with
  | true, some policy =>
    match change policy with
    | some changed =>
      if iconsValid then
        { h with serverPolicies := h.serverPolicies.insert serverRoot changed }
      else h
    | none => h
  | _, _ => h

end Server

section Messages

/-- `invite_to_channel`; the offer itself is a direct message. -/
def inviteToChannel (channelId : ChannelId) (peerId : Hash) : Except HostError (Hosting G) := do
  let ch ← Except.okOr (h.channels.lookup channelId) .unknownChannel
  Except.refuseIf (h.hosts ch.info.serverRoot = false) .notServerHost
  return { h with invitesSent := insert (channelId, peerId) h.invitesSent }

def markPresent (channelId : ChannelId) (member : Hash) : Hosting G :=
  match h.channels.lookup channelId with
  | some ch => h.withSession channelId { ch with removed := ch.removed.erase member }
  | none => h

def inviteAccept (sender : Key) (channelId : ChannelId) (nowMs : UInt64) (calls : AddCalls) :
    Hosting G :=
  let member := idkToId S sender
  if (channelId, member) ∈ h.invitesSent then
    let answered : Hosting G := { h with invitesSent := h.invitesSent.erase (channelId, member) }
    match answered.mlsAddMember P S channelId member nowMs calls with
    | (.ok (), added) => added.markPresent channelId member
    | (.error _, added) => added
  else h

def inviteDecline (sender : Key) (channelId : ChannelId) : Hosting G :=
  { h with invitesSent := h.invitesSent.erase (channelId, idkToId S sender) }

def uses (nonce : ByteArr 8) : UInt32 := (h.inviteUses.lookup nonce).getD 0

/-- The checks of `Redeem` on a token that verifies: the identity to add, or nothing if the
message is passed over. -/
def redeemer (token : InviteToken) (sender : Key) (pw : String) (nowMs : UInt64) : Option Hash := do
  guard (token.isExpired nowMs = false ∧ token.hostId = h.me)
  let ch ← h.channels.lookup token.channelId
  guard (ch.info.serverRoot = token.serverRoot)
  let server ← h.hosted.lookup token.serverRoot
  guard (server.joinPwHash.all fun want => joinPwHash S token.serverRoot pw = want)
  guard (token.maxUses = 0 ∨ h.uses token.nonce < token.maxUses)
  let key ← (SignPublic.fromBytes S sender).toOption
  return S.sha256 key.toBytes.toList

/-- The use is counted first, and then the redeemer is added. -/
def admitRedeemer (token : InviteToken) (member : Hash) (nowMs : UInt64) (calls : AddCalls) :
    Except HostError Unit × Hosting G :=
  let counted : Hosting G :=
    { h with inviteUses := h.inviteUses.insert token.nonce (h.uses token.nonce + 1) }
  match counted.mlsAddMember P S token.channelId member nowMs calls with
  | (.error e, added) => (.error e, added)
  | (.ok (), added) => (.ok (), added.markPresent token.channelId member)

def redeem (sender : Key) (blob : Bytes) (pw : String) (nowMs : UInt64) (calls : AddCalls) :
    Except HostError Unit × Hosting G :=
  match InviteToken.decode blob with
  | .error e => (.error (.invite (.wire e)), h)
  | .ok token =>
    match token.verify S with
    | .error e => (.error (.invite e), h)
    | .ok () =>
      match h.redeemer S token sender pw nowMs with
      | none => (.ok (), h)
      | some member => h.admitRedeemer P S token member nowMs calls

/-- The server whose members a `KickRequest` moves the host to remove, if the sender may. -/
def kickTarget (sender : Key) (channelId : ChannelId) (member : Hash) (ban : Bool) :
    Option Key := do
  let ch ← h.channels.lookup channelId
  let serverRoot := ch.info.serverRoot
  guard (h.hosts serverRoot)
  let key ← (SignPublic.fromBytes S sender).toOption
  let requester := S.sha256 key.toBytes.toList
  let owner := (h.serverPolicies.lookup serverRoot).map ServerPolicy.ownerId
  let targetIsStaff := h.memberPerms serverRoot member &&& (permKick ||| permManageRoles) ≠ 0
  guard (some member ≠ owner)
  let required := if ban then permBan else permKick
  guard (h.memberPerms serverRoot requester &&& required ≠ 0 ∧
    (owner = some requester ∨ ¬ targetIsStaff))
  return serverRoot

def kickRequest (sender : Key) (channelId : ChannelId) (member : Hash) (ban : Bool)
    (nowMs : UInt64) (calls : ChannelId → RemoveCalls) : Except HostError Unit × Hosting G :=
  match h.kickTarget S sender channelId member ban with
  | none => (.ok (), h)
  | some serverRoot => h.kickFromServer P serverRoot member ban nowMs calls

/-- The identity that a `Leave` takes out of the channel. -/
def leaver (sender : Key) (channelId : ChannelId) : Option Hash := do
  let ch ← h.channels.lookup channelId
  let key ← (SignPublic.fromBytes S sender).toOption
  let member := S.sha256 key.toBytes.toList
  guard (h.hosts ch.info.serverRoot = true ∧ member ≠ h.me ∧ member ∈ ch.roster)
  return member

def leave (sender : Key) (channelId : ChannelId) (nowMs : UInt64) (calls : RemoveCalls) :
    Except HostError Unit × Hosting G :=
  match h.leaver S sender channelId with
  | none => (.ok (), h)
  | some member => h.removeFromChannel P channelId member nowMs calls

end Messages

end Hosting

/-- What a host does, and what it is sent. A sweep of inactive members is a list of
removals. -/
inductive HostOp where
  | invite (channelId : ChannelId) (peerId : Hash)
  | inviteAccept (sender : Key) (channelId : ChannelId) (nowMs : UInt64) (calls : AddCalls)
  | inviteDecline (sender : Key) (channelId : ChannelId)
  | redeem (sender : Key) (blob : Bytes) (pw : String) (nowMs : UInt64) (calls : AddCalls)
  | remove (channelId : ChannelId) (member : Hash) (nowMs : UInt64) (calls : RemoveCalls)
  | kick (serverRoot : Key) (member : Hash) (ban : Bool) (nowMs : UInt64)
      (calls : ChannelId → RemoveCalls)
  | kickRequest (sender : Key) (channelId : ChannelId) (member : Hash) (ban : Bool)
      (nowMs : UInt64) (calls : ChannelId → RemoveCalls)
  | leave (sender : Key) (channelId : ChannelId) (nowMs : UInt64) (calls : RemoveCalls)
  | unban (serverRoot : Key) (member : Hash)
  | setRole (serverRoot : Key) (iconsValid : Bool) (id : Option UInt16) (allow deny : UInt32)
  | deleteRole (serverRoot : Key) (iconsValid : Bool) (roleId : UInt16)
  | assignRole (serverRoot : Key) (iconsValid : Bool) (member : Hash) (roleId : UInt16)
      (add : Bool)

namespace Hosting

variable (P : Primitives) (S : Suite) {G : Groups}

def step (h : Hosting G) : HostOp → Hosting G
  | .invite channelId peerId => (h.inviteToChannel channelId peerId).toOption.getD h
  | .inviteAccept sender channelId nowMs calls => h.inviteAccept P S sender channelId nowMs calls
  | .inviteDecline sender channelId => h.inviteDecline S sender channelId
  | .redeem sender blob pw nowMs calls => (h.redeem P S sender blob pw nowMs calls).2
  | .remove channelId member nowMs calls => (h.removeFromChannel P channelId member nowMs calls).2
  | .kick serverRoot member ban nowMs calls =>
    (h.kickFromServer P serverRoot member ban nowMs calls).2
  | .kickRequest sender channelId member ban nowMs calls =>
    (h.kickRequest P S sender channelId member ban nowMs calls).2
  | .leave sender channelId nowMs calls => (h.leave P S sender channelId nowMs calls).2
  | .unban serverRoot member => h.setBanned serverRoot fun banned => banned.erase member
  | .setRole serverRoot iconsValid id allow deny =>
    h.commitPolicy serverRoot iconsValid fun policy => some (policy.setRole id allow deny)
  | .deleteRole serverRoot iconsValid roleId =>
    h.commitPolicy serverRoot iconsValid fun policy => some (policy.deleteRole roleId)
  | .assignRole serverRoot iconsValid member roleId add =>
    h.commitPolicy serverRoot iconsValid fun policy => policy.assignRole member roleId add

end Hosting

end Dante.Core
