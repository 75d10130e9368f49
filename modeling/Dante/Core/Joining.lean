import Dante.Core.Hosting

/-!
How a client gets into a channel that another client hosts. The handler of the Welcome looks for a
key package that the Welcome is for and for the members' bindings, and not at what the user has
answered. `answers` is a record of that; no function reads it.
-/

namespace Dante.Core

open Crypto Dm

structure JoinMls extends Mls where
  /-- A key package that was published, with its secrets. -/
  Pending : Type
  /-- The group that a Welcome leads into; a package that the Welcome is not for comes back. -/
  join : Pending → Bytes → Except Pending Member
  /-- Leaf index, identity and key of each member whose credential is consistent. -/
  memberBindings : Member → List (UInt32 × Bytes × Key)
  memberIndices : Member → List UInt32

def mlsKeypkgPool : Nat := 12

def maxPendingInvites : Nat := 256

def inviteNameMax : Nat := 64

structure Guest (M : JoinMls) where
  ledger : Ledger
  channels : AssocMap ChannelId (ChannelSession M.toMls)
  /-- The inviter's key, and the names of channel and server. -/
  invitesReceived : AssocMap ChannelId (Key × String × String)
  mlsPending : List M.Pending
  /-- The channels that the user has answered for, and the id that the answer went to. -/
  answers : List (ChannelId × Hash)

structure WelcomeMessage where
  channelId : ChannelId
  info : ChannelInfo
  welcome : Bytes
  sinceSeq : UInt64
  logKey : Key

/-- `bindings_match_ledger` for all members of a group. -/
def memberBindingsMatchLedger (S : Suite) {M : JoinMls} (L : Ledger) (mls : M.Member) : Bool :=
  (M.memberBindings mls).length = (M.memberIndices mls).length &&
    (M.memberBindings mls).all fun row => ledgerAcceptsBinding S L row.2.1 row.2.2

/-- The loop of `try_join_pending`: the first package that joins a group whose bindings match
is used. One that joins a group whose bindings do not match is lost. -/
def joinFirst (S : Suite) {M : JoinMls} (L : Ledger) (welcome : Bytes) :
    List M.Pending → Option M.Member × List M.Pending
  | [] => (none, [])
  | pending :: rest =>
    match M.join pending welcome with
    | .ok mls =>
      if memberBindingsMatchLedger S L mls then (some mls, rest) else joinFirst S L welcome rest
    | .error pending =>
      let (joined, kept) := joinFirst S L welcome rest
      (joined, pending :: kept)

namespace Guest

variable (S : Suite) {M : JoinMls} (g : Guest M)

def acceptChannelInvite (channelId : ChannelId) (sent : Reply) : Except HostError Unit × Guest M :=
  match g.invitesReceived.lookup channelId with
  | none => (.error (.channel "no pending invite for that channel"), g)
  | some (inviter, _, _) =>
    (sent.result, { g with answers := g.answers ++ [(channelId, idkToId S inviter)] })

def declineChannelInvite (channelId : ChannelId) : Guest M :=
  { g with invitesReceived := g.invitesReceived.erase channelId }

def redeemInvite (token : InviteToken) (nowMs : UInt64) (sent : Reply) :
    Except HostError Unit × Guest M :=
  match token.verify S with
  | .error e => (.error (.invite e), g)
  | .ok _ =>
    if token.isExpired nowMs then (.error (.invite .expired), g)
    else if (g.channels.lookup token.channelId).isSome then (.ok (), g)
    else (sent.result, { g with answers := g.answers ++ [(token.channelId, token.hostId)] })

/-- The `Invite` message: the first one for a channel wins. -/
def invite (sender : Key) (channelId : ChannelId) (channelName serverName : String) : Guest M :=
  if (g.channels.lookup channelId).isSome then g
  else if (g.invitesReceived.lookup channelId).isSome then g
  else if g.invitesReceived.keys.length ≥ maxPendingInvites then g
  else
    { g with
      invitesReceived := g.invitesReceived.insert channelId
        (sender, String.ofList (channelName.toList.take inviteNameMax),
          String.ofList (serverName.toList.take inviteNameMax)) }

def tryJoinPending (welcome : Bytes) : Option M.Member × Guest M :=
  let (joined, kept) := joinFirst S g.ledger welcome g.mlsPending
  (joined, { g with mlsPending := kept })

/-- `refresh_mls_key_package` with a supply of new packages. The loop counts a new package
twice, among the pending ones and among the fresh ones. -/
def refreshMlsKeyPackage (fresh : Nat → M.Pending) (sent : Reply) : Guest M :=
  let count := (mlsKeypkgPool - g.mlsPending.length + 1) / 2
  let pending := g.mlsPending ++ (List.range count).map fresh
  if count > 0 ∧ sent ≠ .done then { g with mlsPending := pending }
  else { g with mlsPending := pending.drop (pending.length - 2 * mlsKeypkgPool) }

/-- The `MlsWelcome` message. Its sender does not matter. -/
def welcome (message : WelcomeMessage) (fresh : Nat → M.Pending) (sent : Reply) : Guest M :=
  let g := { g with invitesReceived := g.invitesReceived.erase message.channelId }
  if (g.channels.lookup message.channelId).isSome then g
  else
    match g.tryJoinPending S message.welcome with
    | (none, g) => g
    | (some mls, g) =>
      let session : ChannelSession M.toMls :=
        { info := message.info
          mls := mls
          roster := ((M.members mls).filterMap fun row => toId row.2).toFinset
          lastSeq := message.sinceSeq
          removed := ∅
          logKey := if message.logKey = .fill 32 0 then none else some message.logKey }
      { g with channels := g.channels.insert message.channelId session }.refreshMlsKeyPackage fresh
        sent

end Guest

/-- What happens to a client that joins channels. The last four stand for the other ways in
which the engine changes this part of its state. -/
inductive GuestOp (M : JoinMls) where
  | accept (channelId : ChannelId) (sent : Reply)
  | decline (channelId : ChannelId)
  | redeem (token : InviteToken) (nowMs : UInt64) (sent : Reply)
  | invite (sender : Key) (channelId : ChannelId) (channelName serverName : String)
  | welcome (sender : Key) (message : WelcomeMessage) (fresh : Nat → M.Pending) (sent : Reply)
  /-- A Welcome into a group call uses up key packages too. -/
  | callWelcome (welcome : Bytes)
  | refresh (fresh : Nat → M.Pending) (sent : Reply)
  /-- The client creates a channel, or one of its channels changes in a poll or by a control
  message. -/
  | put (channelId : ChannelId) (session : ChannelSession M.toMls)
  | drop (channelId : ChannelId)
  | sync (ledger : Ledger)

namespace Guest

variable (S : Suite) {M : JoinMls}

def step (g : Guest M) : GuestOp M → Guest M
  | .accept channelId sent => (g.acceptChannelInvite S channelId sent).2
  | .decline channelId => g.declineChannelInvite channelId
  | .redeem token nowMs sent => (g.redeemInvite S token nowMs sent).2
  | .invite sender channelId channelName serverName =>
    g.invite sender channelId channelName serverName
  | .welcome _ message fresh sent => g.welcome S message fresh sent
  | .callWelcome welcome => (g.tryJoinPending S welcome).2
  | .refresh fresh sent => g.refreshMlsKeyPackage fresh sent
  | .put channelId session => { g with channels := g.channels.insert channelId session }
  | .drop channelId => { g with channels := g.channels.erase channelId }
  | .sync ledger => { g with ledger := ledger }

/-- If the Welcome brings the channel into the table, then the user has answered its sender
for this channel, and the sender is the recorded host. -/
def Consented (g : Guest M) : GuestOp M → Prop
  | .welcome sender message fresh sent =>
    g.channels.lookup message.channelId = none → ∀ session,
      (g.welcome S message fresh sent).channels.lookup message.channelId = some session →
        (message.channelId, idkToId S sender) ∈ g.answers ∧
          session.info.hostId = idkToId S sender
  | _ => True

/-- Whether the Welcome is for one of the client's key packages, with bindings that match. -/
def Joinable (g : Guest M) (welcome : Bytes) : Prop :=
  ∃ pending ∈ g.mlsPending, ∃ mls, M.join pending welcome = .ok mls ∧
    memberBindingsMatchLedger S g.ledger mls = true

/-- A Welcome that can be joined comes from whom the user has answered, and names them as
the host. -/
def Expected (g : Guest M) : GuestOp M → Prop
  | .welcome sender message _ _ =>
    g.channels.lookup message.channelId = none → g.Joinable S message.welcome →
      (message.channelId, idkToId S sender) ∈ g.answers ∧ message.info.hostId = idkToId S sender
  | _ => True

variable {S} {g : Guest M}

theorem refreshMlsKeyPackage_channels (fresh : Nat → M.Pending) (sent : Reply) :
    (g.refreshMlsKeyPackage fresh sent).channels = g.channels := by
  unfold refreshMlsKeyPackage
  dsimp only
  split <;> rfl

theorem isSome_joinFirst (welcome : Bytes) (packages : List M.Pending) :
    (joinFirst S g.ledger welcome packages).1.isSome = true ↔
      ∃ pending ∈ packages, ∃ mls, M.join pending welcome = .ok mls ∧
        memberBindingsMatchLedger S g.ledger mls = true := by
  induction packages with
  | nil => simp [joinFirst]
  | cons pending rest ih =>
    rw [joinFirst]
    cases hjoin : M.join pending welcome with
    | error kept => simpa [hjoin] using ih
    | ok mls =>
      by_cases hmatch : memberBindingsMatchLedger S g.ledger mls = true
      · simp [hmatch, hjoin]
      · simpa [hmatch, hjoin] using ih

theorem joinable_iff {welcome : Bytes} :
    g.Joinable S welcome ↔ ∃ mls, (joinFirst S g.ledger welcome g.mlsPending).1 = some mls := by
  rw [← Option.isSome_iff_exists, isSome_joinFirst]
  rfl

/-- A Welcome for a channel that is not in the table brings it in, with the information that
the message has, exactly if it can be joined. -/
theorem welcome_lookup {message : WelcomeMessage}
    (habsent : g.channels.lookup message.channelId = none) (fresh : Nat → M.Pending) (sent : Reply) :
    ((g.welcome S message fresh sent).channels.lookup message.channelId).map
        (fun session => session.info) =
      (joinFirst S g.ledger message.welcome g.mlsPending).1.map fun _ => message.info := by
  unfold welcome tryJoinPending
  simp only [habsent, Option.isSome_none, Bool.false_eq_true, if_false]
  rcases joinFirst S g.ledger message.welcome g.mlsPending with ⟨joined, kept⟩
  cases joined with
  | none => simp [habsent]
  | some mls =>
    simp only [refreshMlsKeyPackage_channels, AList.lookup_insert]
    rfl

theorem consented_iff (g : Guest M) (op : GuestOp M) : g.Consented S op ↔ g.Expected S op := by
  cases op with
  | welcome sender message fresh sent =>
    refine forall_congr' fun habsent => ?_
    have hlookup := welcome_lookup habsent (S := S) fresh sent
    constructor
    · intro hconsented hjoinable
      obtain ⟨mls, hmls⟩ := joinable_iff.mp hjoinable
      rw [hmls, Option.map_some, Option.map_eq_some_iff] at hlookup
      obtain ⟨session, hsession, hinfo⟩ := hlookup
      obtain ⟨hanswered, hhost⟩ := hconsented session hsession
      exact ⟨hanswered, hinfo ▸ hhost⟩
    · intro hexpected session hsession
      rw [hsession, Option.map_some] at hlookup
      obtain ⟨mls, hmls, hinfo⟩ := Option.map_eq_some_iff.mp hlookup.symm
      obtain ⟨hanswered, hhost⟩ := hexpected (joinable_iff.mpr ⟨mls, hmls⟩)
      exact ⟨hanswered, hinfo ▸ hhost⟩
  | _ => exact Iff.rfl

end Guest

/-- Groups with one member; every key package joins every Welcome. -/
def soloMls : JoinMls where
  Member := Unit
  members _ := []
  processFrom _ _ _ _ := (.ok .ignored, ())
  Pending := Unit
  join _ _ := .ok ()
  memberBindings _ := []
  memberIndices _ := []

/-- A client with one key package, to which nothing has happened yet. -/
def freshGuest : Guest soloMls where
  ledger := .new { identityTtlMs := 0, minAnnouncePowBits := 0, minLivenessPowBits := 0,
                   minPowMCostKib := 0, minPowTCost := 0 }
  channels := ∅
  invitesReceived := ∅
  mlsPending := [()]
  answers := []

/-- A Welcome from a stranger, with another host in its information. -/
def strangersWelcome : GuestOp soloMls :=
  .welcome (.fill 32 7)
    { channelId := .fill 32 1
      info := { serverRoot := .fill 32 2, serverName := "", channelName := "", hostId := .fill 32 3 }
      welcome := []
      sinceSeq := 0
      logKey := .fill 32 0 } (fun _ => ()) .done

end Dante.Core
