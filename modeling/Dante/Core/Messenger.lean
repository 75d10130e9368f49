import Dante.Core.Seen
import Dante.Dm.Content
import Dante.Dm.Session
import Dante.Net.Mailbox
import Dante.Proto.Sealed

/-!
The client's side of direct messages: how a message is packed for a peer, and what
happens to an envelope that a poll returns. The duplicate filter comes first and
records the envelope whatever becomes of it; only then is the envelope opened and its
packet decrypted with the session of the sender.
-/

namespace Dante.Core

open Crypto Dm Enc Except Method Net

inductive CoreError where
  | blocked
  | unknownPeer
  | noPrekeys
  | badPeerPrekeys
  | noSession
  | dm (error : DmError)
  | crypto (error : CryptoError)
  | net (error : NetError)
  deriving DecidableEq

def prekeyPoolTarget : Nat := 50

/-- What the ledger knows of a peer: `idk_for_id` and `agreement_key`. -/
structure Peer where
  idk : Key
  ik : Key

/-- The secrets that `generate` returns while a message is sent: for the handshake, for
the ratchet and for the envelope. -/
structure SendSecrets where
  ek : Key
  dhs : Key
  eph : Key

structure Client (S : Suite) where
  identity : Identity S
  prekeys : PreKeySecrets
  sessions : AssocMap Key Session
  blocked : Finset Hash
  seen : SeenEnvelopes

/-- What became of an envelope that a poll returned. -/
inductive Receipt where
  | duplicate
  | unopened
  | malformed
  | blocked
  | undecryptable (sender : Key) (error : CoreError)
  | decrypted (sender : Key) (plaintext : Bytes)
  deriving DecidableEq

def Receipt.processed : Receipt → Bool
  | undecryptable _ _ | decrypted _ _ => true
  | _ => false

/-- The id of a sender; bytes that are no key stand for themselves. -/
def idkToId (S : Suite) (idk : Key) : Hash :=
  if S.validKey idk then S.sha256 idk.toList else idk

def envelopeTag (S : Suite) (env : Envelope) : Hash := S.sha256 env.encode

namespace Client

variable (P : Primitives) {S : Suite}
variable {client client' : Client S} {secrets : SendSecrets} {plaintext : Bytes} {env : Envelope}
    {peerId : Hash}

/-- The packet for a peer: a message of the session, or the first contact. -/
def preparePacket (peerId : Hash) (peer : Peer) (bundle : Except CoreError PreKeyBundle)
    (plaintext : Bytes) (secrets : SendSecrets) : Method (Client S) CoreError Packet := do
  let client ← get
  match client.sessions.lookup peer.idk with
  | some session =>
    let (result, session) := (Session.encrypt P plaintext).call session
    set { client with sessions := client.sessions.insert peer.idk session }
    return .message (← lift (result.mapError .dm))
  | none =>
    let bundle ← lift bundle
    lift (refuseIf (bundle.idkPub ≠ peer.idk ∨ bundle.identityId ≠ peerId) .badPeerPrekeys)
    lift (refuseIf (bundle.ikPub ≠ peer.ik) .badPeerPrekeys)
    lift ((bundle.verify S).mapError fun _ => .badPeerPrekeys)
    let (session, init) ← lift
      ((Session.initiate P client.identity bundle plaintext secrets.ek secrets.dhs).mapError .dm)
    set { client with sessions := client.sessions.insert peer.idk session }
    return .init init

/-- `send_content`: what the ledger, the prekey directory and the relay answer are
arguments. The history of the conversation is kept apart. -/
def sendContent (ledger : Hash → Option Peer)
    (fetchPrekeyBundle : Hash → Except CoreError PreKeyBundle)
    (deposit : Envelope → Except NetError Unit) (peerId : Hash) (content : Content)
    (nowMs : UInt64) (ttlMs : UInt32) (secrets : SendSecrets) :
    Method (Client S) CoreError Envelope := do
  let client ← get
  lift (refuseIf (peerId ∈ client.blocked ∧ content.isConversation = true) .blocked)
  let peer ← lift (okOr (ledger peerId) .unknownPeer)
  let packet ← preparePacket P peerId peer (fetchPrekeyBundle peerId) content.encode secrets
  let env ← lift ((Envelope.sealWith P S peerId peer.ik client.identity.idk packet.encode nowMs
    ttlMs client.identity.sign secrets.eph).mapError .crypto)
  lift ((deposit env).mapError .net)
  return env

/-- `decrypt_packet`, with the secret that the ratchet draws if it needs one. -/
def decryptPacket (sender : Key) (packet : Packet) (fresh : Key) :
    Method (Client S) CoreError Bytes := do
  let client ← get
  match packet with
  | .init init =>
    let (result, prekeys) := (Session.accept P client.identity init fresh).call client.prekeys
    set { client with prekeys := prekeys }
    let (session, plaintext) ← lift (result.mapError .dm)
    set { client with prekeys := prekeys, sessions := client.sessions.insert sender session }
    return plaintext
  | .message msg =>
    let session ← lift (okOr (client.sessions.lookup sender) .noSession)
    let (result, session) := (Session.decrypt P msg fresh).call session
    set { client with sessions := client.sessions.insert sender session }
    lift (result.mapError .dm)

/-- The steps between the duplicate filter and `decrypt_packet`: the sender and the packet. -/
def openEnvelope (client : Client S) (env : Envelope) : Except Receipt (Key × Packet) := do
  let sealed ← (env.openSealed P S client.identity.ik).mapError fun _ => .unopened
  let packet ← (Packet.decode sealed.inner).mapError fun _ => .malformed
  refuseIf (idkToId S sealed.senderIdk ∈ client.blocked) .blocked
  return (sealed.senderIdk, packet)

/-- One round of the loop of `receive_all`, up to the decrypted content. -/
def receiveEnvelope (client : Client S) (env : Envelope) (fresh : Key) : Receipt × Client S :=
  let (isNew, seen) := client.seen.record (envelopeTag S env) seenCap
  let client := { client with seen := seen }
  if isNew then
    match client.openEnvelope P env with
    | .error receipt => (receipt, client)
    | .ok (sender, packet) =>
      match (decryptPacket P sender packet fresh).call client with
      | (.ok plaintext, client) => (.decrypted sender plaintext, client)
      | (.error e, client) => (.undecryptable sender e, client)
  else
    (.duplicate, client)

variable {P}

theorem decryptPacket_frame (client : Client S) (sender : Key) (packet : Packet) (fresh : Key) :
    ∃ prekeys sessions,
      ((decryptPacket P sender packet fresh).call client).2 =
        { client with prekeys := prekeys, sessions := sessions } ∧
      prekeys.spk = client.prekeys.spk ∧
      ∀ other ≠ sender, sessions.lookup other = client.sessions.lookup other := by
  rw [decryptPacket, call_bind_ok (call_get client)]
  cases packet with
  | init init =>
    have hspk := Session.accept_spk (P := P) client.identity init fresh client.prekeys
    rcases haccept : (Session.accept P client.identity init fresh).call client.prekeys with
      ⟨result, prekeys⟩
    rw [haccept] at hspk
    cases result with
    | error e =>
      exact ⟨prekeys, client.sessions, by simp only [haccept]; rfl, hspk, fun _ _ => rfl⟩
    | ok pair =>
      exact ⟨prekeys, client.sessions.insert sender pair.1, by simp only [haccept]; rfl, hspk,
        fun _ hne => AList.lookup_insert_ne hne⟩
  | message msg =>
    cases hsession : client.sessions.lookup sender with
    | none => exact ⟨client.prekeys, client.sessions, rfl, rfl, fun _ _ => rfl⟩
    | some session =>
      exact ⟨client.prekeys,
        client.sessions.insert sender ((Session.decrypt P msg fresh).call session).2, rfl, rfl,
        fun _ hne => AList.lookup_insert_ne hne⟩

/-- Receiving records the envelope, and touches neither the identity nor the block list. -/
theorem receiveEnvelope_frame (client : Client S) (env : Envelope) (fresh : Key) :
    ∃ prekeys sessions,
      (client.receiveEnvelope P env fresh).2 =
        { client with
          seen := (client.seen.record (envelopeTag S env) seenCap).2
          prekeys := prekeys
          sessions := sessions } ∧
      prekeys.spk = client.prekeys.spk ∧
      ∀ other, (∀ packet, client.openEnvelope P env ≠ .ok (other, packet)) →
        sessions.lookup other = client.sessions.lookup other := by
  unfold receiveEnvelope
  dsimp only
  split
  · split
    · exact ⟨_, _, rfl, rfl, fun _ _ => rfl⟩
    · rename_i sender packet hopened
      obtain ⟨prekeys, sessions, hframe, hspk, hothers⟩ := decryptPacket_frame (P := P)
        { client with seen := (client.seen.record (envelopeTag S env) seenCap).2 } sender packet
        fresh
      refine ⟨prekeys, sessions, ?_, hspk, ?_⟩
      · rw [← hframe]
        split <;> rename_i hcall <;> rw [hcall]
      · intro other hother
        apply hothers
        rintro rfl
        exact hother packet hopened
  · exact ⟨_, _, rfl, rfl, fun _ _ => rfl⟩

theorem processed_of_openEnvelope_error {client : Client S} {receipt : Receipt}
    (herror : client.openEnvelope P env = .error receipt) : receipt.processed = false := by
  simp only [openEnvelope, bind_eq_error, mapError_eq_error, refuseIf_eq_error] at herror
  rcases herror with ⟨_, -, rfl⟩ | ⟨sealed, -, hrest⟩
  · rfl
  · rcases hrest with ⟨_, -, rfl⟩ | ⟨packet, -, ⟨-, rfl⟩ | ⟨_, -, hpure⟩⟩
    · rfl
    · rfl
    · cases hpure

/-- The packets that reach `decrypt_packet` are those of new envelopes that open. -/
theorem receiveEnvelope_processed_iff (client : Client S) (env : Envelope) (fresh : Key) :
    (client.receiveEnvelope P env fresh).1.processed = true ↔
      (client.seen.record (envelopeTag S env) seenCap).1 = true ∧
        ∃ opened, client.openEnvelope P env = .ok opened := by
  have hsame : ({ client with
      seen := (client.seen.record (envelopeTag S env) seenCap).2 } : Client S).openEnvelope P env =
      client.openEnvelope P env := rfl
  unfold receiveEnvelope
  dsimp only
  rw [hsame]
  split
  · rename_i hnew
    cases hopened : client.openEnvelope P env with
    | error receipt => simp [processed_of_openEnvelope_error hopened]
    | ok opened =>
      dsimp only
      split <;> simp [Receipt.processed, hnew]
  · rename_i hknown
    simp [Receipt.processed, hknown]

def SameButSessions (client client' : Client S) : Prop :=
  ∃ sessions, client' = { client with sessions := sessions }

theorem preparePacket_frame (client : Client S) (peerId : Hash) (peer : Peer)
    (bundle : Except CoreError PreKeyBundle) (plaintext : Bytes) (secrets : SendSecrets) :
    SameButSessions client
      ((preparePacket P peerId peer bundle plaintext secrets).call client).2 := by
  rw [preparePacket, call_bind_ok (call_get client)]
  dsimp only
  split
  · rw [call_bind_ok (call_set _ _)]
    exact call_bind_lift_state ⟨_, rfl⟩ fun msg => ⟨_, rfl⟩
  · -- the checks of the bundle come before anything is written
    apply call_bind_lift_state ⟨_, rfl⟩
    intro bundle
    apply call_bind_lift_state ⟨_, rfl⟩
    intro _
    apply call_bind_lift_state ⟨_, rfl⟩
    intro _
    apply call_bind_lift_state ⟨_, rfl⟩
    intro _
    apply call_bind_lift_state ⟨_, rfl⟩
    intro started
    exact ⟨_, rfl⟩

/-- Sending changes the sessions, and nothing else, whether it succeeds or not. -/
theorem sendContent_frame (client : Client S) (ledger : Hash → Option Peer)
    (fetchPrekeyBundle : Hash → Except CoreError PreKeyBundle)
    (deposit : Envelope → Except NetError Unit) (peerId : Hash) (content : Content)
    (nowMs : UInt64) (ttlMs : UInt32) (secrets : SendSecrets) :
    SameButSessions client ((sendContent P ledger fetchPrekeyBundle deposit peerId content nowMs
      ttlMs secrets).call client).2 := by
  rw [sendContent, call_bind_ok (call_get client)]
  apply call_bind_lift_state ⟨_, rfl⟩
  intro _
  apply call_bind_lift_state ⟨_, rfl⟩
  intro peer
  have hframe := preparePacket_frame (P := P) client peerId peer (fetchPrekeyBundle peerId)
    content.encode secrets
  apply call_bind_state hframe
  intro packet after hpacket
  rw [hpacket] at hframe
  apply call_bind_lift_state hframe
  intro env
  exact call_bind_lift_state hframe fun _ => hframe

/-- A message that was sent: its packet, sealed for the peer. -/
theorem sendContent_eq_ok {ledger : Hash → Option Peer}
    {fetchPrekeyBundle : Hash → Except CoreError PreKeyBundle}
    {deposit : Envelope → Except NetError Unit} {content : Content} {nowMs : UInt64}
    {ttlMs : UInt32}
    (hcall : (sendContent P ledger fetchPrekeyBundle deposit peerId content nowMs ttlMs
      secrets).call client = (.ok env, client')) :
    ∃ peer packet, ledger peerId = some peer ∧
      (preparePacket P peerId peer (fetchPrekeyBundle peerId) content.encode secrets).call client =
        (.ok packet, client') ∧
      Envelope.sealWith P S peerId peer.ik client.identity.idk packet.encode nowMs ttlMs
        client.identity.sign secrets.eph = .ok env := by
  simp only [sendContent, call_bind_eq_ok, call_get, call_lift, call_pure, Prod.mk.injEq,
    Except.ok.injEq, okOr_eq_ok, mapError_eq_ok] at hcall
  obtain ⟨_, _, ⟨rfl, rfl⟩, _, _, ⟨-, rfl⟩, peer, _, ⟨hpeer, rfl⟩, packet, after, hpacket,
    sealed, _, ⟨hsealed, rfl⟩, _, _, ⟨-, rfl⟩, rfl, rfl⟩ := hcall
  exact ⟨peer, packet, hpeer, hpacket, hsealed⟩

/-- The relay's answer decides what `send_content` returns, and nothing else. -/
theorem call_sendContent_deposit {ledger : Hash → Option Peer}
    {fetchPrekeyBundle : Hash → Except CoreError PreKeyBundle} {content : Content} {nowMs : UInt64}
    {ttlMs : UInt32}
    (haccepted : (sendContent P ledger fetchPrekeyBundle (fun _ => .ok ()) peerId content nowMs
      ttlMs secrets).call client = (.ok env, client')) (deposit : Envelope → Except NetError Unit) :
    (sendContent P ledger fetchPrekeyBundle deposit peerId content nowMs ttlMs secrets).call client =
      (((deposit env).mapError .net).map fun _ => env, client') := by
  simp only [sendContent, call_bind_eq_ok, call_get, call_lift, call_pure, Prod.mk.injEq,
    Except.ok.injEq] at haccepted
  obtain ⟨_, _, ⟨rfl, rfl⟩, _, _, ⟨hallowed, rfl⟩, peer, _, ⟨hpeer, rfl⟩, packet, after, hpacket,
    sealed, _, ⟨hsealed, rfl⟩, _, _, ⟨-, rfl⟩, rfl, rfl⟩ := haccepted
  rw [sendContent, call_bind_ok (call_get _), hallowed, call_bind_ok (call_lift _ _), hpeer,
    call_bind_ok (call_lift _ _), call_bind_ok hpacket, hsealed, call_bind_ok (call_lift _ _)]
  cases deposit sealed with
  | error e => rfl
  | ok _ => rfl

theorem preparePacket_session {peer : Peer} {bundle : Except CoreError PreKeyBundle}
    {packet : Packet} {session : Session}
    (hsession : client.sessions.lookup peer.idk = some session)
    (hcall : (preparePacket P peerId peer bundle plaintext secrets).call client =
      (.ok packet, client')) :
    ∃ msg session', (Session.encrypt P plaintext).call session = (.ok msg, session') ∧
      packet = .message msg ∧
      client' = { client with sessions := client.sessions.insert peer.idk session' } := by
  rw [preparePacket, call_bind_ok (call_get client)] at hcall
  simp only [hsession, call_bind_eq_ok, call_set, call_lift, call_pure, Prod.mk.injEq,
    Except.ok.injEq, mapError_eq_ok] at hcall
  obtain ⟨_, _, ⟨-, rfl⟩, msg, _, ⟨hencrypt, rfl⟩, rfl, rfl⟩ := hcall
  exact ⟨msg, _, Prod.ext hencrypt rfl, rfl, rfl⟩

theorem preparePacket_first {peer : Peer} {bundle : PreKeyBundle} {packet : Packet}
    (hsession : client.sessions.lookup peer.idk = none)
    (hcall : (preparePacket P peerId peer (.ok bundle) plaintext secrets).call client =
      (.ok packet, client')) :
    ∃ session init,
      Session.initiate P client.identity bundle plaintext secrets.ek secrets.dhs =
        .ok (session, init) ∧
      packet = .init init ∧
      client' = { client with sessions := client.sessions.insert peer.idk session } := by
  rw [preparePacket, call_bind_ok (call_get client)] at hcall
  simp only [hsession, call_bind_eq_ok, call_set, call_lift, call_pure, Prod.mk.injEq,
    Except.ok.injEq, mapError_eq_ok] at hcall
  obtain ⟨_, _, ⟨rfl, rfl⟩, _, _, ⟨-, rfl⟩, _, _, ⟨-, rfl⟩, _, _, ⟨-, rfl⟩, ⟨session, init⟩, _,
    ⟨hinit, rfl⟩, _, _, ⟨-, rfl⟩, rfl, rfl⟩ := hcall
  exact ⟨session, init, hinit, rfl, rfl⟩

theorem receiveEnvelope_decrypted {fresh sender : Key} {packet : Packet}
    (hnew : (client.seen.record (envelopeTag S env) seenCap).1 = true)
    (hopened : client.openEnvelope P env = .ok (sender, packet))
    (hdecrypt : (decryptPacket P sender packet fresh).call
        { client with seen := (client.seen.record (envelopeTag S env) seenCap).2 } =
      (.ok plaintext, client')) :
    client.receiveEnvelope P env fresh = (.decrypted sender plaintext, client') := by
  have hsame : ({ client with
      seen := (client.seen.record (envelopeTag S env) seenCap).2 } : Client S).openEnvelope P env =
      .ok (sender, packet) := hopened
  unfold receiveEnvelope
  dsimp only
  rw [if_pos hnew, hsame]
  dsimp only
  rw [hdecrypt]

theorem call_decryptPacket_message {client : Client S} {sender fresh : Key} {msg : DmMessage}
    {session session' : Session} {result : Except DmError Bytes}
    (hsession : client.sessions.lookup sender = some session)
    (hdecrypt : (Session.decrypt P msg fresh).call session = (result, session')) :
    (decryptPacket P sender (.message msg) fresh).call client =
      (result.mapError .dm,
        { client with sessions := client.sessions.insert sender session' }) := by
  rw [decryptPacket, call_bind_ok (call_get client)]
  dsimp only
  rw [hsession, okOr, call_bind_ok (call_lift _ _), hdecrypt, call_bind_ok (call_set _ _),
    call_lift]

theorem call_decryptPacket_init {client : Client S} {sender fresh : Key} {init : InitMessage}
    {session : Session} {rest : PreKeySecrets}
    (haccept : (Session.accept P client.identity init fresh).call client.prekeys =
      (.ok (session, plaintext), rest)) :
    (decryptPacket P sender (.init init) fresh).call client =
      (.ok plaintext,
        { client with
          prekeys := rest
          sessions := client.sessions.insert sender session }) := by
  rw [decryptPacket, call_bind_ok (call_get client)]
  simp only [haccept]
  rfl

end Client

end Dante.Core
