import Dante.Ledger.Refusals
import Dante.Net.Wire
import Dante.Relay.Accounting
import Dante.Relay.KeyPackages
import Dante.Relay.Prekeys

/-!
The relay as a whole: everything that requests read and write, and the answer to each kind of
request. The parts are those of the other modules. Left out is what no answer depends on, such
as the queues of what goes to other relays.
-/

namespace Dante.Relay

open Crypto Ledger Method Net.Wire

def signalTtlMs : UInt64 := 12000

def maxSignalsPerTopic : Nat := 64

def maxSignalBytes : Nat := 4 * 1024

def maxChannelHeadsPerRequest : Nat := 2000

def maxP2pReported : Nat := 64

def p2pReportedTtlMs : UInt64 := 60 * 60 * 1000

def maxP2pAddrLen : Nat := 256

def maxP2pPeersReply : Nat := 16

structure RelayState where
  ledger : Ledger
  stores : Stores
  prekeys : PrekeyStore
  keyPackages : AssocMap Hash (List Bytes)
  channels : AssocMap Hash ChannelLog
  rosters : AssocMap Hash ChannelRoster
  channelBytes : Nat
  channelStoreCap : Nat
  /-- Signals under their topic, each with the time it came. -/
  signals : AssocMap Hash (List (Bytes × UInt64))
  /-- The addresses that the operator configured. -/
  p2pSeed : List String
  /-- Addresses that clients announced, with the time of the last announcement. -/
  p2pReported : List (String × UInt64)

/-- A request with what the answer depends on besides the state: the rate limiter's verdict, the
time, and the configuration that `to_ice_configs` makes for this answer. -/
structure Call where
  request : Request
  limited : Bool
  now : UInt64
  ice : List IceCfg

/-- `Display` of the errors that a mailbox returns. -/
def mailboxErrorText : Net.NetError → String
  | .unexpectedResponse request => "unexpected response to " ++ request
  | .rejectedEnvelope why => "envelope rejected: " ++ why

/-- The answer to a request that a part of the relay has refused. -/
def rejected (reason : String) : Response := .error ("rejected: " ++ reason)

def DepositError.response : DepositError → Response
  | .undecodable => .error "undecodable envelope"
  | .rateLimited => .error "rate limited"
  | .rejected e => Relay.rejected (mailboxErrorText e)

/-- The answer of a part whose refusals are texts. -/
def respond {α : Type} (answer : α → Response) : Except String α → Response
  | .ok a => answer a
  | .error reason => .error reason

/-- An answer that changes nothing. -/
def reading (limited : Bool) (response : Response) : Response :=
  if limited then .error "rate limited" else response

/-- The answers from the ledger. -/
def ofSync : Net.Response → Response
  | .treeHead size root => .treeHead (UInt64.ofNat size) root
  | .records blobs => .records blobs
  | .error message => .error message

namespace RelayState

def new (params : LedgerParams) (channelStoreCap : Nat) (p2pSeed : List String) : RelayState where
  ledger := .new params
  stores := .new
  prekeys := .new
  keyPackages := ∅
  channels := ∅
  rosters := ∅
  channelBytes := 0
  channelStoreCap := channelStoreCap
  signals := ∅
  p2pSeed := p2pSeed
  p2pReported := []

variable (S : Suite) (state : RelayState)

def channelStore : ChannelStore where
  ledger := state.ledger
  channels := state.channels
  rosters := state.rosters
  channelBytes := state.channelBytes
  channelStoreCap := state.channelStoreCap

def setChannelStore (store : ChannelStore) : RelayState :=
  { state with
    channels := store.channels, rosters := store.rosters, channelBytes := store.channelBytes }

def keyPackageStore : KeyPackageStore where
  ledger := state.ledger
  keyPackages := state.keyPackages

def freshSignal (now : UInt64) (signal : Bytes × UInt64) : Bool :=
  saturatingSub now signal.2 ≤ signalTtlMs

/-- The signals of a topic after one more, without those that are too old or too many. -/
def pushSignal (sigs : List (Bytes × UInt64)) (blob : Bytes) (now : UInt64) :
    List (Bytes × UInt64) :=
  let grown := sigs.filter (freshSignal now) ++ [(blob, now)]
  grown.drop (grown.length - maxSignalsPerTopic)

def postSignal (limited : Bool) (topic : Hash) (blob : Bytes) (now : UInt64) :
    Response × RelayState :=
  if limited then (.error "rate limited", state)
  else if blob.length > maxSignalBytes then (.error "signal too large", state)
  else
    let sigs := (state.signals.lookup topic).getD []
    (.ok, { state with signals := state.signals.insert topic (pushSignal sigs blob now) })

def fetchSignals (topic : Hash) (now : UInt64) : List Bytes :=
  (((state.signals.lookup topic).getD []).filter (freshSignal now)).map Prod.fst

/-- One announced address: the oldest go when there are too many. -/
def reportP2p (now : UInt64) (reported : List (String × UInt64)) (addr : String) :
    List (String × UInt64) :=
  if addr.isEmpty ∨ addr.utf8ByteSize > maxP2pAddrLen ∨ addr.toList.head? ≠ some '/' then reported
  else if reported.any (·.1 = addr) then
    reported.modify (reported.findIdx (·.1 = addr)) fun entry => (entry.1, now)
  else
    let grown := reported ++ [(addr, now)]
    grown.drop (grown.length - maxP2pReported)

/-- The loop of `known_p2p_peers`. -/
def addPeers (now : UInt64) : List String → List (String × UInt64) → List String
  | out, [] => out
  | out, (addr, ts) :: rest =>
    if out.length ≥ maxP2pPeersReply then out
    else if saturatingSub now ts ≤ p2pReportedTtlMs ∧ addr ∉ out then
      addPeers now (out ++ [addr]) rest
    else addPeers now out rest

def knownP2pPeers (now : UInt64) : List String :=
  addPeers now state.p2pSeed state.p2pReported.reverse

def submitRecord (limited : Bool) (blob : Bytes) (now : UInt64) : Response × RelayState :=
  match Record.decode blob with
  | .error _ => (.error "undecodable record", state)
  | .ok record =>
    if limited then (.error "rate limited", state)
    else
      match (append S record now).call state.ledger with
      | (.ok _, ledger) => (.ok, { state with ledger })
      | (.error e, ledger) => (rejected e.text, { state with ledger })

def deposit (limited : Bool) (blob : Bytes) (now : UInt64) : Response × RelayState :=
  match state.stores.deposit S blob limited now with
  | (.ok (), stores) => (.ok, { state with stores })
  | (.error e, stores) => (e.response, { state with stores })

def fetch (hints : List Hint) (sinceMs now : UInt64) : Response :=
  .envelopes ((state.stores.mailbox.fetch (hints.take 32) sinceMs now).map Envelope.encode)

def publishPrekeys (limited : Bool) (blob : Bytes) : Response × RelayState :=
  let (result, prekeys) := (PrekeyStore.publishPrekeys limited blob).call state.prekeys
  (respond (fun _ => .ok) result, { state with prekeys })

def getPrekeys (limited : Bool) (id : Hash) : Response × RelayState :=
  let (result, prekeys) := (PrekeyStore.getPrekeys limited id).call state.prekeys
  (respond .prekeys result, { state with prekeys })

def publishKeyPackages (limited : Bool) (batch : KeyPackageBatch) : Response × RelayState :=
  let (result, store) :=
    (KeyPackageStore.publishKeyPackages S limited batch).call state.keyPackageStore
  (respond (fun _ => .ok) result, { state with keyPackages := store.keyPackages })

def getKeyPackage (limited : Bool) (id : Hash) : Response × RelayState :=
  let (result, store) := (KeyPackageStore.getKeyPackage limited id).call state.keyPackageStore
  (respond .keyPackage result, { state with keyPackages := store.keyPackages })

def putBlob (limited : Bool) (bytes : Bytes) (now : UInt64) : Response × RelayState :=
  let (result, blobs) := state.stores.blobs.putBlob S bytes limited now
  (respond (fun _ => .ok) result, { state with stores := { state.stores with blobs } })

def postToChannel (limited : Bool) (channelId : Hash) (blob : Bytes) (identity : Hash)
    (sig : Signature) (now : UInt64) : Response × RelayState :=
  let (result, store) :=
    (ChannelStore.postToChannel S limited channelId blob identity sig now).call state.channelStore
  (respond .posted result, state.setChannelStore store)

def setChannelRoster (limited : Bool) (update : RosterUpdate) : Response × RelayState :=
  let (result, store) := state.channelStore.setChannelRoster S limited update
  (respond (fun _ => .ok) result, state.setChannelStore store)

def fetchChannel (channelId : Hash) (sinceSeq : UInt64) : Response :=
  .channelLog ((state.channelStore.fetchChannel channelId sinceSeq).map fun frame =>
    (frame.seq, frame.blob))

/-- The number of the last frame; an unknown channel has 0. -/
def channelHead (channelId : Hash) : Hash × UInt64 :=
  (channelId, ((state.channels.lookup channelId).map fun log => saturatingSub log.nextSeq 1).getD 0)

def channelHeads (channelIds : List Hash) : Response :=
  if channelIds.length > maxChannelHeadsPerRequest then .error "too many channel ids in one request"
  else .channelHeads (channelIds.map state.channelHead)

def announceP2p (limited : Bool) (addrs : List String) (now : UInt64) : Response × RelayState :=
  if limited then (.error "rate limited", state)
  else (.ok, { state with p2pReported := addrs.foldl (reportP2p now) state.p2pReported })

/-- The answer to a request and the state after it. A relay answers the requests for calls and
previews elsewhere; here they are refused. -/
def handle (call : Call) : Response × RelayState :=
  match call.request with
  | .ping => (.pong, state)
  | .getTreeHead => (ofSync (Net.handle S state.ledger (!call.limited) .getTreeHead), state)
  | .getRecords start stop =>
    (ofSync (Net.handle S state.ledger (!call.limited) (.getRecords start.toNat stop.toNat)), state)
  | .submitRecord blob => state.submitRecord S call.limited blob call.now
  | .deposit blob => state.deposit S call.limited blob call.now
  | .fetch hints sinceMs => (reading call.limited (state.fetch hints sinceMs call.now), state)
  | .publishPrekeys blob => state.publishPrekeys call.limited blob
  | .getPrekeys id => state.getPrekeys call.limited id
  | .publishKeyPackages identity keyPackages sig =>
    state.publishKeyPackages S call.limited { identity, keyPackages, sig }
  | .getKeyPackage id => state.getKeyPackage call.limited id
  | .putBlob bytes => state.putBlob S call.limited bytes call.now
  | .getBlob hash => (respond .blob (state.stores.blobs.getBlob hash call.limited), state)
  | .postToChannel channelId blob identity sig =>
    state.postToChannel S call.limited channelId blob identity sig call.now
  | .setChannelRoster channelId serverRoot version members sig =>
    state.setChannelRoster S call.limited { channelId, serverRoot, version, members, sig }
  | .fetchChannel channelId sinceSeq =>
    (reading call.limited (state.fetchChannel channelId sinceSeq), state)
  | .channelHeads channelIds => (reading call.limited (state.channelHeads channelIds), state)
  | .postSignal topic blob => state.postSignal call.limited topic blob call.now
  | .fetchSignals topic =>
    (reading call.limited (.signals (state.fetchSignals topic call.now)), state)
  | .getIceConfig => (.iceConfig call.ice, state)
  | .announceP2p addrs => state.announceP2p call.limited addrs call.now
  | .getP2pPeers => (.p2pPeers (state.knownP2pPeers call.now), state)
  | .sfuJoin _ _ | .sfuIce _ _ _ | .sfuPull _ _ | .sfuLeave _ _ =>
    (.error "sfu not supported", state)
  | .unfurlLink _ => (.error "unfurl not supported", state)

def step (state : RelayState) (call : Call) : RelayState := (state.handle S call).2

end RelayState

end Dante.Relay
