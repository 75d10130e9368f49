import Dante.Ledger.Ledger
import Dante.Library.Sorted

/-!
The channel logs of a relay. A log is a counter and a list of frames in the order of their sequence
numbers. Frames come from clients, from gossip and from a sibling relay's log, and leave when they
expire or when a log grows beyond its caps. Who may post is decided by the ledger and by the
channel's roster.

A rate-limited request carries that fact as an argument. Sizes in bytes are natural numbers.
-/

namespace Dante.Relay

open Crypto Enc Method Except

@[irreducible]
def maxChannelEntries : Nat := 5000

def maxChannelBlobBytes : Nat := 1024 * 1024

def maxChannelFetchBytes : Nat := 7 * 1024 * 1024

def maxChannels : Nat := 100000

def maxChannelRosters : Nat := 100000

def maxChannelRosterMembers : Nat := 50000

def blobTtlMs : UInt64 := 7 * 24 * 60 * 60 * 1000

section Challenges

variable (S : Suite)

def postToChannelChallenge (channelId identity : Hash) (blob : Bytes) : Hash :=
  sha256Parts S.sha256 ["dante/relay-write/post-to-channel/v1".toUTF8.toList,
    Writer.fixed channelId ++ Writer.fixed identity ++ Writer.bytes blob]

def writeIdList (ids : List Hash) : Bytes :=
  Writer.u32 (UInt32.ofNat ids.length) ++ ids.flatMap Writer.fixed

def channelRosterChallenge (channelId : Hash) (serverRoot : Key) (version : UInt64)
    (members : List Hash) : Hash :=
  sha256Parts S.sha256 ["dante/relay-write/channel-roster/v1".toUTF8.toList,
    Writer.fixed channelId ++ Writer.fixed serverRoot ++ Writer.u64 version ++
      writeIdList members]

end Challenges

structure Frame where
  seq : UInt64
  blob : Bytes
  storedMs : UInt64
  deriving DecidableEq

def frameBytes (frames : List Frame) : Nat := (frames.map fun frame => frame.blob.length).sum

/-- Insertion at the partition point of the sequence number. -/
def insertFrame (frame : Frame) (entries : List Frame) : List Frame :=
  entries.orderedInsert (fun a b => a.seq ≤ b.seq) frame

/-- The frames that draining down to the entry cap removes. -/
def excess (entries : List Frame) : List Frame :=
  entries.take (entries.length - maxChannelEntries)

def trim (entries : List Frame) : List Frame :=
  entries.drop (entries.length - maxChannelEntries)

structure ChannelLog where
  nextSeq : UInt64
  /-- A client posted here, so this relay sequences the channel. -/
  localWriter : Bool
  entries : List Frame
  deriving DecidableEq

def ChannelLog.new : ChannelLog where
  nextSeq := 1
  localWriter := false
  entries := []

def ChannelLog.posted (log : ChannelLog) (blob : Bytes) (nowMs : UInt64) : ChannelLog where
  nextSeq := log.nextSeq + 1
  localWriter := true
  entries := log.entries ++ [{ seq := log.nextSeq, blob, storedMs := nowMs }]

def ChannelLog.folded (log : ChannelLog) (frame : Frame) : ChannelLog where
  nextSeq := max log.nextSeq (frame.seq + 1)
  localWriter := false
  entries := insertFrame frame log.entries

def ChannelLog.trimmed (log : ChannelLog) : ChannelLog := { log with entries := trim log.entries }

/-- The frames whose numbers the log does not hold. -/
def ChannelLog.missing (log : ChannelLog) (incoming : List Frame) : List Frame :=
  incoming.filter fun frame => !log.entries.any (·.seq = frame.seq)

/-- A log after the frames of a sibling's log; `last` is the last of them. -/
def ChannelLog.merged (log : ChannelLog) (incoming : List Frame) (last : Frame) : ChannelLog :=
  { log with
    nextSeq := max log.nextSeq (last.seq + 1)
    entries := (log.missing incoming).foldl (fun entries frame => insertFrame frame entries)
      log.entries }

structure ChannelRoster where
  serverRoot : Key
  version : UInt64
  members : Finset Hash
  deriving DecidableEq

structure ChannelStore where
  ledger : Ledger
  channels : AssocMap Hash ChannelLog
  rosters : AssocMap Hash ChannelRoster
  channelBytes : Nat
  channelStoreCap : Nat

/-- A signed list of the members of a channel, as `SetChannelRoster` and gossip carry it. -/
structure RosterUpdate where
  channelId : Hash
  serverRoot : Key
  version : UInt64
  members : List Hash
  sig : Signature
  deriving DecidableEq

namespace ChannelStore

def new (ledger : Ledger) (channelStoreCap : Nat) : ChannelStore where
  ledger := ledger
  channels := ∅
  rosters := ∅
  channelBytes := 0
  channelStoreCap := channelStoreCap

variable (S : Suite) (store : ChannelStore)

/-- `self.channels.entry(channel_id).or_insert((1, false, Vec::new()))` -/
def log (channelId : Hash) : ChannelLog := (store.channels.lookup channelId).getD .new

/-- A channel without a log finds no room for one. -/
def DirectoryFull (channelId : Hash) : Prop :=
  store.channels.lookup channelId = none ∧ store.channels.entries.length ≥ maxChannels

instance (channelId : Hash) : Decidable (store.DirectoryFull channelId) :=
  inferInstanceAs (Decidable (_ ∧ _))

/-- Keep a log that has grown by `added` bytes, drained down to the entry cap. -/
def keep (channelId : Hash) (log : ChannelLog) (added : Nat) : ChannelStore :=
  { store with
    channels := store.channels.insert channelId log.trimmed
    channelBytes := store.channelBytes + added - frameBytes (excess log.entries) }

def verifyChannelPostSig (channelId identity : Hash) (blob : Bytes) (sig : Signature) :
    Except String Unit := do
  let idk ← okOr (store.ledger.idkForId identity) "unknown identity"
  refuseIf (¬ Verifies S idk (postToChannelChallenge S channelId identity blob).toList sig)
    "bad signature"

def checkPost (limited : Bool) (channelId : Hash) (blob : Bytes) (identity : Hash)
    (sig : Signature) : Except String Unit := do
  refuseIf (limited = true) "rate limited"
  refuseIf (blob.length > maxChannelBlobBytes) "channel frame too large"
  store.verifyChannelPostSig S channelId identity blob sig
  let roster ← okOr (store.rosters.lookup channelId) "channel has no registered membership"
  refuseIf (identity ∉ roster.members) "not a member of this channel"
  refuseIf (store.DirectoryFull channelId) "channel directory full"
  refuseIf (store.channelBytes + blob.length > store.channelStoreCap) "channel store full"

def postToChannel (limited : Bool) (channelId : Hash) (blob : Bytes) (identity : Hash)
    (sig : Signature) (nowMs : UInt64) : Method ChannelStore String UInt64 := do
  let store ← get
  lift (store.checkPost S limited channelId blob identity sig)
  set (store.keep channelId ((store.log channelId).posted blob nowMs) blob.length)
  return (store.log channelId).nextSeq

/-- The checks that a gossiped frame has to pass before the log is looked at. -/
def AdmitsFrame (channelId : Hash) (blob : Bytes) (identity : Hash) (sig : Signature) : Prop :=
  blob.length ≤ maxChannelBlobBytes ∧
    store.verifyChannelPostSig S channelId identity blob sig = .ok () ∧
    (∀ roster ∈ store.rosters.lookup channelId, identity ∈ roster.members) ∧
    ¬ store.DirectoryFull channelId ∧
    store.channelBytes + blob.length ≤ store.channelStoreCap

instance (channelId : Hash) (blob : Bytes) (identity : Hash) (sig : Signature) :
    Decidable (store.AdmitsFrame S channelId blob identity sig) :=
  inferInstanceAs (Decidable (_ ∧ _ ∧ _ ∧ _ ∧ _))

/-- Fold a frame heard on the channel's topic into the log. A relay that sequences the channel
itself ignores numbers below its next one and steps down for the others. -/
def ingestGossipedChannelFrame (channelId : Hash) (seq : UInt64) (blob : Bytes) (identity : Hash)
    (sig : Signature) (nowMs : UInt64) : Bool × ChannelStore :=
  let log := store.log channelId
  if ¬ store.AdmitsFrame S channelId blob identity sig then (false, store)
  else if log.localWriter = true ∧ seq < log.nextSeq then (false, store)
  else if log.entries.any (·.seq = seq) then
    (false, { store with
      channels := store.channels.insert channelId { log with localWriter := false } })
  else (true, store.keep channelId (log.folded { seq, blob, storedMs := nowMs }) blob.length)

/-- The rows of a sibling's log that are worth a look, by sequence number and without
repetitions. -/
def incoming (rows : List (UInt64 × Bytes)) (nowMs : UInt64) : List Frame :=
  (((rows.filter fun row => row.2.length ≤ maxChannelBlobBytes).map fun row =>
    { seq := row.1, blob := row.2, storedMs := nowMs : Frame }).insertionSort
      fun a b => a.seq ≤ b.seq).destutter fun a b => a.seq ≠ b.seq

/-- Remove the oldest frames while the total is beyond the cap. The result has the new total. -/
def evict (cap : Nat) : Nat → List Frame → List Frame × Nat
  | bytes, [] => ([], bytes)
  | bytes, frame :: rest =>
    if bytes > cap then evict cap (bytes - frame.blob.length) rest else (frame :: rest, bytes)

/-- Fold a sibling's log into ours: fill in the numbers that we do not hold. -/
def adoptChannelLog (channelId : Hash) (rows : List (UInt64 × Bytes)) (nowMs : UInt64) :
    ChannelStore :=
  if store.DirectoryFull channelId then store
  else
    match (incoming rows nowMs).getLast? with
    | none => store
    | some last =>
      let log := store.log channelId
      let merged := log.merged (incoming rows nowMs) last
      let kept := evict store.channelStoreCap
        (store.channelBytes + frameBytes (log.missing (incoming rows nowMs)) -
          frameBytes (excess merged.entries)) (trim merged.entries)
      { store with
        channels := store.channels.insert channelId { merged with entries := kept.1 }
        channelBytes := kept.2 }

def live (nowMs : UInt64) (frame : Frame) : Bool :=
  saturatingSub nowMs frame.storedMs ≤ blobTtlMs

/-- A log without its expired frames, unless that is all of them. -/
def retained (nowMs : UInt64) (log : ChannelLog) : Option ChannelLog :=
  if log.entries.filter (live nowMs) = [] then none
  else some { log with entries := log.entries.filter (live nowMs) }

def storedBytes (channels : AssocMap Hash ChannelLog) : Nat :=
  ((AssocMap.values channels).map fun log => frameBytes log.entries).sum

/-- The channels' part of `maintain`. -/
def maintain (nowMs : UInt64) : ChannelStore :=
  let channels := AssocMap.filterMapValues (retained nowMs) store.channels
  { store with channels, channelBytes := storedBytes channels }

/-- The first frames that fit in `budget` bytes. -/
def takeWithin : Nat → List Frame → List Frame
  | _, [] => []
  | budget, frame :: rest =>
    if frame.blob.length ≤ budget then frame :: takeWithin (budget - frame.blob.length) rest
    else []

/-- The frames in the answer to `FetchChannel`; the time of storage is not part of it. -/
def fetchChannel (channelId : Hash) (sinceSeq : UInt64) : List Frame :=
  takeWithin maxChannelFetchBytes
    ((store.log channelId).entries.filter fun frame => sinceSeq < frame.seq)

/-- The last step of `apply_channel_roster`. -/
def bindRoster (update : RosterUpdate) : Except String Bool × ChannelStore :=
  let challenge :=
    channelRosterChallenge S update.channelId update.serverRoot update.version update.members
  if ¬ Verifies S update.serverRoot challenge.toList update.sig then
    (.error "bad signature", store)
  else
    (.ok true, { store with
      rosters := store.rosters.insert update.channelId
        { serverRoot := update.serverRoot
          version := update.version
          members := update.members.toFinset } })

def applyChannelRoster (update : RosterUpdate) : Except String Bool × ChannelStore :=
  if update.members.length > maxChannelRosterMembers then (.error "roster too large", store)
  else
    match store.rosters.lookup update.channelId with
    | some bound =>
      if bound.serverRoot ≠ update.serverRoot then
        (.error "channel bound to a different server", store)
      else if update.version ≤ bound.version then (.ok false, store)
      else store.bindRoster S update
    | none =>
      if store.rosters.entries.length ≥ maxChannelRosters then
        (.error "too many channel rosters", store)
      else store.bindRoster S update

def setChannelRoster (limited : Bool) (update : RosterUpdate) :
    Except String Unit × ChannelStore :=
  if limited = true then (.error "rate limited", store)
  else
    match store.applyChannelRoster S update with
    | (.ok true, store') => (.ok (), store')
    | (.ok false, store') => (.error "stale roster version", store')
    | (.error reason, store') => (.error reason, store')

def ingestGossipedChannelRoster (update : RosterUpdate) : Bool × ChannelStore :=
  match store.applyChannelRoster S update with
  | (.ok applied, store') => (applied, store')
  | (.error _, store') => (false, store')

end ChannelStore

/-- What happens at a relay, as far as its channels are concerned. -/
inductive ChannelOp where
  | post (limited : Bool) (channelId : Hash) (blob : Bytes) (identity : Hash) (sig : Signature)
      (nowMs : UInt64)
  | gossip (channelId : Hash) (seq : UInt64) (blob : Bytes) (identity : Hash) (sig : Signature)
      (nowMs : UInt64)
  | adopt (channelId : Hash) (rows : List (UInt64 × Bytes)) (nowMs : UInt64)
  | maintain (nowMs : UInt64)
  | setRoster (limited : Bool) (update : RosterUpdate)
  | gossipRoster (update : RosterUpdate)
  /-- Whatever changes the ledger: records, gossip, evaporation. -/
  | ledger (ledger : Ledger)

def ChannelStore.step (S : Suite) (store : ChannelStore) : ChannelOp → ChannelStore
  | .post limited channelId blob identity sig nowMs =>
    ((postToChannel S limited channelId blob identity sig nowMs).call store).2
  | .gossip channelId seq blob identity sig nowMs =>
    (store.ingestGossipedChannelFrame S channelId seq blob identity sig nowMs).2
  | .adopt channelId rows nowMs => store.adoptChannelLog channelId rows nowMs
  | .maintain nowMs => store.maintain nowMs
  | .setRoster limited update => (store.setChannelRoster S limited update).2
  | .gossipRoster update => (store.ingestGossipedChannelRoster S update).2
  | .ledger ledger => { store with ledger }

section Samples

open Ledger

def sampleLedger : Ledger :=
  run sampleSuite sampleParams [.append (sampleAnnounce (sampleKey 1) 1000) 1000]

def sampleMember : Hash := sampleSuite.sha256 (sampleKey 1).toList

def sampleChannel : Hash := .fill 32 7

def samplePostSig (channelId : Hash) (blob : Bytes) : Signature :=
  sampleSign (sampleKey 1) (postToChannelChallenge sampleSuite channelId sampleMember blob).toList

def sampleRoster (channelId : Hash) (version : UInt64) (members : List Hash) : RosterUpdate where
  channelId := channelId
  serverRoot := sampleKey 9
  version := version
  members := members
  sig := sampleSign (sampleKey 9)
    (channelRosterChallenge sampleSuite channelId (sampleKey 9) version members).toList

def samplePost (blob : Bytes) (nowMs : UInt64) : ChannelOp :=
  .post false sampleChannel blob sampleMember (samplePostSig sampleChannel blob) nowMs

def sampleGossip (seq : UInt64) (blob : Bytes) (nowMs : UInt64) : ChannelOp :=
  .gossip sampleChannel seq blob sampleMember (samplePostSig sampleChannel blob) nowMs

def sampleStore : ChannelStore :=
  (ChannelStore.new sampleLedger 1000).step sampleSuite
    (.setRoster false (sampleRoster sampleChannel 1 [sampleMember]))

end Samples

end Dante.Relay
