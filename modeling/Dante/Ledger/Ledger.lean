import Dante.Ledger.Server
import Dante.Library.AssocMap
import Dante.Proto.Merkle
import Dante.Library.Run

/-!
The append-only log: the accepted records in order, and the indexes beside them. `append` validates
one record against the indexes; `evaporate` writes a tombstone for every identity that has been
inactive too long. An index out of bounds would panic in the source, so lookups are written with `!`
here, and the index invariant shows that they never miss.
-/

namespace Dante

open Crypto Identity Method Except

namespace Ledger

def identityTtlMs : UInt64 := 90 * 24 * 60 * 60 * 1000

structure LedgerParams where
  identityTtlMs : UInt64
  minAnnouncePowBits : UInt8
  minLivenessPowBits : UInt8
  minPowMCostKib : UInt32
  minPowTCost : UInt32
  deriving DecidableEq

instance : Inhabited LedgerParams where
  default :=
    { identityTtlMs := identityTtlMs
      minAnnouncePowBits := Pow.registration.bits
      minLivenessPowBits := Pow.liveness.bits
      minPowMCostKib := Pow.registration.mCostKib
      minPowTCost := Pow.registration.tCost }

structure Chain where
  rootIdk : Key
  tipIdk : Key
  tipIk : Key
  lastActivityMs : UInt64
  tombstoned : Bool
  revoked : Bool
  displayHint : String
  avatarHash : Option Hash
  status : Option String
  profileMs : UInt64
  deriving DecidableEq

instance : Inhabited Chain where
  default :=
    { rootIdk := .fill 32 0, tipIdk := .fill 32 0, tipIk := .fill 32 0, lastActivityMs := 0
      tombstoned := false, revoked := false, displayHint := "", avatarHash := none
      status := none, profileMs := 0 }

namespace Chain

def usable (chain : Chain) : Bool := !chain.tombstoned && !chain.revoked

@[simps]
def announced (record : Record) (body : IdentityAnnounce) : Chain where
  rootIdk := record.author
  tipIdk := record.author
  tipIk := body.ikPub
  lastActivityMs := record.createdMs
  tombstoned := false
  revoked := false
  displayHint := body.displayHint
  avatarHash := none
  status := none
  profileMs := 0

@[simps]
def refreshed (createdMs : UInt64) (chain : Chain) : Chain :=
  { chain with lastActivityMs := createdMs }

@[simps]
def rotated (body : KeyRotation) (createdMs : UInt64) (chain : Chain) : Chain :=
  { chain with tipIdk := body.newIdk, tipIk := body.newIk, lastActivityMs := createdMs }

@[simps]
def revokedAt (createdMs : UInt64) (chain : Chain) : Chain :=
  { chain with revoked := true, lastActivityMs := createdMs }

@[simps]
def profiled (body : IdentityProfile) (createdMs : UInt64) (chain : Chain) : Chain :=
  { chain with avatarHash := body.avatarHash, status := body.status, profileMs := createdMs }

@[simps]
def evaporated (chain : Chain) : Chain := { chain with tombstoned := true }

end Chain

structure ServerState where
  recordIndex : Nat
  lastMs : UInt64
  delisted : Bool
  ownerChain : Option Nat
  deriving DecidableEq

/-- An unsigned tree head. The source counts in `u64`, which no vector outgrows. -/
structure TreeHead where
  size : Nat
  root : Hash
  deriving DecidableEq

end Ledger

open Ledger in
structure Ledger where
  store : List Record
  params : LedgerParams
  leaves : List Hash
  byId : AssocMap RecordId Nat
  idkToChain : AssocMap Key Nat
  idToChain : AssocMap Hash Nat
  chains : List Chain
  servers : AssocMap Key ServerState

namespace Ledger

@[simps]
def new (params : LedgerParams) : Ledger where
  store := []
  params := params
  leaves := []
  byId := ∅
  idkToChain := ∅
  idToChain := ∅
  chains := []
  servers := ∅

variable (S : Suite)

section Queries

variable (L : Ledger)

def len : Nat := L.store.length

def record (index : Nat) : Option Record := L.store[index]?

def head : TreeHead where
  size := L.leaves.length
  root := Merkle.root S.sha256 L.leaves

def chainOf (idk : Key) : Option Chain := (L.idkToChain.lookup idk).map (L.chains[·]!)

def isLive (idk : Key) : Bool := (L.chainOf idk).any Chain.usable

def isRevoked (idk : Key) : Bool := (L.chainOf idk).any Chain.revoked

def lastActivity (idk : Key) : Option UInt64 := (L.chainOf idk).map Chain.lastActivityMs

def identityId (idk : Key) : Option Hash := do
  let chain ← L.chainOf idk
  if S.validKey chain.rootIdk then some (S.sha256 chain.rootIdk.toList) else none

def agreementKey (idk : Key) : Option Key := do
  let chain ← L.chainOf idk
  if chain.usable then some chain.tipIk else none

def tipKey (idk : Key) : Option Key := do
  let chain ← L.chainOf idk
  if chain.usable then some chain.tipIdk else none

def idkForId (identityId : Hash) : Option Key := do
  let chainId ← L.idToChain.lookup identityId
  let chain := L.chains[chainId]!
  if chain.usable then some chain.tipIdk else none

/-- `None` for an id that the ledger has never seen. -/
def chainUsableForId (identityId : Hash) : Option Bool :=
  (L.idToChain.lookup identityId).map fun chainId => (L.chains[chainId]!).usable

/-- The directory entry of one server, if it is listed and discoverable. -/
def discoverable (state : ServerState) : Option ServerRegister := do
  if state.delisted then none
  let record ← L.store[state.recordIndex]?
  let register ← (ServerRegister.decode record.body).toOption
  if register.discoverable then some register else none

def discoverableServers : List ServerRegister :=
  (AssocMap.values L.servers).filterMap L.discoverable

end Queries

def authorKey (record : Record) : Except LedgerError (SignPublic S) :=
  (SignPublic.fromBytes S record.author).mapError fun _ => .badSignature

@[simps]
def pushed (L : Ledger) (record : Record) : Ledger :=
  { L with
    leaves := L.leaves ++ [Merkle.leafHash S.sha256 record.encode]
    byId := L.byId.insert (record.id S) L.store.length
    store := L.store ++ [record] }

def pushRecord (record : Record) : Method Ledger LedgerError RecordId := do
  modify (pushed S · record)
  return record.id S

@[simps]
def addChain (L : Ledger) (chain : Chain) : Ledger :=
  { L with
    chains := L.chains ++ [chain]
    idkToChain := L.idkToChain.insert chain.rootIdk L.chains.length
    idToChain := L.idToChain.insert (S.sha256 chain.rootIdk.toList) L.chains.length }

@[simps]
def updateChain (L : Ledger) (chainId : Nat) (f : Chain → Chain) : Ledger :=
  { L with chains := L.chains.modify chainId f }

@[simps]
def bindKey (L : Ledger) (idk : Key) (chainId : Nat) : Ledger :=
  { L with idkToChain := L.idkToChain.insert idk chainId }

@[simps]
def putServer (L : Ledger) (serverRoot : Key) (state : ServerState) : Ledger :=
  { L with servers := L.servers.insert serverRoot state }

/-- Withdraw every server whose recorded owner is the chain `chainId`. -/
@[simps]
def delistOwned (L : Ledger) (chainId : Nat) : Ledger :=
  { L with
    servers := AssocMap.mapValues (fun state =>
      if state.ownerChain = some chainId then { state with delisted := true } else state)
      L.servers }

/-- The checks that a liveness proof, a rotation, a revocation and a profile share:
`key` is the tip of a usable chain, and the record is newer than the chain's
`newest` time. -/
def tipChain (L : Ledger) (key : Key) (createdMs : UInt64) (newest : Chain → UInt64) :
    Except LedgerError Nat := do
  let chainId ← okOr (L.idkToChain.lookup key) .unknownIdentity
  let chain := L.chains[chainId]!
  refuseIf (chain.tombstoned = true) .identityEvaporated
  refuseIf (chain.revoked = true) .identityRevoked
  refuseIf (key ≠ chain.tipIdk) .notChainTip
  refuseIf (createdMs ≤ newest chain) .nonMonotonic
  return chainId

def checkAnnounce (L : Ledger) (record : Record) : Except LedgerError IdentityAnnounce := do
  let .announce body ← (IdentityRecord.fromRecord record).mapError .body
    | .error .authorMismatch
  refuseIf ((L.idkToChain.lookup record.author).isSome = true) .alreadyAnnounced
  (body.verify S (← authorKey S record) L.params.minAnnouncePowBits L.params.minPowMCostKib
    L.params.minPowTCost).mapError .body
  return body

def applyAnnounce (record : Record) : Method Ledger LedgerError RecordId := do
  let L ← get
  let body ← lift (checkAnnounce S L record)
  modify (addChain S · (Chain.announced record body))
  pushRecord S record

def checkLiveness (L : Ledger) (record : Record) : Except LedgerError Nat := do
  let .liveness body ← (IdentityRecord.fromRecord record).mapError .body
    | .error .authorMismatch
  let chainId ← L.tipChain record.author record.createdMs Chain.lastActivityMs
  (body.verify S (← authorKey S record) record.createdMs L.params.minLivenessPowBits
    L.params.minPowMCostKib L.params.minPowTCost).mapError .body
  return chainId

def applyLiveness (record : Record) : Method Ledger LedgerError RecordId := do
  let L ← get
  let chainId ← lift (checkLiveness S L record)
  modify (·.updateChain chainId (Chain.refreshed record.createdMs))
  pushRecord S record

def checkRotation (L : Ledger) (record : Record) : Except LedgerError (Nat × KeyRotation) := do
  let .keyRotation body ← (IdentityRecord.fromRecord record).mapError .body
    | .error .authorMismatch
  refuseIf (record.author ≠ body.newIdk) .authorMismatch
  (body.verify S).mapError .body
  let chainId ← L.tipChain body.prevIdk record.createdMs Chain.lastActivityMs
  refuseIf ((L.idkToChain.lookup body.newIdk).isSome = true) .keyAlreadyInUse
  return (chainId, body)

def applyRotation (record : Record) : Method Ledger LedgerError RecordId := do
  let L ← get
  let (chainId, body) ← lift (checkRotation S L record)
  modify (·.updateChain chainId (Chain.rotated body record.createdMs))
  modify (·.bindKey body.newIdk chainId)
  pushRecord S record

def checkRevoke (L : Ledger) (record : Record) : Except LedgerError Nat := do
  let .revoke body ← (IdentityRecord.fromRecord record).mapError .body
    | .error .authorMismatch
  refuseIf (record.author ≠ body.revokedIdk) .authorMismatch
  (body.verify S).mapError .body
  L.tipChain record.author record.createdMs Chain.lastActivityMs

def applyRevoke (record : Record) : Method Ledger LedgerError RecordId := do
  let L ← get
  let chainId ← lift (checkRevoke S L record)
  modify (·.updateChain chainId (Chain.revokedAt record.createdMs))
  modify (·.delistOwned chainId)
  pushRecord S record

def checkProfile (L : Ledger) (record : Record) : Except LedgerError (Nat × IdentityProfile) := do
  let .profile body ← (IdentityRecord.fromRecord record).mapError .body
    | .error .authorMismatch
  let chainId ← L.tipChain record.author record.createdMs Chain.profileMs
  return (chainId, body)

def applyProfile (record : Record) : Method Ledger LedgerError RecordId := do
  let L ← get
  let (chainId, body) ← lift (checkProfile L record)
  modify (·.updateChain chainId (Chain.profiled body record.createdMs))
  pushRecord S record

def checkServerRegister (L : Ledger) (record : Record) : Except LedgerError ServerRegister := do
  let body ← (ServerRegister.decode record.body).mapError .wire
  refuseIf (record.author ≠ body.serverRoot) .authorMismatch
  body.validate
  (Pow.verify S (ServerRegister.challenge S body.serverRoot) body.pow L.params.minAnnouncePowBits
    L.params.minPowMCostKib L.params.minPowTCost).mapError fun _ => .badPow
  refuseIf ((L.servers.lookup body.serverRoot).any (record.createdMs ≤ ·.lastMs) = true)
    .nonMonotonic
  return body

def applyServerRegister (record : Record) : Method Ledger LedgerError RecordId := do
  let L ← get
  let body ← lift (checkServerRegister S L record)
  let ownerChain := L.idkToChain.lookup body.serverRoot
  modify (·.putServer body.serverRoot
    { recordIndex := L.store.length, lastMs := record.createdMs, delisted := false, ownerChain })
  pushRecord S record

def checkServerDelist (L : Ledger) (record : Record) :
    Except LedgerError (Key × ServerState) := do
  let body ← (ServerDelist.decode record.body).mapError .wire
  refuseIf (record.author ≠ body.serverRoot) .authorMismatch
  let state ← okOr (L.servers.lookup body.serverRoot) .unknownServer
  refuseIf (record.createdMs ≤ state.lastMs) .nonMonotonic
  return (body.serverRoot, state)

def applyServerDelist (record : Record) : Method Ledger LedgerError RecordId := do
  let L ← get
  let (serverRoot, state) ← lift (checkServerDelist L record)
  modify (·.putServer serverRoot { state with lastMs := record.createdMs, delisted := true })
  pushRecord S record

/-- What `append` checks of every record. -/
def checkEnvelope (record : Record) (nowMs : UInt64) : Except LedgerError Unit := do
  refuseIf (record.v ≠ recordVersion) (.unsupportedVersion record.v)
  refuseIf (record.createdMs > saturatingAdd nowMs clockSkewMs)
    (.timestampInFuture record.createdMs nowMs)
  refuseIf (record.kind = .tombstone) .tombstoneNotAllowed
  (record.verifySignature S).mapError fun _ => .badSignature

/-- Validate `record` against the current state and append it if it is accepted. -/
def append (record : Record) (nowMs : UInt64) : Method Ledger LedgerError RecordId := do
  lift (checkEnvelope S record nowMs)
  match record.kind with
  | .identityAnnounce => applyAnnounce S record
  | .livenessProof => applyLiveness S record
  | .keyRotation => applyRotation S record
  | .serverRegister => applyServerRegister S record
  | .serverDelist => applyServerDelist S record
  | .identityRevoke => applyRevoke S record
  | .identityProfile => applyProfile S record
  | .tombstone => throw .tombstoneNotAllowed

/-- `sort_unstable` on keys: byte strings in lexicographic order. -/
def sortKeys (keys : List Key) : List Key :=
  keys.insertionSort fun a b => a.toList ≤ b.toList

/-- The first keys of the chains that are due, in ascending order. -/
def eligible (L : Ledger) (nowMs : UInt64) : List Key :=
  sortKeys ((L.chains.filter fun chain =>
    !chain.tombstoned &&
      saturatingSub nowMs chain.lastActivityMs > L.params.identityTtlMs).map Chain.rootIdk)

/-- One round of the evaporation loop. -/
def evaporateChain (nowMs : UInt64) (L : Ledger) (rootIdk : Key) : Ledger :=
  let chainId := (L.idkToChain.lookup rootIdk).get!
  ((L.updateChain chainId Chain.evaporated).delistOwned chainId).pushed S
    (Tombstone.toRecord { subject := rootIdk, evaporatedMs := nowMs })

/-- The ids of the new tombstones in order, and the ledger after them. -/
def evaporate (nowMs : UInt64) (L : Ledger) : List RecordId × Ledger :=
  (L.eligible nowMs).foldl
    (fun (ids, L) rootIdk =>
      (ids ++ [(Tombstone.toRecord { subject := rootIdk, evaporatedMs := nowMs }).id S],
        evaporateChain S nowMs L rootIdk))
    ([], L)

inductive Op where
  | append (record : Record) (nowMs : UInt64)
  | evaporate (nowMs : UInt64)

def Op.nowMs : Op → UInt64
  | .append _ nowMs => nowMs
  | .evaporate nowMs => nowMs

def step (L : Ledger) (op : Op) : Ledger :=
  match op with
  | .append record nowMs => ((append S record nowMs).call L).2
  | .evaporate nowMs => (evaporate S nowMs L).2

abbrev run (params : LedgerParams) (ops : List Op) : Ledger :=
  Steps.exec (step S) (new params) ops

section Sample

def sampleParams : LedgerParams where
  identityTtlMs := 10000
  minAnnouncePowBits := 8
  minLivenessPowBits := 8
  minPowMCostKib := 0
  minPowTCost := 0

def sampleKey (n : UInt8) : Key := .fill 32 n

def samplePow : Pow.PowProof where
  mCostKib := 32
  tCost := 1
  difficulty := 8
  nonce := .fill 16 0

def sampleRecord (kind : RecordKind) (body : Bytes) (author : Key) (createdMs : UInt64) : Record :=
  Record.sealWith kind body author createdMs (sampleSign author)

def sampleAnnounce (idk : Key) (createdMs : UInt64) : Record :=
  sampleRecord .identityAnnounce (IdentityAnnounce.encode {
    ikPub := idk, ikSig := sampleSign idk idk.toList, pow := samplePow, displayHint := "" })
    idk createdMs

def sampleRotation (prevIdk newIdk : Key) (createdMs : UInt64) : Record :=
  sampleRecord .keyRotation (KeyRotation.encode {
    prevIdk, newIdk, newIk := newIdk, newIkSig := sampleSign newIdk newIdk.toList
    linkSig := sampleSign prevIdk
      (KeyRotation.linkChallenge sampleSuite prevIdk newIdk newIdk).toList })
    newIdk createdMs

def sampleRevoke (idk : Key) (createdMs : UInt64) : Record :=
  sampleRecord .identityRevoke (IdentityRevoke.encode { revokedIdk := idk, reason := .retired })
    idk createdMs

def sampleServer (serverRoot : Key) : ServerRegister where
  serverRoot := serverRoot
  name := ""
  summary := ""
  tags := []
  entryRelays := []
  discoverable := true
  invite := ""
  pow := samplePow

def sampleRegister (serverRoot : Key) (createdMs : UInt64) : Record :=
  sampleRecord .serverRegister (sampleServer serverRoot).encode serverRoot createdMs

def sampleChain (idk : Key) (createdMs : UInt64) : Chain :=
  Chain.announced (sampleAnnounce idk createdMs)
    { ikPub := idk, ikSig := sampleSign idk idk.toList, pow := samplePow, displayHint := "" }

end Sample

end Ledger

end Dante
