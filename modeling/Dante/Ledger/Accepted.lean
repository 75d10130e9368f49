import Dante.Ledger.Ledger
import Mathlib.Logic.Relation

/-!
What an accepted record is. `Accepted` has one constructor for each way the log
can grow by a record, with the checks that were passed and the state after it.
Every property of the ledger below is proved for these eight steps and then holds
for all runs.
-/

namespace Dante.Ledger

open Crypto Identity Method Except

variable {S : Suite} {L L' : Ledger} {record : Record}
variable {chainId : Nat} {nowMs : UInt64}

/-- `key` is the tip of the usable chain `chainId`, and `createdMs` is later than
the chain's `newest` time. -/
structure TipOf (L : Ledger) (key : Key) (createdMs : UInt64) (newest : Chain → UInt64)
    (chainId : Nat) : Prop where
  lookup : L.idkToChain.lookup key = some chainId
  usable : L.chains[chainId]!.usable = true
  tip : L.chains[chainId]!.tipIdk = key
  newer : newest L.chains[chainId]! < createdMs

theorem tipOf_of_tipChain {key : Key} {createdMs : UInt64} {newest : Chain → UInt64}
    (hok : L.tipChain key createdMs newest = .ok chainId) :
    L.TipOf key createdMs newest chainId := by
  simp only [tipChain, bind_eq_ok, okOr_eq_ok, refuseIf_eq_ok, pure_eq_ok] at hok
  obtain ⟨found, hlookup, -, htombstoned, -, hrevoked, -, htip, -, hnewer, rfl⟩ := hok
  refine ⟨hlookup, ?_, ?_, ?_⟩
  · simp_all [Chain.usable]
  · exact (not_not.mp htip).symm
  · exact UInt64.not_le.mp hnewer

def registered (L : Ledger) (record : Record) : ServerState where
  recordIndex := L.store.length
  lastMs := record.createdMs
  delisted := false
  ownerChain := L.idkToChain.lookup record.author

def withdrawn (record : Record) (state : ServerState) : ServerState :=
  { state with lastMs := record.createdMs, delisted := true }

variable (S L record) in
inductive Accepted : Ledger → Prop where
  | announce (body : IdentityAnnounce) (hfresh : L.idkToChain.lookup record.author = none)
      (hkind : record.kind = .identityAnnounce)
      (hdecode : IdentityAnnounce.decode record.body = .ok body)
      (hsig : record.verifySignature S = .ok ())
      (hhint : body.displayHint.utf8ByteSize ≤ displayHintMax) :
      Accepted ((L.addChain S (.announced record body)).pushed S record)
  | liveness (body : LivenessProof) (chainId : Nat)
      (htip : L.TipOf record.author record.createdMs Chain.lastActivityMs chainId)
      (hkind : record.kind = .livenessProof)
      (hdecode : LivenessProof.decode record.body = .ok body)
      (hsig : record.verifySignature S = .ok ()) :
      Accepted ((L.updateChain chainId (.refreshed record.createdMs)).pushed S record)
  | rotation (body : KeyRotation) (chainId : Nat)
      (htip : L.TipOf body.prevIdk record.createdMs Chain.lastActivityMs chainId)
      (hfresh : L.idkToChain.lookup record.author = none) (hauthor : body.newIdk = record.author)
      (hkind : record.kind = .keyRotation) (hdecode : KeyRotation.decode record.body = .ok body)
      (hsig : record.verifySignature S = .ok ()) (hverify : body.verify S = .ok ()) :
      Accepted (((L.updateChain chainId (.rotated body record.createdMs)).bindKey record.author
        chainId).pushed S record)
  | revoke (body : IdentityRevoke) (chainId : Nat)
      (htip : L.TipOf record.author record.createdMs Chain.lastActivityMs chainId)
      (hkind : record.kind = .identityRevoke)
      (hdecode : IdentityRevoke.decode record.body = .ok body)
      (hsig : record.verifySignature S = .ok ()) :
      Accepted (((L.updateChain chainId (.revokedAt record.createdMs)).delistOwned
        chainId).pushed S record)
  | profile (body : IdentityProfile) (chainId : Nat)
      (htip : L.TipOf record.author record.createdMs Chain.profileMs chainId)
      (hkind : record.kind = .identityProfile)
      (hdecode : IdentityProfile.decode record.body = .ok body)
      (hsig : record.verifySignature S = .ok ()) :
      Accepted ((L.updateChain chainId (.profiled body record.createdMs)).pushed S record)
  | serverRegister (body : ServerRegister) (hroot : body.serverRoot = record.author)
      (hnewer : ∀ state, L.servers.lookup record.author = some state →
        state.lastMs < record.createdMs)
      (hkind : record.kind = .serverRegister)
      (hdecode : ServerRegister.decode record.body = .ok body)
      (hsig : record.verifySignature S = .ok ()) (hvalid : body.validate = .ok ()) :
      Accepted ((L.putServer record.author (L.registered record)).pushed S record)
  | serverDelist (body : ServerDelist) (state : ServerState)
      (hstate : L.servers.lookup record.author = some state)
      (hnewer : state.lastMs < record.createdMs) (hkind : record.kind = .serverDelist)
      (hdecode : ServerDelist.decode record.body = .ok body)
      (hsig : record.verifySignature S = .ok ()) :
      Accepted ((L.putServer record.author (withdrawn record state)).pushed S record)
  | tombstone (chain : Chain) (chainId : Nat) (nowMs : UInt64)
      (hchain : L.chains[chainId]? = some chain)
      (hlookup : L.idkToChain.lookup chain.rootIdk = some chainId)
      (halive : chain.tombstoned = false)
      (hdue : saturatingSub nowMs chain.lastActivityMs > L.params.identityTtlMs)
      (hrecord : record = Tombstone.toRecord { subject := chain.rootIdk, evaporatedMs := nowMs }) :
      Accepted (((L.updateChain chainId .evaporated).delistOwned chainId).pushed S record)

theorem Accepted.log (hstep : Accepted S L record L') :
    L'.store = L.store ++ [record] ∧
      L'.leaves = L.leaves ++ [Merkle.leafHash S.sha256 record.encode] ∧
      L'.byId = L.byId.insert (record.id S) L.store.length := by
  cases hstep <;> exact ⟨rfl, rfl, rfl⟩

/-- The state after `record`, if it is accepted, without the checks of the envelope. -/
def accept (S : Suite) (L : Ledger) (record : Record) : Except LedgerError Ledger :=
  match record.kind with
  | .identityAnnounce => do
    let body ← checkAnnounce S L record
    return (L.addChain S (.announced record body)).pushed S record
  | .livenessProof => do
    let chainId ← checkLiveness S L record
    return (L.updateChain chainId (.refreshed record.createdMs)).pushed S record
  | .keyRotation => do
    let (chainId, body) ← checkRotation S L record
    return ((L.updateChain chainId (.rotated body record.createdMs)).bindKey body.newIdk
      chainId).pushed S record
  | .serverRegister => do
    let body ← checkServerRegister S L record
    return (L.putServer body.serverRoot
      { recordIndex := L.store.length, lastMs := record.createdMs, delisted := false,
        ownerChain := L.idkToChain.lookup body.serverRoot }).pushed S record
  | .serverDelist => do
    let (serverRoot, state) ← checkServerDelist L record
    return (L.putServer serverRoot (withdrawn record state)).pushed S record
  | .identityRevoke => do
    let chainId ← checkRevoke S L record
    return ((L.updateChain chainId (.revokedAt record.createdMs)).delistOwned chainId).pushed S
      record
  | .identityProfile => do
    let (chainId, body) ← checkProfile L record
    return (L.updateChain chainId (.profiled body record.createdMs)).pushed S record
  | .tombstone => throw .tombstoneNotAllowed

/-- The outcome of `append`: all checks come before the first change, so a refused
record leaves the ledger as it was. -/
theorem call_append (S : Suite) (L : Ledger) (record : Record) (nowMs : UInt64) :
    (append S record nowMs).call L =
      match (checkEnvelope S record nowMs >>= fun _ => accept S L record) with
      | .ok L' => (.ok (record.id S), L')
      | .error e => (.error e, L) := by
  unfold append accept
  cases henvelope : checkEnvelope S record nowMs with
  | error e => exact call_bind_error (by rw [call_lift])
  | ok u =>
    rw [call_bind_ok (call_lift (.ok u) L)]
    cases record.kind with
    | identityAnnounce =>
      dsimp only [applyAnnounce]
      rw [call_validated]
      cases checkAnnounce S L record <;> rfl
    | livenessProof =>
      dsimp only [applyLiveness]
      rw [call_validated]
      cases checkLiveness S L record <;> rfl
    | keyRotation =>
      dsimp only [applyRotation]
      rw [call_validated]
      cases checkRotation S L record <;> rfl
    | serverRegister =>
      dsimp only [applyServerRegister]
      rw [call_validated]
      cases checkServerRegister S L record <;> rfl
    | serverDelist =>
      dsimp only [applyServerDelist]
      rw [call_validated]
      cases checkServerDelist L record <;> rfl
    | identityRevoke =>
      dsimp only [applyRevoke]
      rw [call_validated]
      cases checkRevoke S L record <;> rfl
    | identityProfile =>
      dsimp only [applyProfile]
      rw [call_validated]
      cases checkProfile L record <;> rfl
    | tombstone => rfl

theorem checkAnnounce_ok {body : IdentityAnnounce} (hkind : record.kind = .identityAnnounce)
    (hok : checkAnnounce S L record = .ok body) :
    IdentityAnnounce.decode record.body = .ok body ∧ L.idkToChain.lookup record.author = none ∧
      body.displayHint.utf8ByteSize ≤ displayHintMax := by
  simp only [checkAnnounce, IdentityRecord.fromRecord, hkind, bind_eq_ok, mapError_eq_ok,
    pure_eq_ok] at hok
  obtain ⟨_, ⟨decoded, hdecode, rfl⟩, hok⟩ := hok
  simp only [bind_eq_ok, refuseIf_eq_ok, mapError_eq_ok, pure_eq_ok] at hok
  obtain ⟨_, hfresh, key, -, _, hverify, rfl⟩ := hok
  exact ⟨hdecode, by simpa using hfresh, IdentityAnnounce.hint_of_verify hverify⟩

theorem checkLiveness_ok (hkind : record.kind = .livenessProof)
    (hok : checkLiveness S L record = .ok chainId) :
    L.TipOf record.author record.createdMs Chain.lastActivityMs chainId ∧
      ∃ body, LivenessProof.decode record.body = .ok body := by
  simp only [checkLiveness, IdentityRecord.fromRecord, hkind, bind_eq_ok, mapError_eq_ok,
    pure_eq_ok] at hok
  obtain ⟨_, ⟨decoded, hdecode, rfl⟩, hok⟩ := hok
  simp only [bind_eq_ok, pure_eq_ok] at hok
  obtain ⟨found, htip, key, -, _, -, rfl⟩ := hok
  exact ⟨tipOf_of_tipChain htip, decoded, hdecode⟩

theorem checkRotation_ok {body : KeyRotation} (hkind : record.kind = .keyRotation)
    (hok : checkRotation S L record = .ok (chainId, body)) :
    KeyRotation.decode record.body = .ok body ∧ body.newIdk = record.author ∧
      body.verify S = .ok () ∧
      L.TipOf body.prevIdk record.createdMs Chain.lastActivityMs chainId ∧
      L.idkToChain.lookup record.author = none := by
  simp only [checkRotation, IdentityRecord.fromRecord, hkind, bind_eq_ok, mapError_eq_ok,
    pure_eq_ok] at hok
  obtain ⟨_, ⟨decoded, hdecode, rfl⟩, hok⟩ := hok
  simp only [bind_eq_ok, refuseIf_eq_ok, mapError_eq_ok, pure_eq_ok, Prod.mk.injEq] at hok
  obtain ⟨_, hauthor, _, hverify, found, htip, _, hfresh, rfl, rfl⟩ := hok
  rw [not_not] at hauthor
  rw [← hauthor] at hfresh
  exact ⟨hdecode, hauthor.symm, hverify, tipOf_of_tipChain htip, by simpa using hfresh⟩

theorem checkRevoke_ok (hkind : record.kind = .identityRevoke)
    (hok : checkRevoke S L record = .ok chainId) :
    L.TipOf record.author record.createdMs Chain.lastActivityMs chainId ∧
      ∃ body, IdentityRevoke.decode record.body = .ok body := by
  simp only [checkRevoke, IdentityRecord.fromRecord, hkind, bind_eq_ok, mapError_eq_ok,
    pure_eq_ok] at hok
  obtain ⟨_, ⟨decoded, hdecode, rfl⟩, hok⟩ := hok
  simp only [bind_eq_ok] at hok
  obtain ⟨_, -, _, -, htip⟩ := hok
  exact ⟨tipOf_of_tipChain htip, decoded, hdecode⟩

theorem checkProfile_ok {body : IdentityProfile} (hkind : record.kind = .identityProfile)
    (hok : checkProfile L record = .ok (chainId, body)) :
    L.TipOf record.author record.createdMs Chain.profileMs chainId ∧
      IdentityProfile.decode record.body = .ok body := by
  simp only [checkProfile, IdentityRecord.fromRecord, hkind, bind_eq_ok, mapError_eq_ok,
    pure_eq_ok] at hok
  obtain ⟨_, ⟨decoded, hdecode, rfl⟩, hok⟩ := hok
  simp only [bind_eq_ok, pure_eq_ok, Prod.mk.injEq] at hok
  obtain ⟨found, htip, rfl, rfl⟩ := hok
  exact ⟨tipOf_of_tipChain htip, hdecode⟩

theorem checkServerRegister_ok {body : ServerRegister}
    (hok : checkServerRegister S L record = .ok body) :
    ServerRegister.decode record.body = .ok body ∧ body.serverRoot = record.author ∧
      body.validate = .ok () ∧
      ∀ state, L.servers.lookup record.author = some state → state.lastMs < record.createdMs := by
  simp only [checkServerRegister, bind_eq_ok, mapError_eq_ok, refuseIf_eq_ok, pure_eq_ok] at hok
  obtain ⟨decoded, hdecode, _, hauthor, _, hvalid, _, -, _, hnewer, rfl⟩ := hok
  rw [not_not] at hauthor
  refine ⟨hdecode, hauthor.symm, hvalid, fun state hstate => ?_⟩
  rw [← hauthor, hstate] at hnewer
  simpa using hnewer

theorem checkServerDelist_ok {serverRoot : Key} {state : ServerState}
    (hok : checkServerDelist L record = .ok (serverRoot, state)) :
    (∃ body, ServerDelist.decode record.body = .ok body) ∧ serverRoot = record.author ∧
      L.servers.lookup record.author = some state ∧ state.lastMs < record.createdMs := by
  simp only [checkServerDelist, bind_eq_ok, mapError_eq_ok, okOr_eq_ok, refuseIf_eq_ok,
    pure_eq_ok, Prod.mk.injEq] at hok
  obtain ⟨decoded, hdecode, _, hauthor, found, hstate, _, hnewer, rfl, rfl⟩ := hok
  rw [not_not] at hauthor
  exact ⟨⟨decoded, hdecode⟩, hauthor.symm, hauthor ▸ hstate, UInt64.not_le.mp hnewer⟩

theorem checkEnvelope_ok (hok : checkEnvelope S record nowMs = .ok ()) :
    record.v = recordVersion ∧ record.createdMs ≤ saturatingAdd nowMs clockSkewMs ∧
      record.kind ≠ .tombstone ∧ record.verifySignature S = .ok () := by
  simp only [checkEnvelope, bind_eq_ok, mapError_eq_ok, refuseIf_eq_ok] at hok
  obtain ⟨_, hversion, _, htime, _, hkind, hsig⟩ := hok
  exact ⟨not_not.mp hversion, UInt64.not_lt.mp htime, hkind, hsig⟩

theorem accepted_of_accept (hsig : record.verifySignature S = .ok ())
    (hok : accept S L record = .ok L') : Accepted S L record L' := by
  unfold accept at hok
  cases hkind : record.kind with
  | identityAnnounce =>
    simp only [hkind, bind_eq_ok, pure_eq_ok] at hok
    obtain ⟨body, hcheck, rfl⟩ := hok
    obtain ⟨hdecode, hfresh, hhint⟩ := checkAnnounce_ok hkind hcheck
    exact .announce body hfresh hkind hdecode hsig hhint
  | livenessProof =>
    simp only [hkind, bind_eq_ok, pure_eq_ok] at hok
    obtain ⟨chainId, hcheck, rfl⟩ := hok
    obtain ⟨htip, body, hdecode⟩ := checkLiveness_ok hkind hcheck
    exact .liveness body chainId htip hkind hdecode hsig
  | keyRotation =>
    simp only [hkind, bind_eq_ok, pure_eq_ok] at hok
    obtain ⟨⟨chainId, body⟩, hcheck, rfl⟩ := hok
    obtain ⟨hdecode, hauthor, hverify, htip, hfresh⟩ := checkRotation_ok hkind hcheck
    rw [hauthor]
    exact .rotation body chainId htip hfresh hauthor hkind hdecode hsig hverify
  | serverRegister =>
    simp only [hkind, bind_eq_ok, pure_eq_ok] at hok
    obtain ⟨body, hcheck, rfl⟩ := hok
    obtain ⟨hdecode, hroot, hvalid, hnewer⟩ := checkServerRegister_ok hcheck
    rw [hroot]
    exact .serverRegister body hroot hnewer hkind hdecode hsig hvalid
  | serverDelist =>
    simp only [hkind, bind_eq_ok, pure_eq_ok] at hok
    obtain ⟨⟨serverRoot, state⟩, hcheck, rfl⟩ := hok
    obtain ⟨⟨body, hdecode⟩, rfl, hstate, hnewer⟩ := checkServerDelist_ok hcheck
    exact .serverDelist body state hstate hnewer hkind hdecode hsig
  | tombstone =>
    rw [hkind] at hok
    cases hok
  | identityRevoke =>
    simp only [hkind, bind_eq_ok, pure_eq_ok] at hok
    obtain ⟨chainId, hcheck, rfl⟩ := hok
    obtain ⟨htip, body, hdecode⟩ := checkRevoke_ok hkind hcheck
    exact .revoke body chainId htip hkind hdecode hsig
  | identityProfile =>
    simp only [hkind, bind_eq_ok, pure_eq_ok] at hok
    obtain ⟨⟨chainId, body⟩, hcheck, rfl⟩ := hok
    obtain ⟨htip, hdecode⟩ := checkProfile_ok hkind hcheck
    exact .profile body chainId htip hkind hdecode hsig

/-- An accepted record passed the checks of the envelope and those of its kind. -/
theorem accept_of_append {id : RecordId} (hok : (append S record nowMs).call L = (.ok id, L')) :
    checkEnvelope S record nowMs = .ok () ∧ accept S L record = .ok L' := by
  rw [call_append] at hok
  cases hall : (checkEnvelope S record nowMs >>= fun _ => accept S L record) with
  | error e =>
    rw [hall] at hok
    cases hok
  | ok L'' =>
    rw [hall] at hok
    cases hok
    obtain ⟨_, henvelope, haccept⟩ := bind_eq_ok.mp hall
    exact ⟨henvelope, haccept⟩

theorem accepted_of_append {id : RecordId} (hok : (append S record nowMs).call L = (.ok id, L')) :
    Accepted S L record L' := by
  obtain ⟨henvelope, haccept⟩ := accept_of_append hok
  exact accepted_of_accept (checkEnvelope_ok henvelope).2.2.2 haccept

theorem eq_of_append_error {e : LedgerError}
    (herror : (append S record nowMs).call L = (.error e, L')) : L' = L := by
  rw [call_append] at herror
  split at herror
  · cases herror
  · cases herror
    rfl

end Dante.Ledger
