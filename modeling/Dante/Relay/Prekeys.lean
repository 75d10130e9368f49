import Dante.Core.Messenger
import Dante.Dm.Bundle

/-!
The relay's directory of prekey bundles. A bundle is stored under its first 32 bytes,
whoever sends it, and the client that fetches it checks it against the ledger. Each
fetch takes one one-time prekey out of the stored bundle.
-/

namespace Dante.Relay

open Dante.Core Crypto Dm Method Except

def maxPrekeyBytes : Nat := 16 * 1024

def maxPrekeyIdentities : Nat := 100000

def leadingId (blob : Bytes) : Option Hash :=
  if h : 32 ≤ blob.length then
    some (.ofList (blob.take 32) (by rw [List.length_take]; omega))
  else none

structure PrekeyStore where
  prekeys : AssocMap Hash Bytes

namespace PrekeyStore

def new : PrekeyStore where
  prekeys := ∅

variable (store : PrekeyStore)

def DirectoryFull (id : Hash) : Prop :=
  store.prekeys.lookup id = none ∧ store.prekeys.entries.length ≥ maxPrekeyIdentities

instance (id : Hash) : Decidable (store.DirectoryFull id) :=
  inferInstanceAs (Decidable (_ ∧ _))

def withBundle (id : Hash) (blob : Bytes) : PrekeyStore where
  prekeys := store.prekeys.insert id blob

/-- The checks of `PublishPrekeys`, and the id to store the bundle under. -/
def checkPublish (limited : Bool) (blob : Bytes) : Except String Hash := do
  refuseIf (limited = true) "rate limited"
  refuseIf (blob.length > maxPrekeyBytes) "prekey bundle too large"
  let id ← okOr (leadingId blob) "malformed prekey bundle"
  refuseIf (store.DirectoryFull id) "prekey directory full"
  return id

def publishPrekeys (limited : Bool) (blob : Bytes) : Method PrekeyStore String Unit := do
  let store ← get
  let id ← lift (store.checkPublish limited blob)
  set (store.withBundle id blob)

/-- A stored bundle without its first one-time prekey, and the bundle with only that one. -/
def sliced (stored : Bytes) : Option (Bytes × Bytes) :=
  match PreKeyBundle.decode stored with
  | .ok bundle =>
    match bundle.otps with
    | handed :: rest => some (PreKeyBundle.encode { bundle with otps := rest },
        PreKeyBundle.encode { bundle with otps := [handed] })
    | [] => none
  | .error _ => none

def getPrekeys (limited : Bool) (id : Hash) : Method PrekeyStore String (Option Bytes) := do
  let store ← get
  lift (refuseIf (limited = true) "rate limited")
  match store.prekeys.lookup id with
  | some stored =>
    match sliced stored with
    | some (remaining, out) =>
      set (store.withBundle id remaining)
      return some out
    | none => return some stored
  | none => return none

/-- What a sibling's bundle is stored as: without its one-time prekeys. -/
def stripped (blob : Bytes) : Option Bytes :=
  match PreKeyBundle.decode blob with
  | .ok bundle => if bundle.otps ≠ [] then some (PreKeyBundle.encode { bundle with otps := [] })
    else some blob
  | .error _ => none

/-- Fold a bundle of a sibling into the directory. -/
def ingestGossipedPrekey (blob : Bytes) : Bool × PrekeyStore :=
  if blob.length > maxPrekeyBytes then (false, store)
  else
    match leadingId blob with
    | none => (false, store)
    | some id =>
      if store.DirectoryFull id then (false, store)
      else
        match stripped blob with
        | some kept => (true, store.withBundle id kept)
        | none => (false, store)

end PrekeyStore

inductive PrekeyOp where
  | publish (limited : Bool) (blob : Bytes)
  | gossip (blob : Bytes)
  | get (limited : Bool) (id : Hash)

open PrekeyStore

def PrekeyStore.step (store : PrekeyStore) : PrekeyOp → PrekeyStore
  | .publish limited blob => ((publishPrekeys limited blob).call store).2
  | .gossip blob => (store.ingestGossipedPrekey blob).2
  | .get limited id => ((getPrekeys limited id).call store).2

theorem sliced_eq_some {stored remaining out : Bytes}
    (h : sliced stored = some (remaining, out)) :
    ∃ bundle handed rest, PreKeyBundle.decode stored = .ok bundle ∧
      bundle.otps = handed :: rest ∧
      remaining = PreKeyBundle.encode { bundle with otps := rest } ∧
      out = PreKeyBundle.encode { bundle with otps := [handed] } := by
  unfold sliced at h
  split at h
  · rename_i bundle hdecode
    split at h
    · rename_i handed rest hotps
      cases h
      exact ⟨bundle, handed, rest, hdecode, hotps, rfl, rfl⟩
    · cases h
  · cases h

theorem call_getPrekeys (store : PrekeyStore) (id : Hash) :
    (getPrekeys false id).call store =
      match store.prekeys.lookup id with
      | some stored =>
        match sliced stored with
        | some (remaining, out) => (.ok (some out), store.withBundle id remaining)
        | none => (.ok (some stored), store)
      | none => (.ok none, store) := by
  rw [getPrekeys, call_bind_ok (call_get store)]
  cases hlookup : store.prekeys.lookup id with
  | none => rfl
  | some stored =>
    dsimp only
    cases hsliced : sliced stored with
    | none => rfl
    | some cut => rfl

section Acceptable

variable {S : Suite} {peerId : Hash} {peer : Peer}

/-- The checks of `send_content` on a fetched bundle: it decodes, it names the peer's id and the
keys that the ledger has for it, and its signatures verify. -/
def Acceptable (S : Suite) (peerId : Hash) (peer : Peer) (blob : Bytes) : Prop :=
  match PreKeyBundle.decode blob with
  | .ok bundle =>
    bundle.idkPub = peer.idk ∧ bundle.identityId = peerId ∧ bundle.ikPub = peer.ik ∧
      bundle.verify S = .ok ()
  | .error _ => False

instance (blob : Bytes) : Decidable (Acceptable S peerId peer blob) :=
  match hdecode : PreKeyBundle.decode blob with
  | .ok bundle =>
    decidable_of_iff (bundle.idkPub = peer.idk ∧ bundle.identityId = peerId ∧
      bundle.ikPub = peer.ik ∧ bundle.verify S = .ok ()) (by rw [Acceptable, hdecode])
  | .error _ => isFalse (by rw [Acceptable, hdecode]; exact id)

theorem acceptable_iff {blob : Bytes} :
    Acceptable S peerId peer blob ↔ ∃ bundle, PreKeyBundle.decode blob = .ok bundle ∧
      bundle.idkPub = peer.idk ∧ bundle.identityId = peerId ∧ bundle.ikPub = peer.ik ∧
      bundle.verify S = .ok () := by
  unfold Acceptable
  cases PreKeyBundle.decode blob <;> simp

/-- A client without a session goes on to the handshake exactly with an acceptable bundle. -/
theorem preparePacket_acceptable (P : Primitives) {client : Client S} {blob : Bytes}
    {bundle : PreKeyBundle} (plaintext : Bytes) (secrets : SendSecrets)
    (hsession : client.sessions.lookup peer.idk = none)
    (hdecode : PreKeyBundle.decode blob = .ok bundle) :
    ((Client.preparePacket P peerId peer (.ok bundle) plaintext secrets).call client).1 ≠
        .error .badPeerPrekeys ↔ Acceptable S peerId peer blob := by
  have haccept : Acceptable S peerId peer blob ↔ bundle.idkPub = peer.idk ∧
      bundle.identityId = peerId ∧ bundle.ikPub = peer.ik ∧ bundle.verify S = .ok () := by
    rw [Acceptable, hdecode]
  rw [haccept, Client.preparePacket, call_bind_ok (call_get client)]
  simp only [hsession]
  rw [call_bind_ok (call_lift _ _), call_bind, call_lift]
  by_cases hnames : bundle.idkPub ≠ peer.idk ∨ bundle.identityId ≠ peerId
  · rw [refuseIf, if_pos hnames]
    simp only [ne_eq, not_true_eq_false, false_iff]
    grind
  rw [refuseIf, if_neg hnames]
  dsimp only
  rw [call_bind, call_lift]
  by_cases hik : bundle.ikPub ≠ peer.ik
  · rw [refuseIf, if_pos hik]
    simp only [ne_eq, not_true_eq_false, false_iff]
    grind
  rw [refuseIf, if_neg hik]
  dsimp only
  rw [call_bind, call_lift]
  cases hverify : bundle.verify S with
  | error e => simp [Except.mapError]
  | ok u =>
    have hright : bundle.idkPub = peer.idk ∧ bundle.identityId = peerId ∧
        bundle.ikPub = peer.ik := by grind
    rw [mapError_ok]
    dsimp only
    rw [call_bind, call_lift]
    cases Session.initiate P client.identity bundle plaintext secrets.ek secrets.dhs with
    | error e => simp [Except.mapError, hright]
    | ok result =>
      apply iff_of_true _ ⟨hright.1, hright.2.1, hright.2.2, rfl⟩
      intro herror
      cases herror

/-- A bundle with some of the one-time prekeys of an acceptable one is acceptable. -/
theorem Acceptable.sublist {blob : Bytes} {bundle : PreKeyBundle}
    (h : Acceptable S peerId peer blob) (hdecode : PreKeyBundle.decode blob = .ok bundle)
    {otps : List (Key × Signature)} (hsub : ∀ otp ∈ otps, otp ∈ bundle.otps)
    (hlen : otps.length ≤ bundle.otps.length) :
    Acceptable S peerId peer (PreKeyBundle.encode { bundle with otps }) := by
  obtain ⟨found, hfound, hidk, hid, hik, hverify⟩ := acceptable_iff.mp h
  obtain rfl : found = bundle := Except.ok.inj (hfound.symm.trans hdecode)
  have hword := PreKeyBundle.otps_length_of_decode hdecode
  exact acceptable_iff.mpr ⟨{ found with otps }, PreKeyBundle.decode_encode (hlen.trans_lt hword),
    hidk, hid, hik, PreKeyBundle.verify_of_subset hverify hsub⟩

theorem Acceptable.sliced {stored remaining out : Bytes} (h : Acceptable S peerId peer stored)
    (hsliced : sliced stored = some (remaining, out)) :
    Acceptable S peerId peer remaining ∧ Acceptable S peerId peer out := by
  obtain ⟨bundle, handed, rest, hdecode, hotps, rfl, rfl⟩ := sliced_eq_some hsliced
  constructor
  · apply h.sublist hdecode
    · intro otp hotp
      rw [hotps]
      exact List.mem_cons_of_mem _ hotp
    · rw [hotps]
      exact Nat.le_succ _
  · apply h.sublist hdecode
    · intro otp hotp
      rw [hotps, List.mem_singleton.mp hotp]
      exact List.mem_cons_self
    · simp [hotps]

theorem Acceptable.stripped {blob kept : Bytes} (h : Acceptable S peerId peer blob)
    (hkept : stripped blob = some kept) : Acceptable S peerId peer kept := by
  obtain ⟨bundle, hdecode, -⟩ := acceptable_iff.mp h
  unfold PrekeyStore.stripped at hkept
  rw [hdecode] at hkept
  dsimp only at hkept
  split at hkept
  · cases hkept
    exact h.sublist hdecode (fun _ hotp => by cases hotp) (Nat.zero_le _)
  · cases hkept
    exact h

end Acceptable

section Writers

variable {S : Suite} {peerId : Hash} {peer : Peer} {store : PrekeyStore}

/-- Whatever is stored under the peer's id is acceptable for it. -/
def WritesAcceptable (S : Suite) (peerId : Hash) (peer : Peer) : PrekeyOp → Prop
  | .publish _ blob => leadingId blob = some peerId → Acceptable S peerId peer blob
  | .gossip blob => leadingId blob = some peerId → Acceptable S peerId peer blob
  | .get _ _ => True

instance (op : PrekeyOp) : Decidable (WritesAcceptable S peerId peer op) :=
  match op with
  | .publish _ blob =>
    inferInstanceAs (Decidable (leadingId blob = some peerId → Acceptable S peerId peer blob))
  | .gossip blob =>
    inferInstanceAs (Decidable (leadingId blob = some peerId → Acceptable S peerId peer blob))
  | .get _ _ => isTrue trivial

/-- The directory has an acceptable bundle for the peer. -/
def Serves (S : Suite) (peerId : Hash) (peer : Peer) (store : PrekeyStore) : Prop :=
  ∃ stored, store.prekeys.lookup peerId = some stored ∧ Acceptable S peerId peer stored

theorem Serves.withBundle (h : Serves S peerId peer store) {id : Hash} {blob : Bytes}
    (hblob : id = peerId → Acceptable S peerId peer blob) :
    Serves S peerId peer (store.withBundle id blob) := by
  obtain ⟨stored, hstored, hacceptable⟩ := h
  rw [Serves, PrekeyStore.withBundle]
  dsimp only
  rw [AssocMap.lookup_insert]
  split
  · rename_i heq
    exact ⟨blob, rfl, hblob heq.symm⟩
  · exact ⟨stored, hstored, hacceptable⟩

theorem call_publishPrekeys (store : PrekeyStore) (limited : Bool) (blob : Bytes) :
    (publishPrekeys limited blob).call store =
      match store.checkPublish limited blob with
      | .ok id => (.ok (), store.withBundle id blob)
      | .error reason => (.error reason, store) := by
  rw [publishPrekeys, call_validated]
  cases store.checkPublish limited blob with
  | error reason => rfl
  | ok id => rfl

theorem leadingId_of_checkPublish {limited : Bool} {blob : Bytes} {id : Hash}
    (hcheck : store.checkPublish limited blob = .ok id) :
    limited = false ∧ blob.length ≤ maxPrekeyBytes ∧ leadingId blob = some id := by
  simp only [checkPublish, bind_eq_ok, refuseIf_eq_ok, okOr_eq_ok, pure_eq_ok] at hcheck
  obtain ⟨-, hlimited, -, hsize, found, hfound, -, -, rfl⟩ := hcheck
  exact ⟨Bool.eq_false_of_not_eq_true hlimited, Nat.not_lt.mp hsize, hfound⟩

theorem Serves.step (h : Serves S peerId peer store) {op : PrekeyOp}
    (hop : WritesAcceptable S peerId peer op) : Serves S peerId peer (store.step op) := by
  cases op with
  | publish limited blob =>
    rw [PrekeyStore.step, call_publishPrekeys]
    split
    · rename_i id hcheck
      apply h.withBundle
      rintro rfl
      exact hop (leadingId_of_checkPublish hcheck).2.2
    · exact h
  | gossip blob =>
    rw [PrekeyStore.step, ingestGossipedPrekey]
    split
    · exact h
    split
    · exact h
    rename_i id hid
    split
    · exact h
    split
    · rename_i kept hkept
      apply h.withBundle
      rintro rfl
      exact (hop hid).stripped hkept
    · exact h
  | get limited id =>
    cases limited with
    | true => exact h
    | false =>
      rw [PrekeyStore.step, call_getPrekeys]
      split
      · rename_i stored hstored
        split
        · rename_i remaining out hsliced
          apply h.withBundle
          rintro rfl
          obtain ⟨held, hheld, hacceptable⟩ := h
          cases hheld.symm.trans hstored
          exact (hacceptable.sliced hsliced).1
        · exact h
      · exact h

theorem Serves.reply (h : Serves S peerId peer store) {limited : Bool} {reply : Option Bytes}
    {store' : PrekeyStore}
    (hcall : (getPrekeys limited peerId).call store = (.ok reply, store')) :
    ∃ out, reply = some out ∧ Acceptable S peerId peer out := by
  obtain ⟨stored, hstored, hacceptable⟩ := h
  cases limited with
  | true => cases hcall
  | false =>
    rw [call_getPrekeys, hstored] at hcall
    dsimp only at hcall
    split at hcall
    · rename_i remaining out hsliced
      cases hcall
      exact ⟨out, rfl, (hacceptable.sliced hsliced).2⟩
    · cases hcall
      exact ⟨stored, rfl, hacceptable⟩

end Writers

/-- Once the peer has published a bundle that is acceptable for it, every later answer to
`GetPrekeys` is acceptable, in every run in which whatever else is stored under its id is
acceptable, too. -/
theorem prekeys_acceptable_run (S : Suite) (peerId : Hash) (peer : Peer)
    (before after : List PrekeyOp) (limited : Bool) (blob : Bytes) (published : PrekeyStore)
    (hpublish : (publishPrekeys limited blob).call (Steps.exec PrekeyStore.step .new before) =
      (.ok (), published))
    (hid : leadingId blob = some peerId) (hacceptable : Acceptable S peerId peer blob)
    (hwriters : ∀ op ∈ after, WritesAcceptable S peerId peer op)
    (limited' : Bool) (reply : Option Bytes) (store' : PrekeyStore)
    (hget : (getPrekeys limited' peerId).call (Steps.exec PrekeyStore.step published after) =
      (.ok reply, store')) :
    ∃ out, reply = some out ∧ Acceptable S peerId peer out := by
  have hserves : Serves S peerId peer published := by
    rw [call_publishPrekeys] at hpublish
    split at hpublish
    · rename_i id hcheck
      cases (leadingId_of_checkPublish hcheck).2.2.symm.trans hid
      cases hpublish
      exact ⟨blob, AList.lookup_insert _, hacceptable⟩
    · cases hpublish
  have hlater : Serves S peerId peer (Steps.exec PrekeyStore.step published after) :=
    Steps.exec_invariant (Serves S peerId peer) (fun _ _ h hop => h.step hop) hserves
      (Steps.along_of_forall hwriters)
  exact hlater.reply hget

def sampleOwner : Identity sampleSuite := sampleIdentity (.fill 32 1) (.fill 32 11)

def sampleSecrets : PreKeySecrets where
  spk := .fill 32 50
  otps := [.fill 32 51, .fill 32 52]

def sampleBundle : PreKeyBundle := sampleSecrets.bundle samplePrimitives sampleOwner

def sampleOwnerKeys : Peer where
  idk := sampleOwner.idk
  ik := sampleOwner.agreePublic samplePrimitives

def sampleDirectory (after : List PrekeyOp) : PrekeyStore :=
  Steps.exec PrekeyStore.step ((publishPrekeys false sampleBundle.encode).call .new).2 after

/-- The owner's bundle, a fetch, and the bundle again from a sibling. -/
theorem prekeys_acceptable_sample :
    ∃ out, some (PreKeyBundle.encode { sampleBundle with otps := [] }) = some out ∧
      Acceptable sampleSuite sampleOwner.id sampleOwnerKeys out :=
  prekeys_acceptable_run sampleSuite sampleOwner.id sampleOwnerKeys []
    [.get false sampleOwner.id, .gossip sampleBundle.encode] false sampleBundle.encode _
    (call_eq_of_fst (by decide +kernel)) (by decide +kernel) (by decide +kernel)
    (by decide +kernel) false _ _ (call_eq_of_fst (by decide +kernel))

/-- Anyone publishes the 32 bytes of the owner's id, and the next fetch returns them. -/
theorem prekeys_overwritten :
    ((publishPrekeys false sampleBundle.encode).call .new).1 = .ok () ∧
      Acceptable sampleSuite sampleOwner.id sampleOwnerKeys sampleBundle.encode ∧
      ((getPrekeys false sampleOwner.id).call
        (sampleDirectory [.publish false sampleOwner.id.toList])).1 =
        .ok (some sampleOwner.id.toList) ∧
      ¬ Acceptable sampleSuite sampleOwner.id sampleOwnerKeys sampleOwner.id.toList := by
  decide +kernel

end Dante.Relay
