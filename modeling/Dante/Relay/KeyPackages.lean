import Dante.Ledger.Ledger

/-!
The relay's directory of MLS key packages. Each identity has a queue, the oldest package is handed
out first and the last one stays. Nothing in the signed bytes of a batch says when it was made, so
it can be published again.
-/

namespace Dante.Relay

open Crypto Enc Method Except

def maxKeypkgsPerIdentity : Nat := 32

def maxKeypkgBytes : Nat := 16 * 1024

def maxKeypkgIdentities : Nat := 100000

def writeBlobList (blobs : List Bytes) : Bytes :=
  Writer.u32 (UInt32.ofNat blobs.length) ++ blobs.flatMap Writer.bytes

def keypkgPublishChallenge (S : Suite) (identity : Hash) (keyPackages : List Bytes) : Hash :=
  sha256Parts S.sha256 ["dante/relay-write/publish-key-packages/v1".toUTF8.toList,
    Writer.fixed identity ++ writeBlobList keyPackages]

structure KeyPackageBatch where
  identity : Hash
  keyPackages : List Bytes
  sig : Signature
  deriving DecidableEq

structure KeyPackageStore where
  ledger : Ledger
  keyPackages : AssocMap Hash (List Bytes)

namespace KeyPackageStore

def new (ledger : Ledger) : KeyPackageStore where
  ledger := ledger
  keyPackages := ∅

variable (S : Suite) (store : KeyPackageStore)

/-- `self.key_packages.entry(identity).or_default()` -/
def queue (identity : Hash) : List Bytes := (store.keyPackages.lookup identity).getD []

/-- A queue without its oldest packages beyond the cap. -/
def capped (queue : List Bytes) : List Bytes := queue.drop (queue.length - maxKeypkgsPerIdentity)

def DirectoryFull (identity : Hash) : Prop :=
  store.keyPackages.lookup identity = none ∧
    store.keyPackages.entries.length ≥ maxKeypkgIdentities

instance (identity : Hash) : Decidable (store.DirectoryFull identity) :=
  inferInstanceAs (Decidable (_ ∧ _))

def verifyKeypkgPublishSig (batch : KeyPackageBatch) : Except String Unit := do
  let idk ← okOr (store.ledger.idkForId batch.identity) "unknown identity"
  refuseIf (¬ Verifies S idk
    (keypkgPublishChallenge S batch.identity batch.keyPackages).toList batch.sig) "bad signature"

def checkPublish (limited : Bool) (batch : KeyPackageBatch) : Except String Unit := do
  refuseIf (limited = true) "rate limited"
  refuseIf (∃ package ∈ batch.keyPackages, package = [] ∨ package.length > maxKeypkgBytes)
    "bad key package"
  store.verifyKeypkgPublishSig S batch
  refuseIf (store.DirectoryFull batch.identity) "key package directory full"

def withQueue (identity : Hash) (queue : List Bytes) : KeyPackageStore :=
  { store with keyPackages := store.keyPackages.insert identity queue }

def publishKeyPackages (limited : Bool) (batch : KeyPackageBatch) :
    Method KeyPackageStore String Unit := do
  let store ← get
  lift (store.checkPublish S limited batch)
  set (store.withQueue batch.identity (capped (store.queue batch.identity ++ batch.keyPackages)))

/-- The oldest package, which is removed if it is not the only one. -/
def getKeyPackage (limited : Bool) (identity : Hash) :
    Method KeyPackageStore String (Option Bytes) := do
  let store ← get
  lift (refuseIf (limited = true) "rate limited")
  match store.queue identity with
  | oldest :: next :: rest =>
    set (store.withQueue identity (next :: rest))
    return some oldest
  | queue => return queue.head?

/-- The checks on a sibling's batch. -/
def AdmitsBatch (batch : KeyPackageBatch) : Prop :=
  batch.keyPackages ≠ [] ∧
    (∀ package ∈ batch.keyPackages, package.length ≤ maxKeypkgBytes) ∧
    store.verifyKeypkgPublishSig S batch = .ok () ∧ ¬ store.DirectoryFull batch.identity

instance (batch : KeyPackageBatch) : Decidable (store.AdmitsBatch S batch) :=
  inferInstanceAs (Decidable (_ ∧ _ ∧ _ ∧ _))

/-- Adopt the last package of a sibling's batch, if we hold none for the identity. -/
def ingestGossipedKeypackage (message : Option KeyPackageBatch) : Bool × KeyPackageStore :=
  match message with
  | none => (false, store)
  | some batch =>
    if ¬ store.AdmitsBatch S batch then (false, store)
    else
      match batch.keyPackages.getLast? with
      | none => (false, store)
      | some last =>
        if store.queue batch.identity = [] then (true, store.withQueue batch.identity [last])
        else (false, store.withQueue batch.identity (store.queue batch.identity))

def removes (limited : Bool) (identity : Hash) : Option Bytes :=
  if limited = true then none
  else
    match store.queue identity with
    | oldest :: _ :: _ => some oldest
    | _ => none

end KeyPackageStore

inductive KeyPackageOp where
  | publish (limited : Bool) (batch : KeyPackageBatch)
  | get (limited : Bool) (identity : Hash)
  | gossip (message : Option KeyPackageBatch)
  /-- Whatever changes the ledger. -/
  | ledger (ledger : Ledger)

/-- A relay, and the packages that it has handed out and removed. -/
structure KeyPackageHistory where
  store : KeyPackageStore
  consumed : List (Hash × Bytes)

namespace KeyPackageHistory

open KeyPackageStore

variable {S : Suite} {history : KeyPackageHistory}

def start (ledger : Ledger) : KeyPackageHistory where
  store := .new ledger
  consumed := []

def step (S : Suite) (history : KeyPackageHistory) : KeyPackageOp → KeyPackageHistory
  | .publish limited batch =>
    { history with store := ((publishKeyPackages S limited batch).call history.store).2 }
  | .get limited identity =>
    { store := ((getKeyPackage limited identity).call history.store).2
      consumed := history.consumed ++
        ((history.store.removes limited identity).map fun package => (identity, package)).toList }
  | .gossip message =>
    { history with store := (history.store.ingestGossipedKeypackage S message).2 }
  | .ledger ledger => { history with store := { history.store with ledger } }

/-- The packages of a batch are new: neither queued nor consumed before, and no two the same. -/
def NewPackages (history : KeyPackageHistory) (batch : KeyPackageBatch) : Prop :=
  batch.keyPackages.Nodup ∧ ∀ package ∈ batch.keyPackages,
    package ∉ history.store.queue batch.identity ∧ (batch.identity, package) ∉ history.consumed

instance (batch : KeyPackageBatch) : Decidable (history.NewPackages batch) :=
  inferInstanceAs (Decidable (_ ∧ _))

/-- No batch brings a package a second time. -/
def NoReplay (history : KeyPackageHistory) : KeyPackageOp → Prop
  | .publish _ batch => history.NewPackages batch
  | .gossip (some batch) => history.NewPackages batch
  | _ => True

instance (op : KeyPackageOp) : Decidable (history.NoReplay op) :=
  match op with
  | .publish _ batch => inferInstanceAs (Decidable (history.NewPackages batch))
  | .gossip (some batch) => inferInstanceAs (Decidable (history.NewPackages batch))
  | .gossip none => isTrue trivial
  | .get .. => isTrue trivial
  | .ledger .. => isTrue trivial

/-- What is queued is queued once and was never consumed. -/
structure SingleUse (history : KeyPackageHistory) : Prop where
  nodup : ∀ identity, (history.store.queue identity).Nodup
  unused : ∀ identity, ∀ package ∈ history.store.queue identity,
    (identity, package) ∉ history.consumed

theorem queue_withQueue (store : KeyPackageStore) (identity other : Hash) (queue : List Bytes) :
    (store.withQueue identity queue).queue other =
      if other = identity then queue else store.queue other := by
  rw [KeyPackageStore.queue, withQueue, AssocMap.lookup_insert]
  split <;> rfl

/-- A new queue for an identity without repetitions and without consumed packages. -/
theorem SingleUse.withQueue (h : history.SingleUse) {identity : Hash} {queue : List Bytes}
    (hnodup : queue.Nodup) (hunused : ∀ package ∈ queue, (identity, package) ∉ history.consumed) :
    ({ history with store := history.store.withQueue identity queue } :
      KeyPackageHistory).SingleUse where
  nodup := by
    intro other
    rw [queue_withQueue]
    split
    · exact hnodup
    · exact h.nodup other
  unused := by
    intro other package hpackage
    rw [queue_withQueue] at hpackage
    split at hpackage
    · rename_i heq
      rw [heq]
      exact hunused package hpackage
    · exact h.unused other package hpackage

theorem SingleUse.publish (h : history.SingleUse) {limited : Bool} {batch : KeyPackageBatch}
    (hnew : history.NewPackages batch) : (history.step S (.publish limited batch)).SingleUse := by
  rw [step, publishKeyPackages, call_validated]
  cases history.store.checkPublish S limited batch with
  | error reason => exact h
  | ok u =>
    have hsuffix : capped (history.store.queue batch.identity ++ batch.keyPackages) <:+
        history.store.queue batch.identity ++ batch.keyPackages := List.drop_suffix _ _
    apply h.withQueue
    · apply List.Nodup.sublist hsuffix.sublist
      apply List.Nodup.append (h.nodup batch.identity) hnew.1
      intro package hqueued hbatch
      exact (hnew.2 package hbatch).1 hqueued
    · intro package hpackage
      rcases List.mem_append.mp (hsuffix.mem hpackage) with hqueued | hbatch
      · exact h.unused batch.identity package hqueued
      · exact (hnew.2 package hbatch).2

theorem SingleUse.gossip (h : history.SingleUse) {message : Option KeyPackageBatch}
    (hnew : history.NoReplay (.gossip message)) :
    (history.step S (.gossip message)).SingleUse := by
  cases message with
  | none => exact h
  | some batch =>
    rw [step, ingestGossipedKeypackage]
    split
    · exact h
    · cases hlast : batch.keyPackages.getLast? with
      | none => exact h
      | some last =>
        dsimp only
        split
        · apply h.withQueue (List.nodup_singleton last)
          intro package hpackage
          rw [List.mem_singleton.mp hpackage]
          exact (hnew.2 last (List.mem_of_getLast? hlast)).2
        · exact h.withQueue (h.nodup batch.identity) (h.unused batch.identity)

theorem call_getKeyPackage (store : KeyPackageStore) (limited : Bool) (identity : Hash) :
    (getKeyPackage limited identity).call store =
      if limited = true then (.error "rate limited", store)
      else match store.queue identity with
        | oldest :: next :: rest => (.ok (some oldest), store.withQueue identity (next :: rest))
        | queue => (.ok queue.head?, store) := by
  rw [getKeyPackage, call_bind_ok (call_get store)]
  cases limited with
  | true => rfl
  | false => rcases store.queue identity with _ | ⟨oldest, _ | ⟨next, rest⟩⟩ <;> rfl

theorem SingleUse.remove (h : history.SingleUse) {identity : Hash} {oldest : Bytes}
    {rest : List Bytes} (hqueue : history.store.queue identity = oldest :: rest) :
    ({ store := history.store.withQueue identity rest
       consumed := history.consumed ++ [(identity, oldest)] } : KeyPackageHistory).SingleUse := by
  have hnodup := h.nodup identity
  have hunused := h.unused identity
  rw [hqueue] at hnodup hunused
  obtain ⟨hfirst, hrest⟩ := List.nodup_cons.mp hnodup
  have hkept := h.withQueue hrest fun package hpackage =>
    hunused package (List.mem_cons_of_mem _ hpackage)
  constructor
  · exact hkept.nodup
  · intro other package hpackage hconsumed
    rcases List.mem_append.mp hconsumed with hold | hnow
    · exact hkept.unused other package hpackage hold
    · -- the removed package is not queued a second time
      cases List.mem_singleton.mp hnow
      apply hfirst
      rw [queue_withQueue, if_pos rfl] at hpackage
      exact hpackage

theorem SingleUse.get (h : history.SingleUse) (limited : Bool) (identity : Hash) :
    (history.step S (.get limited identity)).SingleUse := by
  rw [step, call_getKeyPackage, removes]
  split
  · simpa using h
  · rcases hqueue : history.store.queue identity with _ | ⟨oldest, _ | ⟨next, rest⟩⟩
    · simpa using h
    · simpa using h
    · exact h.remove hqueue

theorem SingleUse.step (h : history.SingleUse) {op : KeyPackageOp} (hop : history.NoReplay op) :
    (history.step S op).SingleUse := by
  cases op with
  | publish limited batch => exact h.publish hop
  | get limited identity => exact h.get limited identity
  | gossip message => exact h.gossip hop
  | ledger ledger => exact ⟨h.nodup, h.unused⟩

theorem singleUse_start (ledger : Ledger) : (start ledger).SingleUse where
  nodup := fun _ => List.nodup_nil
  unused := fun _ _ hpackage => by cases hpackage

end KeyPackageHistory

open KeyPackageStore KeyPackageHistory

/-- In every run in which no batch brings a package a second time, `GetKeyPackage` returns none of
the packages that it has removed from the identity's queue before. -/
theorem consumed_never_served_run (S : Suite) (ledger : Ledger) (ops : List KeyPackageOp)
    (hnoreplay : Steps.Along (KeyPackageHistory.step S) NoReplay (.start ledger) ops)
    (limited : Bool) (identity : Hash) (package : Bytes) (store' : KeyPackageStore) :
    let history := Steps.exec (KeyPackageHistory.step S) (.start ledger) ops
    (getKeyPackage limited identity).call history.store = (.ok (some package), store') →
      (identity, package) ∉ history.consumed := by
  intro history hcall
  have hsingle : history.SingleUse :=
    Steps.exec_invariant SingleUse (fun _ _ h hop => h.step hop) (singleUse_start ledger) hnoreplay
  apply hsingle.unused
  rw [call_getKeyPackage] at hcall
  split at hcall
  · cases hcall
  · rcases hqueue : history.store.queue identity with _ | ⟨oldest, _ | ⟨next, rest⟩⟩
    all_goals
      rw [hqueue] at hcall
      cases hcall
    · exact List.mem_cons_self
    · exact List.mem_cons_self

section Samples

open Ledger

def sampleKeyLedger : Ledger :=
  run sampleSuite sampleParams [.append (sampleAnnounce (sampleKey 1) 1000) 1000]

def sampleBatch (keyPackages : List Bytes) : KeyPackageBatch :=
  let identity := sampleSuite.sha256 (sampleKey 1).toList
  { identity := identity
    keyPackages := keyPackages
    sig := sampleSign (sampleKey 1)
      (keypkgPublishChallenge sampleSuite identity keyPackages).toList }

def sampleTwoBatches (second : List Bytes) : List KeyPackageOp :=
  [.publish false (sampleBatch [[1], [2]]), .get false (sampleBatch []).identity,
    .publish false (sampleBatch second), .get false (sampleBatch []).identity]

def sampleConsumed (second : List Bytes) : KeyPackageHistory :=
  Steps.exec (KeyPackageHistory.step sampleSuite) (.start sampleKeyLedger)
    (sampleTwoBatches second)

theorem consumed_never_served_sample :
    ((sampleBatch []).identity, [3]) ∉ (sampleConsumed [[3], [4]]).consumed :=
  consumed_never_served_run sampleSuite sampleKeyLedger (sampleTwoBatches [[3], [4]])
    (by decide +kernel) false (sampleBatch []).identity [3] _
    (call_eq_of_fst (by decide +kernel))

/-- Anyone who has seen the first batch publishes it again, and the package that was consumed
first is served again. -/
theorem consumed_served_again :
    ((sampleBatch []).identity, [1]) ∈ (sampleConsumed [[1], [2]]).consumed ∧
      ((getKeyPackage false (sampleBatch []).identity).call
        (sampleConsumed [[1], [2]]).store).1 = .ok (some [1]) := by
  decide +kernel

end Samples

end Dante.Relay
