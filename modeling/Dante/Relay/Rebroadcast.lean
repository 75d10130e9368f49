import Dante.Ledger.Index

/-!
The records that relays pass on to each other. A relay publishes what its ledger has newly taken,
and so does every relay that hears it. The ledger takes no record twice, which is all that keeps
a record from going round for ever.
-/

namespace Dante.Relay

open Crypto Ledger

def ledgerOutboxCap : Nat := 1024

/-- A relay's ledger, what waits to be published, and what has been published so far. -/
structure Rebroadcast where
  ledger : Ledger
  ledgerOutbox : List Bytes
  published : List Bytes

namespace Rebroadcast

def queueRebroadcast (relay : Rebroadcast) (blob : Bytes) : Rebroadcast :=
  { relay with
    ledgerOutbox := (relay.ledgerOutbox ++ [blob]).drop
      (relay.ledgerOutbox.length + 1 - ledgerOutboxCap) }

variable (S : Suite)

/-- Whether the record is new. What a client submits is queued in the same way. -/
def ingestGossipedRecord (relay : Rebroadcast) (blob : Bytes) (now : UInt64) :
    Bool × Rebroadcast :=
  match Record.decode blob with
  | .error _ => (false, relay)
  | .ok record =>
    match (append S record now).call relay.ledger with
    | (.ok _, ledger) => (true, { relay with ledger }.queueRebroadcast blob)
    | (.error _, ledger) => (false, { relay with ledger })

def takeLedgerOutbox (relay : Rebroadcast) : List Bytes × Rebroadcast :=
  (relay.ledgerOutbox, { relay with ledgerOutbox := [] })

inductive Op where
  | hear (blob : Bytes) (now : UInt64)
  | maintain (now : UInt64)
  | publish

def step (relay : Rebroadcast) : Op → Rebroadcast
  | .hear blob now => (relay.ingestGossipedRecord S blob now).2
  | .maintain now => { relay with ledger := (evaporate S now relay.ledger).2 }
  | .publish =>
    let (blobs, relay) := relay.takeLedgerOutbox
    { relay with published := relay.published ++ blobs }

variable {S} {relay : Rebroadcast}

/-- Whatever was queued stands for a record of the log, and nothing was queued twice. -/
structure Once (S : Suite) (relay : Rebroadcast) : Prop where
  keys : KeysIndexed relay.ledger
  logged : Logged S relay.ledger
  stored : ∀ blob ∈ relay.published ++ relay.ledgerOutbox,
    ∃ record ∈ relay.ledger.store, Record.decode blob = .ok record
  nodup : (relay.published ++ relay.ledgerOutbox).Nodup

/-- The ledger may go on by itself. -/
theorem Once.advance (h : Once S relay) {L : Ledger} (hreach : Reaches S relay.ledger L) :
    Once S { relay with ledger := L } where
  keys := hreach.keysIndexed h.keys
  logged := hreach.logged h.keys h.logged
  stored blob hblob := by
    obtain ⟨record, hmem, hdecode⟩ := h.stored blob hblob
    exact ⟨record, (hreach.later h.keys).store.subset hmem, hdecode⟩
  nodup := h.nodup

theorem Once.ingest (h : Once S relay) (blob : Bytes) (now : UInt64) :
    Once S (relay.ingestGossipedRecord S blob now).2 := by
  unfold ingestGossipedRecord
  split
  · exact h
  · rename_i record hdecode
    split
    · rename_i id L hcall
      have haccepted := accepted_of_append hcall
      have hnext := h.advance (.single ⟨record, haccepted⟩)
      unfold queueRebroadcast
      generalize relay.ledgerOutbox.length + 1 - ledgerOutboxCap = excess
      have hqueued := (List.drop_sublist excess (relay.ledgerOutbox ++ [blob])).append_left
        relay.published
      rw [← List.append_assoc] at hqueued
      refine ⟨hnext.keys, hnext.logged, fun other hother => ?_, hqueued.nodup ?_⟩
      · rcases List.mem_append.mp (hqueued.subset hother) with hold | hnew
        · exact hnext.stored other hold
        · exact ⟨record, by simp [haccepted.log.1], by simp_all⟩
      · refine List.nodup_append.mpr ⟨h.nodup, List.nodup_singleton _, ?_⟩
        -- a second copy would be of a record that the log has already
        rintro other hother _ hblob rfl
        obtain ⟨found, hmem, hfound⟩ := h.stored other hother
        obtain rfl : found = record := by simp_all
        exact haccepted.not_absorbed h.keys (h.logged.absorbed found hmem)
    · rename_i e L hcall
      rw [eq_of_append_error hcall]
      exact h

/-- Whatever a relay hears, in whatever order and however often, it publishes a record of its log
each time, and none twice. -/
theorem published_once_run (S : Suite) (params : LedgerParams) (ops : List Op) :
    let relay := Steps.exec (step S) ⟨.new params, [], []⟩ ops
    relay.published.Nodup ∧ ∀ blob ∈ relay.published,
      ∃ record ∈ relay.ledger.store, Record.decode blob = .ok record := by
  intro relay
  have h : Once S relay := by
    refine Steps.exec_invariant (Once S) (fun relay op h _ => ?_)
      ⟨.new params, .new S params, by simp, by simp⟩ (Steps.along_of_forall fun _ _ => trivial)
    cases op with
    | hear blob now => exact h.ingest blob now
    | maintain now => exact h.advance (reaches_evaporate h.keys)
    | publish =>
      refine ⟨h.keys, h.logged, ?_, ?_⟩
      · simpa [step, takeLedgerOutbox] using h.stored
      · simpa [step, takeLedgerOutbox] using h.nodup
  exact ⟨(List.nodup_append.mp h.nodup).1,
    fun blob hblob => h.stored blob (List.mem_append_left _ hblob)⟩

end Rebroadcast

end Dante.Relay
