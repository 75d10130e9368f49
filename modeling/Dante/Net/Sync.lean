import Dante.Ledger.Ledger

/-!
Pulling a relay's log into a local replica. The client asks for the relay's tree
head and then for the records in batches; each record that decodes is offered to
the local ledger, and one that is refused is skipped. The relay answers from its
own ledger, which does not change while one pull runs.
-/

namespace Dante.Net

open Crypto Method

inductive Request where
  | getTreeHead
  | getRecords (fromIdx toIdx : Nat)
  deriving DecidableEq, Repr

inductive Response where
  | treeHead (size : Nat) (root : Hash)
  | records (blobs : List Bytes)
  | error (message : String)
  deriving DecidableEq

inductive NetError where
  | unexpectedResponse (request : String)
  | rejectedEnvelope (why : String)
  deriving DecidableEq, Repr

def maxGetRecords : Nat := 512

/-- The relay's answer. `allowed` is the verdict of its rate limiter. -/
def handle (S : Suite) (ledger : Ledger) (allowed : Bool) (request : Request) : Response :=
  match request with
  | .getTreeHead =>
    if !allowed then
      .error "rate limited"
    else
      let head := ledger.head S
      .treeHead head.size head.root
  | .getRecords fromIdx toIdx =>
    if !allowed then
      .error "rate limited"
    else
      let fromIdx := min fromIdx ledger.len
      let toIdx := min (min toIdx ledger.len) (fromIdx + maxGetRecords)
      .records ((List.range' fromIdx (toIdx - fromIdx)).filterMap fun i =>
        (ledger.record i).map Record.encode)

section Pull

variable {σ : Type} (request : Request → Except NetError Response)
  (apply : Record → UInt64 → σ → Bool × σ) (nowMs : UInt64)

/-- Offer one record, and count it if it is accepted. -/
def applyRecord (state : Nat × σ) (record : Record) : Nat × σ :=
  let (ok, s) := apply record nowMs state.2
  (if ok then state.1 + 1 else state.1, s)

/-- Undecodable blobs are skipped. -/
def applyBlob (state : Nat × σ) (blob : Bytes) : Nat × σ :=
  match Record.decode blob with
  | .ok record => applyRecord apply nowMs state record
  | .error _ => state

def applyBlobs (accepted : Nat) (blobs : List Bytes) : Method σ NetError Nat := do
  let s ← get
  let (accepted, s) := blobs.foldl (applyBlob apply nowMs) (accepted, s)
  set s
  return accepted

/-- The loop over the batches: the cursor moves on by a whole batch, whatever the
relay has sent for it. -/
def pullLoop (batch : Nat) (hbatch : 0 < batch) (size fromIdx accepted : Nat) :
    Method σ NetError (Nat × Nat) :=
  if fromIdx < size then do
    let toIdx := min (fromIdx + batch) size
    let .records blobs ← lift (request (.getRecords fromIdx toIdx))
      | throw (.unexpectedResponse "GetRecords")
    if blobs.isEmpty then
      return (fromIdx, accepted)
    let accepted ← applyBlobs apply nowMs accepted blobs
    pullLoop batch hbatch size toIdx accepted
  else
    return (fromIdx, accepted)
termination_by size - fromIdx

/-- The position to resume from, and how many records were accepted. -/
def pullRecords (localLen batch : Nat) (hbatch : 0 < batch) : Method σ NetError (Nat × Nat) := do
  let .treeHead size _ ← lift (request .getTreeHead)
    | throw (.unexpectedResponse "GetTreeHead")
  if size ≤ localLen then
    return (localLen, 0)
  pullLoop request apply nowMs batch hbatch size localLen 0

end Pull

structure Engine where
  ledger : Ledger
  relayLedgerCursor : Nat

namespace Engine

/-- The callback that feeds the local replica. -/
def applyToLedger (S : Suite) (record : Record) (nowMs : UInt64) (engine : Engine) :
    Bool × Engine :=
  let (result, ledger) := (Ledger.append S record nowMs).call engine.ledger
  (result.isOk, { engine with ledger })

/-- Pull new records from the relay. Returns how many were accepted. -/
def sync (S : Suite) (request : Request → Except NetError Response) (nowMs : UInt64) :
    Method Engine NetError Nat := do
  let engine ← get
  let (newCursor, accepted) ← pullRecords request (applyToLedger S) nowMs
    engine.relayLedgerCursor 256 (by decide)
  modify fun engine => { engine with relayLedgerCursor := newCursor }
  return accepted

end Engine

end Dante.Net
