import Dante.Net.Replica

/-!
Syncs with several relays. The client keeps one position, `relay_ledger_cursor`, and asks whichever
relay it is connected to for the log behind it. The part of a log before the position is never asked
for, also if another relay has set it.

The engine is run together with the list of the records that were offered to its ledger.
-/

namespace Dante.Net

open Crypto Enc Ledger Method

variable {S : Suite} {nowMs : UInt64}

section View

variable {σ τ : Type} {view : σ → τ} {request : Request → Except NetError Response}
  {apply : Record → UInt64 → σ → Bool × σ} {apply' : Record → UInt64 → τ → Bool × τ}

/-- `apply'` does on the view what `apply` does on the state. -/
def Mirrors (view : σ → τ) (apply : Record → UInt64 → σ → Bool × σ)
    (apply' : Record → UInt64 → τ → Bool × τ) : Prop :=
  ∀ record nowMs s, apply' record nowMs (view s) =
    ((apply record nowMs s).1, view (apply record nowMs s).2)

theorem Mirrors.applyBlob (h : Mirrors view apply apply') (state : Nat × σ) (blob : Bytes) :
    applyBlob apply' nowMs (state.1, view state.2) blob =
      ((applyBlob apply nowMs state blob).1, view (applyBlob apply nowMs state blob).2) := by
  unfold Net.applyBlob
  cases Record.decode blob with
  | ok record => simp only [applyRecord, h record nowMs state.2]
  | error e => rfl

theorem Mirrors.applyBlobs (h : Mirrors view apply apply') (accepted : Nat) (blobs : List Bytes) :
    Projects view (applyBlobs apply nowMs accepted blobs)
      (applyBlobs apply' nowMs accepted blobs) := by
  have hfold : ∀ state : Nat × σ,
      blobs.foldl (Net.applyBlob apply' nowMs) (state.1, view state.2) =
        ((blobs.foldl (Net.applyBlob apply nowMs) state).1,
          view (blobs.foldl (Net.applyBlob apply nowMs) state).2) := by
    induction blobs with
    | nil => intro state; rfl
    | cons blob rest ih =>
      intro state
      rw [List.foldl_cons, List.foldl_cons, h.applyBlob]
      exact ih _
  intro s
  have hcall := hfold (accepted, s)
  simp only at hcall
  simp only [Net.applyBlobs, call_bind_ok (call_get _), hcall]
  rfl

theorem Mirrors.pullLoop (h : Mirrors view apply apply') (batch : Nat) (hbatch : 0 < batch)
    (size fromIdx accepted : Nat) :
    Projects view (pullLoop request apply nowMs batch hbatch size fromIdx accepted)
      (pullLoop request apply' nowMs batch hbatch size fromIdx accepted) := by
  -- the induction is on what is left of the log
  induction hleft : size - fromIdx using Nat.strong_induction_on
    generalizing fromIdx accepted with
  | _ left ih =>
    rw [Net.pullLoop, Net.pullLoop]
    split
    · refine (projects_lift _).bind fun response => ?_
      cases response with
      | records blobs =>
        dsimp only
        split
        · exact projects_pure _
        · exact (h.applyBlobs accepted blobs).bind fun accepted =>
            ih _ (by omega) _ accepted rfl
      | treeHead size root => exact projects_throw _
      | error message => exact projects_throw _
    · exact projects_pure _

theorem Mirrors.pullRecords (h : Mirrors view apply apply') (localLen batch : Nat)
    (hbatch : 0 < batch) :
    Projects view (pullRecords request apply nowMs localLen batch hbatch)
      (pullRecords request apply' nowMs localLen batch hbatch) := by
  refine (projects_lift _).bind fun response => ?_
  cases response with
  | treeHead size root =>
    dsimp only
    split
    · exact projects_pure _
    · exact h.pullLoop batch hbatch size localLen 0
  | records blobs => exact projects_throw _
  | error message => exact projects_throw _

end View

/-- An engine, and the records that were offered to its ledger since it started. -/
structure Watched where
  engine : Engine
  offered : List Record

namespace Watched

def new (params : LedgerParams) : Watched where
  engine := { ledger := Ledger.new params, relayLedgerCursor := 0 }
  offered := []

def cursor (w : Watched) : Nat := w.engine.relayLedgerCursor

/-- The callback of a sync, with a note of the record. -/
def offer (S : Suite) (record : Record) (nowMs : UInt64) (w : Watched) : Bool × Watched :=
  let (ok, engine) := Engine.applyToLedger S record nowMs w.engine
  (ok, { engine, offered := w.offered ++ [record] })

theorem batch_pos : 0 < 256 := by decide

/-- `Engine.sync`, with a note of every record that is offered. -/
def sync (S : Suite) (request : Request → Except NetError Response) (nowMs : UInt64) :
    Method Watched NetError Nat := do
  let w ← get
  let (newCursor, accepted) ← pullRecords request (offer S) nowMs w.cursor 256 batch_pos
  modify fun w => { w with engine := { w.engine with relayLedgerCursor := newCursor } }
  return accepted

theorem mirrors_offer (S : Suite) :
    Mirrors Watched.engine (offer S) (Engine.applyToLedger S) := fun _ _ _ => rfl

/-- The history changes nothing about the engine. -/
theorem projects_sync (S : Suite) (request : Request → Except NetError Response)
    (nowMs : UInt64) : Projects Watched.engine (sync S request nowMs)
      (Engine.sync S request nowMs) := by
  intro w
  have hnext : Projects Watched.engine
      (do
        let (newCursor, accepted) ← pullRecords request (offer S) nowMs w.cursor 256 (by decide)
        modify fun w => { w with engine := { w.engine with relayLedgerCursor := newCursor } }
        return accepted)
      (do
        let (newCursor, accepted) ← pullRecords request (Engine.applyToLedger S) nowMs w.cursor
          256 (by decide)
        modify fun engine => { engine with relayLedgerCursor := newCursor }
        return accepted) :=
    ((mirrors_offer S).pullRecords w.cursor 256 (by decide)).bind fun _ _ => rfl
  exact hnext w

theorem foldl_offer (S : Suite) (nowMs : UInt64) (records : List Record) (accepted : Nat)
    (w : Watched) :
    let final := (records.foldl (applyRecord (offer S) nowMs) (accepted, w)).2
    final.cursor = w.cursor ∧ final.offered = w.offered ++ records := by
  induction records generalizing accepted w with
  | nil => simp
  | cons record rest ih =>
    obtain ⟨hcursor, hoffered⟩ := ih (applyRecord (offer S) nowMs (accepted, w) record).1
      (applyRecord (offer S) nowMs (accepted, w) record).2
    refine ⟨hcursor, hoffered.trans ?_⟩
    simp [applyRecord, offer]

end Watched

/-- A relay's ledger, of which the records matter here: they may be any that fit the wire, in
any order, with a leaf of the tree for each. -/
structure Source where
  ledger : Ledger
  leaves : ledger.leaves.length = ledger.store.length
  fits : ∀ record ∈ ledger.store, record.body.length < 2 ^ 32

namespace Source

def log (source : Source) : List Record := source.ledger.store

/-- A relay that started with an empty ledger. -/
def ofRun (S : Suite) (params : LedgerParams) (ops : List Op) : Source where
  ledger := run S params ops
  leaves := by simp [(logged_run S params ops).leaves]
  fits := fun record hmem =>
    ((Reader.decodeAll_eq_ok_iff Record.codec).mp (decode_encode_run S params ops record hmem)).2

end Source

/-- One call of `sync`: the relay that serves it with the log it has then, the verdicts of its
rate limiter and the requests that fail on the way. -/
structure SyncCall where
  source : Source
  allowed : Request → Bool
  lost : Request → Option NetError
  nowMs : UInt64

namespace SyncCall

def request (S : Suite) (call : SyncCall) (r : Request) : Except NetError Response :=
  match call.lost r with
  | some e => .error e
  | none => .ok (handle S call.source.ledger (call.allowed r) r)

theorem request_cases (S : Suite) (call : SyncCall) (r : Request) :
    call.request S r = serve S call.source.ledger r ∨ Refuses (call.request S r) := by
  unfold request
  cases call.lost r with
  | some e => exact .inr (.inl ⟨e, rfl⟩)
  | none =>
    cases call.allowed r with
    | true => exact .inl rfl
    | false => cases r <;> exact .inr (.inr ⟨_, rfl⟩)

def sync (S : Suite) (call : SyncCall) : Method Watched NetError Nat :=
  Watched.sync S (call.request S) call.nowMs

/-- A call that succeeds offers the log behind the cursor and moves the cursor to its end,
unless the cursor is further on. A call that fails offers a part of it and leaves the cursor. -/
theorem call_sync_cases (S : Suite) (call : SyncCall) (w : Watched) :
    (∃ e w' n, (call.sync S).call w = (.error e, w') ∧ w'.cursor = w.cursor ∧
      w'.offered = w.offered ++ (call.source.log.drop w.cursor).take n) ∨
    ∃ accepted w', (call.sync S).call w = (.ok accepted, w') ∧
      w'.cursor = max w.cursor call.source.log.length ∧
      w'.offered = w.offered ++ call.source.log.drop w.cursor := by
  have hdecodes : ∀ record ∈ call.source.ledger.store,
      Record.decode record.encode = .ok record :=
    fun record hmem => Record.decode_encode (call.source.fits record hmem)
  unfold sync Watched.sync
  rw [call_bind_ok (call_get w)]
  rcases call_pullRecords_cases (Watched.offer S) call.nowMs 256 (by decide) (by decide)
    call.source.leaves hdecodes (call.request_cases S) w.cursor w with ⟨-, e, n, hcall⟩ | hcall
  · obtain ⟨hcursor, hoffered⟩ := Watched.foldl_offer S call.nowMs
      ((call.source.log.drop w.cursor).take n) 0 w
    exact .inl ⟨e, _, n, call_bind_error hcall, hcursor, hoffered⟩
  · obtain ⟨-, hoffered⟩ := Watched.foldl_offer S call.nowMs
      (call.source.log.drop w.cursor) 0 w
    rw [call_bind_ok hcall]
    exact .inr ⟨_, _, rfl, rfl, hoffered⟩

end SyncCall

namespace Watched

def step (S : Suite) (w : Watched) (call : SyncCall) : Watched := ((call.sync S).call w).2

def Covers (w : Watched) (log : List Record) : Prop := ∀ record ∈ log, record ∈ w.offered

/-- After a sync that succeeded, every record of the relay's log has been offered exactly when
those before the old cursor had been offered already or come once more behind it. -/
theorem sync_covers_iff (S : Suite) (params : LedgerParams) (calls : List SyncCall)
    (call : SyncCall) :
    let before := Steps.exec (step S) (new params) calls
    ((call.sync S).call before).1.isOk →
      ((step S before call).Covers call.source.log ↔
        ∀ record ∈ call.source.log.take before.cursor,
          record ∈ before.offered ∨ record ∈ call.source.log.drop before.cursor) := by
  intro before hok
  rcases call.call_sync_cases S before with ⟨e, w', n, hcall, -⟩ | ⟨_, w', hcall, -, hoffered⟩
  · rw [hcall] at hok
    contradiction
  · rw [step, hcall]
    simp only [Covers, hoffered, List.mem_append]
    constructor
    · intro h record hmem
      exact h record (List.mem_of_mem_take hmem)
    · intro h record hmem
      rw [← List.take_append_drop before.cursor call.source.log, List.mem_append] at hmem
      rcases hmem with hfirst | hrest
      · exact h record hfirst
      · exact .inr hrest

def sampleSync (keys : List UInt8) : SyncCall where
  source := .ofRun sampleSuite sampleParams
    (keys.map fun n => .append (sampleAnnounce (sampleKey n) 1000) 1000)
  allowed := fun _ => true
  lost := fun _ => none
  nowMs := 5000

/-- The second relay has the record of the first one in the same place. -/
theorem sync_covers_sample :
    let before := Steps.exec (step sampleSuite) (new sampleParams) [sampleSync [1]]
    ((sampleSync [1, 2]).source.log.length = 2 ∧ before.cursor = 1) ∧
      (step sampleSuite before (sampleSync [1, 2])).Covers (sampleSync [1, 2]).source.log := by
  refine ⟨by decide +kernel, ?_⟩
  exact (sync_covers_iff sampleSuite sampleParams [sampleSync [1]] (sampleSync [1, 2])
    (by decide +kernel)).mpr (by decide +kernel)

/-- After a sync with a relay that has one record, the client takes the one record of another
relay for known: the sync succeeds, and the record was never offered. -/
theorem sync_misses_record :
    let before := Steps.exec (step sampleSuite) (new sampleParams) [sampleSync [1]]
    (((sampleSync [2]).sync sampleSuite).call before).1.isOk ∧
      (sampleSync [2]).source.log = [sampleAnnounce (sampleKey 2) 1000] ∧
      (step sampleSuite before (sampleSync [2])).offered = [sampleAnnounce (sampleKey 1) 1000] ∧
      (step sampleSuite before (sampleSync [2])).engine.ledger.isLive (sampleKey 2) = false := by
  decide +kernel

end Watched

end Dante.Net
