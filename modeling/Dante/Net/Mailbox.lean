import Dante.Net.Sync
import Dante.Proto.Envelope

/-!
The relay's mailbox: envelopes kept under the hint they are addressed to. A fetch
walks through the slots of the polled hints and stops when its answer would grow
beyond a transport frame.
-/

namespace Dante.Net

open Method Except

/-- `MAX_TTL_MS`, two weeks. -/
def maxTtlMs : UInt32 := 14 * 24 * 60 * 60 * 1000

def maxClockSkewMs : UInt64 := 5 * 60 * 1000

def maxEnvelopeBytes : Nat := 1048576 + 256

def maxMailboxBytes : Nat := 64 * 1024 * 1024

def maxHintDepth : Nat := 512

def maxFetchBytes : Nat := 7 * 1024 * 1024

/-- The stored size: the payload and a fixed header. -/
def envSize (env : Envelope) : Nat := env.payload.length + 28

structure Mailbox where
  byHint : AssocMap Hint (List Envelope)
  count : Nat
  bytes : Nat

namespace Mailbox

def new : Mailbox where
  byHint := ∅
  count := 0
  bytes := 0

def slot (mailbox : Mailbox) (hint : Hint) : List Envelope :=
  (mailbox.byHint.lookup hint).getD []

def checkDeposit (mailbox : Mailbox) (env : Envelope) (nowMs : UInt64) : Except NetError Unit := do
  refuseIf (env.ttlMs > maxTtlMs) (.rejectedEnvelope "ttl exceeds the relay maximum")
  refuseIf (env.depositedMs > saturatingAdd nowMs maxClockSkewMs)
    (.rejectedEnvelope "deposited_ms is in the future")
  refuseIf (env.isExpired nowMs = true) (.rejectedEnvelope "already expired")
  refuseIf (envSize env > maxEnvelopeBytes) (.rejectedEnvelope "envelope exceeds the size limit")
  refuseIf (mailbox.bytes + envSize env > maxMailboxBytes) (.rejectedEnvelope "mailbox is full")
  refuseIf ((mailbox.slot env.recipientHint).length ≥ maxHintDepth)
    (.rejectedEnvelope "recipient mailbox is full")

def stored (mailbox : Mailbox) (env : Envelope) : Mailbox where
  byHint := mailbox.byHint.insert env.recipientHint (mailbox.slot env.recipientHint ++ [env])
  count := mailbox.count + 1
  bytes := mailbox.bytes + envSize env

def deposit (env : Envelope) (nowMs : UInt64) : Method Mailbox NetError Unit := do
  let mailbox ← get
  lift (mailbox.checkDeposit env nowMs)
  set (mailbox.stored env)

/-- The envelopes of the polled slots that are recent enough and not expired, in the
order of the loops. -/
def candidates (mailbox : Mailbox) (hints : List Hint) (sinceMs nowMs : UInt64) : List Envelope :=
  hints.flatMap fun hint =>
    (mailbox.slot hint).filter fun env => sinceMs ≤ env.depositedMs && !env.isExpired nowMs

/-- The longest front of the list that fits the byte budget. -/
def withinBudget (used : Nat) : List Envelope → List Envelope
  | [] => []
  | env :: rest =>
    if used + envSize env > maxFetchBytes then
      []
    else
      env :: withinBudget (used + envSize env) rest

/-- The envelopes for any of `hints` since `sinceMs`, oldest first. -/
def fetch (mailbox : Mailbox) (hints : List Hint) (sinceMs nowMs : UInt64) : List Envelope :=
  (withinBudget 0 (mailbox.candidates hints sinceMs nowMs)).mergeSort
    fun a b => a.depositedMs ≤ b.depositedMs

/-- The envelopes of a slot that have not expired; an empty slot goes. -/
def liveSlot (nowMs : UInt64) (slot : List Envelope) : Option (List Envelope) :=
  let kept := slot.filter fun env => !env.isExpired nowMs
  if kept.isEmpty then none else some kept

/-- Drop expired envelopes. Returns how many were removed. -/
def gc (mailbox : Mailbox) (nowMs : UInt64) : Nat × Mailbox :=
  let expired := mailbox.byHint.values.flatten.filter fun env => env.isExpired nowMs
  (expired.length,
    { byHint := AssocMap.filterMapValues (liveSlot nowMs) mailbox.byHint
      count := mailbox.count - expired.length
      bytes := mailbox.bytes - (expired.map envSize).sum })

variable {mailbox : Mailbox} {env : Envelope} {hints : List Hint} {sinceMs nowMs : UInt64}

theorem mem_candidates :
    env ∈ mailbox.candidates hints sinceMs nowMs ↔
      (∃ hint ∈ hints, env ∈ mailbox.slot hint) ∧ sinceMs ≤ env.depositedMs ∧
        env.isExpired nowMs = false := by
  simp only [candidates, List.mem_flatMap, List.mem_filter, Bool.and_eq_true, decide_eq_true_eq,
    Bool.not_eq_true']
  constructor
  · rintro ⟨hint, hhint, hslot, hrecent, hlive⟩
    exact ⟨⟨hint, hhint, hslot⟩, hrecent, hlive⟩
  · rintro ⟨⟨hint, hhint, hslot⟩, hrecent, hlive⟩
    exact ⟨hint, hhint, hslot, hrecent, hlive⟩

theorem withinBudget_sublist (used : Nat) (envs : List Envelope) :
    (withinBudget used envs).Sublist envs := by
  induction envs generalizing used with
  | nil => exact .refl _
  | cons env rest ih =>
    rw [withinBudget]
    split
    · exact List.nil_sublist _
    · exact (ih _).cons_cons env

theorem withinBudget_eq_self {used : Nat} {envs : List Envelope}
    (hfits : used + (envs.map envSize).sum ≤ maxFetchBytes) : withinBudget used envs = envs := by
  induction envs generalizing used with
  | nil => rfl
  | cons env rest ih =>
    rw [List.map_cons, List.sum_cons] at hfits
    rw [withinBudget, if_neg (by omega), ih (by omega)]

theorem checkDeposit_eq_ok :
    mailbox.checkDeposit env nowMs = .ok () ↔
      env.ttlMs ≤ maxTtlMs ∧ env.depositedMs ≤ saturatingAdd nowMs maxClockSkewMs ∧
        env.isExpired nowMs = false ∧ envSize env ≤ maxEnvelopeBytes ∧
        mailbox.bytes + envSize env ≤ maxMailboxBytes ∧
        (mailbox.slot env.recipientHint).length < maxHintDepth := by
  simp only [checkDeposit, bind_eq_ok, refuseIf_eq_ok, gt_iff_lt, ge_iff_le, UInt32.not_lt,
    UInt64.not_lt, not_lt, not_le, Bool.not_eq_true]
  constructor
  · rintro ⟨_, httl, _, hskew, _, hlive, _, hsize, _, hbytes, hdepth⟩
    exact ⟨httl, hskew, hlive, hsize, hbytes, hdepth⟩
  · rintro ⟨httl, hskew, hlive, hsize, hbytes, hdepth⟩
    exact ⟨(), httl, (), hskew, (), hlive, (), hsize, (), hbytes, hdepth⟩

theorem call_deposit (hcheck : mailbox.checkDeposit env nowMs = .ok ()) :
    (deposit env nowMs).call mailbox = (.ok (), mailbox.stored env) := by
  rw [deposit, call_validated, hcheck]
  rfl

theorem call_deposit_error {e : NetError} (hcheck : mailbox.checkDeposit env nowMs = .error e) :
    (deposit env nowMs).call mailbox = (.error e, mailbox) := by
  rw [deposit, call_validated, hcheck]

theorem slot_stored (mailbox : Mailbox) (env : Envelope) (hint : Hint) :
    (mailbox.stored env).slot hint =
      if hint = env.recipientHint then mailbox.slot hint ++ [env] else mailbox.slot hint := by
  rw [slot, stored, AssocMap.lookup_insert]
  split
  · rename_i heq
    rw [heq]
    rfl
  · rfl

theorem slot_gc (mailbox : Mailbox) (nowMs : UInt64) (hint : Hint) :
    (mailbox.gc nowMs).2.slot hint = (mailbox.slot hint).filter fun env => !env.isExpired nowMs := by
  rw [slot, gc, AssocMap.lookup_filterMapValues, slot]
  cases mailbox.byHint.lookup hint with
  | none => rfl
  | some list =>
    rw [Option.bind_some, liveSlot, Option.getD_some]
    split
    · rename_i hempty
      exact (List.isEmpty_iff.mp hempty).symm
    · rfl

theorem bytes_gc_le (mailbox : Mailbox) (nowMs : UInt64) :
    (mailbox.gc nowMs).2.bytes ≤ mailbox.bytes :=
  Nat.sub_le _ _

end Mailbox

end Dante.Net
