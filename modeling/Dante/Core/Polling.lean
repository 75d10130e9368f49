import Dante.Net.Mailbox

/-!
How a client polls for its mail. A poll asks for the hints of yesterday, today and
tomorrow and for everything since two days before the last poll. Envelopes live for
a week, so the window of the hints decides: an envelope is out of reach from the
second day after its deposit on.
-/

namespace Dante.Core

open Crypto Method Net

/-- `DM_TTL_MS`, a week. -/
def dmTtlMs : UInt32 := 7 * 24 * 60 * 60 * 1000

structure FetchRequest where
  hints : List Hint
  sinceMs : UInt64
  deriving DecidableEq

structure Poller where
  identityId : Hash
  lastFetchSinceMs : UInt64

namespace Poller

variable (S : Suite)

def new (identityId : Hash) : Poller where
  identityId := identityId
  lastFetchSinceMs := 0

/-- What `receive_all` asks the relay for. -/
def request (poller : Poller) (nowMs : UInt64) : FetchRequest where
  hints :=
    [recipientHint S poller.identityId nowMs,
      recipientHint S poller.identityId (saturatingSub nowMs epochMs),
      recipientHint S poller.identityId (saturatingAdd nowMs epochMs)]
  sinceMs := poller.lastFetchSinceMs

/-- The polling of `receive_all`. A failed fetch leaves the cursor; the handling of the
envelopes does not touch it. -/
def receiveAll (fetch : FetchRequest → Except NetError (List Envelope)) (nowMs : UInt64) :
    Method Poller NetError (List Envelope) := do
  let poller ← get
  let envelopes ← lift (fetch (poller.request S nowMs))
  modify fun poller => { poller with lastFetchSinceMs := saturatingSub nowMs (2 * epochMs) }
  return envelopes

/-- One call of `receive_all`: its time, and what the relay answers. -/
structure Poll where
  nowMs : UInt64
  fetch : FetchRequest → Except NetError (List Envelope)

def step (poller : Poller) (poll : Poll) : Poller :=
  ((receiveAll S poll.fetch poll.nowMs).call poller).2

abbrev after (identityId : Hash) (polls : List Poll) : Poller :=
  Steps.exec (step S) (new identityId) polls

variable {S}

theorem step_eq (poller : Poller) (poll : Poll) :
    step S poller poll = poller ∨
      step S poller poll =
        { poller with lastFetchSinceMs := saturatingSub poll.nowMs (2 * epochMs) } := by
  unfold step receiveAll
  rw [call_bind_ok (call_get poller), call_bind, call_lift]
  cases poll.fetch (poller.request S poll.nowMs) with
  | error e => exact Or.inl rfl
  | ok envelopes => exact Or.inr rfl

/-- A poller whose polls came no later than `atMs` asks for everything from `atMs` on. -/
theorem after_since_le (identityId : Hash) {polls : List Poll} {atMs : UInt64}
    (hbefore : ∀ poll ∈ polls, poll.nowMs ≤ atMs) :
    (after S identityId polls).identityId = identityId ∧
      (after S identityId polls).lastFetchSinceMs ≤ atMs := by
  let inv (poller : Poller) : Prop :=
    poller.identityId = identityId ∧ poller.lastFetchSinceMs ≤ atMs
  refine Steps.exec_invariant inv ?_ ⟨rfl, UInt64.zero_le⟩ (Steps.along_of_forall hbefore)
  rintro poller poll ⟨hid, hsince⟩ hpoll
  rcases step_eq poller poll with hsame | hmoved
  · rw [hsame]
    exact ⟨hid, hsince⟩
  · rw [hmoved]
    refine ⟨hid, ?_⟩
    rw [UInt64.le_iff_toNat_le] at hpoll
    rw [UInt64.le_iff_toNat_le, saturatingSub_toNat]
    omega

end Poller

variable {S : Suite} {env : Envelope} {nowMs : UInt64}

/-- The hash tells the day of the deposit apart from the days of the poll. -/
abbrev DaysDistinct (S : Suite) (identityId : Hash) (atMs nowMs : UInt64) : Prop :=
  HintsDistinct S identityId
    [atMs, nowMs, saturatingSub nowMs epochMs, saturatingAdd nowMs epochMs]

/-- The day of the deposit is one of the three days that are polled. -/
theorem hint_mem_request_iff {poller : Poller} {atMs : UInt64}
    (hdays : DaysDistinct S poller.identityId atMs nowMs) :
    recipientHint S poller.identityId atMs ∈ (poller.request S nowMs).hints ↔
      atMs / epochMs = nowMs / epochMs ∨ atMs / epochMs = saturatingSub nowMs epochMs / epochMs ∨
        atMs / epochMs = saturatingAdd nowMs epochMs / epochMs := by
  simp only [Poller.request, List.mem_cons, List.not_mem_nil, or_false]
  have hiff {other : UInt64} (hmem : other ∈ [atMs, nowMs, saturatingSub nowMs epochMs,
      saturatingAdd nowMs epochMs]) :
      recipientHint S poller.identityId atMs = recipientHint S poller.identityId other ↔
        atMs / epochMs = other / epochMs :=
    ⟨hdays atMs List.mem_cons_self other hmem, recipientHint_congr S poller.identityId⟩
  rw [hiff (by simp), hiff (by simp), hiff (by simp)]

/-- Of the polled days, only today and yesterday can be the day of an earlier deposit. -/
theorem polled_day_iff {atMs : UInt64} (hle : atMs ≤ nowMs) :
    (atMs / epochMs = nowMs / epochMs ∨ atMs / epochMs = saturatingSub nowMs epochMs / epochMs ∨
      atMs / epochMs = saturatingAdd nowMs epochMs / epochMs) ↔
    nowMs / epochMs ≤ atMs / epochMs + 1 := by
  have hepoch : epochMs.toNat = 86400000 := rfl
  have hbound := nowMs.toNat_lt
  rw [UInt64.le_iff_toNat_le] at hle
  have hnext : (atMs / epochMs + 1).toNat = atMs.toNat / 86400000 + 1 := by
    rw [UInt64.toNat_add, UInt64.toNat_div, hepoch, UInt64.toNat_one]
    omega
  simp only [← UInt64.toNat_inj, UInt64.le_iff_toNat_le, UInt64.toNat_div, saturatingSub_toNat,
    saturatingAdd_toNat, hnext, hepoch]
  omega

/-- The poll at `nowMs` asks for a message deposited at `atMs` exactly on the day of the
deposit and on the day after, whatever was polled before the deposit. -/
theorem dm_polled_iff (S : Suite) (identityId : Hash) (atMs nowMs : UInt64)
    (polls : List Poller.Poll) (hle : atMs ≤ nowMs) (hbefore : ∀ poll ∈ polls, poll.nowMs ≤ atMs)
    (hdays : DaysDistinct S identityId atMs nowMs) :
    (recipientHint S identityId atMs ∈ ((Poller.after S identityId polls).request S nowMs).hints ∧
        ((Poller.after S identityId polls).request S nowMs).sinceMs ≤ atMs) ↔
      nowMs / epochMs ≤ atMs / epochMs + 1 := by
  obtain ⟨hid, hsince⟩ := Poller.after_since_le (S := S) identityId hbefore
  have hhint := hint_mem_request_iff (hid.symm ▸ hdays)
  rw [hid] at hhint
  rw [hhint, polled_day_iff hle]
  exact and_iff_left hsince

/-- A poll on the day after the deposit, with an earlier one. -/
theorem dm_polled_next_day :
    recipientHint sampleHintSuite (.fill 32 7) (10 * epochMs) ∈
        ((Poller.after sampleHintSuite (.fill 32 7)
          [{ nowMs := 9 * epochMs, fetch := fun _ => .ok [] }]).request sampleHintSuite
            (11 * epochMs + 5)).hints ∧
      ((Poller.after sampleHintSuite (.fill 32 7)
          [{ nowMs := 9 * epochMs, fetch := fun _ => .ok [] }]).request sampleHintSuite
            (11 * epochMs + 5)).sinceMs ≤ 10 * epochMs :=
  (dm_polled_iff sampleHintSuite (.fill 32 7) (10 * epochMs) (11 * epochMs + 5)
    [{ nowMs := 9 * epochMs, fetch := fun _ => .ok [] }] (by decide +kernel) (by decide +kernel)
    (by decide +kernel)).mpr (by decide +kernel)

def sampleDm (atMs : UInt64) : Envelope where
  v := 1
  recipientHint := recipientHint sampleHintSuite (.fill 32 7) atMs
  payload := []
  sizeClass := 0
  depositedMs := atMs
  ttlMs := dmTtlMs

/-- Two days after its deposit a message is stored and not expired, and the relay would
return it for its own hint; the first poll of the recipient does not select it. -/
theorem dm_out_of_reach :
    ((Mailbox.deposit (sampleDm (10 * epochMs)) (10 * epochMs)).call Mailbox.new).1 = .ok () ∧
    (sampleDm (10 * epochMs)).isExpired (12 * epochMs) = false ∧
    ((Mailbox.deposit (sampleDm (10 * epochMs)) (10 * epochMs)).call Mailbox.new).2.fetch
      [(sampleDm (10 * epochMs)).recipientHint] 0 (12 * epochMs) = [sampleDm (10 * epochMs)] ∧
    recipientHint sampleHintSuite (.fill 32 7) (10 * epochMs) ∉
      ((Poller.new (.fill 32 7)).request sampleHintSuite (12 * epochMs)).hints ∧
    ((Mailbox.deposit (sampleDm (10 * epochMs)) (10 * epochMs)).call Mailbox.new).2.fetch
      ((Poller.new (.fill 32 7)).request sampleHintSuite (12 * epochMs)).hints
      ((Poller.new (.fill 32 7)).request sampleHintSuite (12 * epochMs)).sinceMs
      (12 * epochMs) = [] := by
  decide +kernel

end Dante.Core
