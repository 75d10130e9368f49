import Dante.Net.Mailbox
import Dante.Relay.Blobs

/-!
The relay's two stores of what others upload: the mailbox and the blobs. Both keep totals next to
the stored items and change them in place, with subtractions that a wrong total would let underflow.
-/

namespace Dante.Net.Mailbox

def envelopes (mailbox : Mailbox) : List Envelope := (AssocMap.values mailbox.byHint).flatten

/-- The expired part of them, which `gc` takes away. -/
def expired (mailbox : Mailbox) (nowMs : UInt64) : List Envelope :=
  mailbox.envelopes.filter fun env => env.isExpired nowMs

/-- The totals are those of the stored envelopes, and within their limits. -/
structure Accounted (mailbox : Mailbox) : Prop where
  count : mailbox.count = mailbox.envelopes.length
  bytes : mailbox.bytes = (mailbox.envelopes.map envSize).sum
  capacity : mailbox.bytes ≤ maxMailboxBytes
  depth : ∀ hint, (mailbox.slot hint).length ≤ maxHintDepth

variable {mailbox : Mailbox} {env : Envelope} {nowMs : UInt64}

theorem sum_envelopes (weight : Envelope → Nat) (mailbox : Mailbox) :
    (mailbox.envelopes.map weight).sum =
      ((AssocMap.values mailbox.byHint).map fun slot => (slot.map weight).sum).sum := by
  rw [envelopes, List.map_flatten, List.sum_flatten, List.map_map]
  rfl

theorem length_envelopes (mailbox : Mailbox) :
    mailbox.envelopes.length = (mailbox.envelopes.map fun _ => 1).sum := by
  simp

theorem sum_envelopes_stored (weight : Envelope → Nat) (mailbox : Mailbox) (env : Envelope) :
    ((mailbox.stored env).envelopes.map weight).sum =
      (mailbox.envelopes.map weight).sum + weight env := by
  let total (slot : List Envelope) : Nat := (slot.map weight).sum
  have hold : ((mailbox.byHint.lookup env.recipientHint).map total).getD 0 =
      total (mailbox.slot env.recipientHint) := by
    rw [slot]
    cases mailbox.byHint.lookup env.recipientHint <;> rfl
  have hnew : total (mailbox.slot env.recipientHint ++ [env]) =
      total (mailbox.slot env.recipientHint) + weight env := by
    simp [total]
  have hinsert := AssocMap.sum_values_insert total mailbox.byHint env.recipientHint
    (mailbox.slot env.recipientHint ++ [env])
  rw [hold, hnew] at hinsert
  rw [sum_envelopes, sum_envelopes]
  change ((AssocMap.values (mailbox.byHint.insert _ _)).map total).sum =
    ((AssocMap.values mailbox.byHint).map total).sum + weight env
  omega

theorem sum_envelopes_gc (weight : Envelope → Nat) (mailbox : Mailbox) (nowMs : UInt64) :
    ((mailbox.gc nowMs).2.envelopes.map weight).sum + ((mailbox.expired nowMs).map weight).sum =
      (mailbox.envelopes.map weight).sum := by
  have hexpired : ((mailbox.expired nowMs).map weight).sum =
      ((AssocMap.values mailbox.byHint).map fun slot =>
        ((slot.filter fun env => env.isExpired nowMs).map weight).sum).sum := by
    rw [expired, envelopes, List.filter_flatten, List.map_flatten, List.sum_flatten, List.map_map,
      List.map_map]
    rfl
  rw [sum_envelopes, sum_envelopes, hexpired]
  apply AssocMap.sum_values_filterMapValues
  intro slot
  have hsplit := ((List.filter_append_perm (fun env => env.isExpired nowMs) slot).map weight).sum_eq
  rw [List.map_append, List.sum_append] at hsplit
  -- a slot that is dropped has nothing left to count
  have hkept : ((liveSlot nowMs slot).map fun slot => (slot.map weight).sum).getD 0 =
      ((slot.filter fun env => !env.isExpired nowMs).map weight).sum := by
    rw [liveSlot]
    split
    · rename_i hempty
      rw [List.isEmpty_iff.mp hempty]
      rfl
    · rfl
  rw [hkept]
  omega

theorem accounted_new : Accounted new where
  count := rfl
  bytes := rfl
  capacity := Nat.zero_le _
  depth _ := Nat.zero_le _

theorem Accounted.stored (h : mailbox.Accounted)
    (hcheck : mailbox.checkDeposit env nowMs = .ok ()) : (mailbox.stored env).Accounted := by
  obtain ⟨-, -, -, -, hroom, hdepth⟩ := checkDeposit_eq_ok.mp hcheck
  constructor
  case count =>
    rw [length_envelopes, sum_envelopes_stored, ← length_envelopes, ← h.count]
    rfl
  case bytes =>
    rw [sum_envelopes_stored, ← h.bytes]
    rfl
  case capacity => exact hroom
  case depth =>
    intro hint
    rw [slot_stored]
    split
    · rename_i heq
      rw [heq, List.length_append, List.length_singleton]
      exact hdepth
    · exact h.depth hint

/-- What `gc` subtracts is part of the totals. -/
theorem Accounted.expired_le (h : mailbox.Accounted) (nowMs : UInt64) :
    (mailbox.expired nowMs).length ≤ mailbox.count ∧
      ((mailbox.expired nowMs).map envSize).sum ≤ mailbox.bytes := by
  have hbytes := sum_envelopes_gc envSize mailbox nowMs
  rw [h.count, h.bytes]
  exact ⟨List.length_filter_le _ _, by omega⟩

theorem Accounted.gc (h : mailbox.Accounted) (nowMs : UInt64) : (mailbox.gc nowMs).2.Accounted := by
  have hcount := sum_envelopes_gc (fun _ => 1) mailbox nowMs
  have hbytes := sum_envelopes_gc envSize mailbox nowMs
  constructor
  case count =>
    change mailbox.count - (mailbox.expired nowMs).length = _
    simp only [List.map_const', List.sum_replicate, smul_eq_mul, mul_one] at hcount
    rw [h.count]
    omega
  case bytes =>
    change mailbox.bytes - ((mailbox.expired nowMs).map envSize).sum = _
    rw [h.bytes]
    omega
  case capacity => exact (bytes_gc_le mailbox nowMs).trans h.capacity
  case depth =>
    intro hint
    rw [slot_gc]
    exact (List.length_filter_le _ _).trans (h.depth hint)

/-- `gc` leaves no empty slot. -/
theorem slot_ne_nil_of_gc {hint : Hint} {slot : List Envelope}
    (hlookup : (mailbox.gc nowMs).2.byHint.lookup hint = some slot) : slot ≠ [] := by
  rw [Mailbox.gc, AssocMap.lookup_filterMapValues, Option.bind_eq_some_iff] at hlookup
  obtain ⟨old, -, hlive⟩ := hlookup
  rw [liveSlot] at hlive
  split at hlive
  · cases hlive
  · rename_i hkept
    cases hlive
    exact fun hnil => hkept (List.isEmpty_iff.mpr hnil)

/-- An envelope that a deposit at `acceptedMs` takes expires before the longest lifetime and
the allowed clock skew have passed. -/
theorem isExpired_of_checkDeposit {acceptedMs : UInt64}
    (hcheck : mailbox.checkDeposit env acceptedMs = .ok ())
    (hlate : acceptedMs.toNat + maxClockSkewMs.toNat + maxTtlMs.toNat < nowMs.toNat) :
    env.isExpired nowMs = true := by
  obtain ⟨httl, hskew, -⟩ := checkDeposit_eq_ok.mp hcheck
  rw [UInt32.le_iff_toNat_le] at httl
  rw [UInt64.le_iff_toNat_le, saturatingAdd_toNat] at hskew
  rw [Envelope.isExpired, decide_eq_true_eq, gt_iff_lt, UInt64.lt_iff_toNat_lt,
    saturatingSub_toNat, UInt32.toNat_toUInt64]
  omega

end Dante.Net.Mailbox

namespace Dante.Relay

open Crypto Net

structure Stores where
  mailbox : Mailbox
  /-- The hashes of the envelopes that were stored lately. -/
  mboxSeen : Finset Hash
  blobs : BlobStore

inductive DepositError where
  | undecodable
  | rateLimited
  | rejected (error : NetError)
  deriving DecidableEq

/-- A request or a housekeeping run at a time. The rate limiter's verdict is part of the
request. -/
inductive StoreOp where
  | deposit (blob : Bytes) (limited : Bool) (now : UInt64)
  | gossip (blob : Bytes) (now : UInt64)
  | putBlob (bytes : Bytes) (limited : Bool) (now : UInt64)
  | maintain (now : UInt64)

def StoreOp.time : StoreOp → UInt64
  | deposit _ _ now | gossip _ now | putBlob _ _ now | maintain now => now

namespace Stores

def new : Stores where
  mailbox := .new
  mboxSeen := ∅
  blobs := .new

variable (S : Suite) (stores : Stores)

def noteEnvelope (seen : Finset Hash) (blob : Bytes) : Finset Hash :=
  insert (S.sha256 blob) (if seen.card > 16384 then ∅ else seen)

/-- The request `Deposit`, without the queue for other relays. -/
def deposit (blob : Bytes) (limited : Bool) (now : UInt64) : Except DepositError Unit × Stores :=
  match Envelope.decode blob with
  | .error _ => (.error .undecodable, stores)
  | .ok env =>
    if limited then (.error .rateLimited, stores)
    else
      match (Mailbox.deposit env now).call stores.mailbox with
      | (.ok (), mailbox) =>
        (.ok (), { stores with mailbox := mailbox, mboxSeen := noteEnvelope S stores.mboxSeen blob })
      | (.error e, mailbox) => (.error (.rejected e), { stores with mailbox := mailbox })

def ingestGossipedEnvelope (blob : Bytes) (now : UInt64) : Bool × Stores :=
  if S.sha256 blob ∈ stores.mboxSeen then (false, stores)
  else
    match Envelope.decode blob with
    | .error _ => (false, stores)
    | .ok env =>
      match (Mailbox.deposit env now).call stores.mailbox with
      | (.ok (), mailbox) =>
        (true, { stores with mailbox := mailbox, mboxSeen := noteEnvelope S stores.mboxSeen blob })
      | (.error _, mailbox) => (false, { stores with mailbox := mailbox })

def maintain (now : UInt64) : Stores :=
  { stores with mailbox := (stores.mailbox.gc now).2, blobs := stores.blobs.maintain now }

def step (stores : Stores) : StoreOp → Stores
  | .deposit blob limited now => (stores.deposit S blob limited now).2
  | .gossip blob now => (stores.ingestGossipedEnvelope S blob now).2
  | .putBlob bytes limited now =>
    { stores with blobs := (stores.blobs.putBlob S bytes limited now).2 }
  | .maintain now => stores.maintain now

/-- The operation is answered with a success and has stored this envelope. -/
def Accepts (op : StoreOp) (env : Envelope) : Prop :=
  match op with
  | .deposit blob limited now =>
    Envelope.decode blob = .ok env ∧ (stores.deposit S blob limited now).1 = .ok ()
  | .gossip blob now =>
    Envelope.decode blob = .ok env ∧ (stores.ingestGossipedEnvelope S blob now).1 = true
  | _ => False

end Stores

namespace BlobStore

variable {S : Suite} {store : BlobStore}

/-- The lengths of the blobs that housekeeping at `now` drops. -/
def freed (store : BlobStore) (now : UInt64) : Nat :=
  ((store.blobs.values.filter fun entry => !unexpired now entry).map fun entry =>
    entry.1.length).sum

structure Accounted (store : BlobStore) : Prop where
  bytes : store.blobBytes = (store.blobs.values.map fun entry => entry.1.length).sum
  capacity : store.blobBytes ≤ blobStoreCap

theorem accounted_new : Accounted new where
  bytes := rfl
  capacity := Nat.zero_le _

theorem Accounted.putBlob (h : store.Accounted) (bytes : Bytes) (limited : Bool) (now : UInt64) :
    (store.putBlob S bytes limited now).2.Accounted := by
  unfold BlobStore.putBlob
  split
  · exact h
  · dsimp only
    split
    · exact h
    · rename_i hnew
      split
      · exact h
      · rename_i hroom
        have hinsert := AssocMap.sum_values_insert (fun entry : Bytes × UInt64 => entry.1.length)
          store.blobs (S.sha256 bytes) (bytes, now)
        have hnone : store.blobs.lookup (S.sha256 bytes) = none := by simpa using hnew
        rw [hnone, ← h.bytes] at hinsert
        exact ⟨hinsert.symm, not_lt.mp hroom⟩

theorem freed_add (store : BlobStore) (now : UInt64) :
    ((store.maintain now).blobs.values.map fun entry => entry.1.length).sum + store.freed now =
      (store.blobs.values.map fun entry => entry.1.length).sum := by
  have hfreed : store.freed now =
      (store.blobs.values.map fun entry =>
        if unexpired now entry then 0 else entry.1.length).sum := by
    rw [freed]
    induction store.blobs.values with
    | nil => rfl
    | cons entry rest ih =>
      rw [List.filter_cons, List.map_cons, List.sum_cons, ← ih]
      cases unexpired now entry <;> simp
  rw [hfreed]
  apply AssocMap.sum_values_filterMapValues
  intro entry
  cases unexpired now entry <;> simp

theorem Accounted.freed_le (h : store.Accounted) (now : UInt64) :
    store.freed now ≤ store.blobBytes := by
  have hsplit := freed_add store now
  rw [h.bytes]
  omega

theorem Accounted.maintain (h : store.Accounted) (now : UInt64) : (store.maintain now).Accounted := by
  have hsplit := freed_add store now
  have hbytes : (store.maintain now).blobBytes = store.blobBytes - store.freed now := rfl
  constructor
  · rw [hbytes, h.bytes]
    omega
  · rw [hbytes]
    exact (Nat.sub_le _ _).trans h.capacity

end BlobStore

namespace Stores

variable {S : Suite} {stores : Stores}
variable {env : Envelope}

/-- Both stores have the right totals. -/
def Accounted (stores : Stores) : Prop :=
  stores.mailbox.Accounted ∧ stores.blobs.Accounted

def taken (S : Suite) (stores : Stores) (blob : Bytes) (env : Envelope) : Stores :=
  { stores with
    mailbox := stores.mailbox.stored env
    mboxSeen := noteEnvelope S stores.mboxSeen blob }

/-- An envelope that a client sends is taken in by the mailbox's own checks, or nothing changes. -/
theorem deposit_cases (S : Suite) (stores : Stores) (blob : Bytes) (limited : Bool) (now : UInt64) :
    (∃ e, stores.deposit S blob limited now = (.error e, stores)) ∨
      ∃ env, Envelope.decode blob = .ok env ∧ stores.mailbox.checkDeposit env now = .ok () ∧
        stores.deposit S blob limited now = (.ok (), stores.taken S blob env) := by
  unfold Stores.deposit
  cases Envelope.decode blob with
  | error e => exact .inl ⟨_, rfl⟩
  | ok env =>
    cases limited with
    | true => exact .inl ⟨_, rfl⟩
    | false =>
      cases hcheck : stores.mailbox.checkDeposit env now with
      | error e =>
        simp only [Mailbox.call_deposit_error hcheck]
        exact .inl ⟨_, rfl⟩
      | ok u =>
        simp only [Mailbox.call_deposit hcheck]
        exact .inr ⟨env, rfl, hcheck, rfl⟩

/-- One that another relay sends has to be new as well. -/
theorem gossip_cases (S : Suite) (stores : Stores) (blob : Bytes) (now : UInt64) :
    stores.ingestGossipedEnvelope S blob now = (false, stores) ∨
      ∃ env, Envelope.decode blob = .ok env ∧ stores.mailbox.checkDeposit env now = .ok () ∧
        S.sha256 blob ∉ stores.mboxSeen ∧
        stores.ingestGossipedEnvelope S blob now = (true, stores.taken S blob env) := by
  unfold ingestGossipedEnvelope
  by_cases hseen : S.sha256 blob ∈ stores.mboxSeen
  · exact .inl (if_pos hseen)
  · rw [if_neg hseen]
    cases Envelope.decode blob with
    | error e => exact .inl rfl
    | ok env =>
      cases hcheck : stores.mailbox.checkDeposit env now with
      | error e => exact .inl (by simp only [Mailbox.call_deposit_error hcheck])
      | ok u =>
        simp only [Mailbox.call_deposit hcheck]
        exact .inr ⟨env, rfl, hcheck, hseen, rfl⟩

/-- What a step does to the stores: nothing, one envelope taken in, or a change to the blobs, or
housekeeping. -/
theorem step_cases (S : Suite) (stores : Stores) (op : StoreOp) :
    stores.step S op = stores ∨
      (∃ blob env, Envelope.decode blob = .ok env ∧
        stores.mailbox.checkDeposit env op.time = .ok () ∧
        (op = .gossip blob op.time ∧ S.sha256 blob ∉ stores.mboxSeen ∨
          ∃ limited, op = .deposit blob limited op.time) ∧
        stores.step S op = stores.taken S blob env) ∨
      (∃ bytes limited now, op = .putBlob bytes limited now) ∨ ∃ now, op = .maintain now := by
  cases op with
  | deposit blob limited now =>
    rcases deposit_cases S stores blob limited now with ⟨e, h⟩ | ⟨env, hdecode, hcheck, h⟩
    · exact .inl (congrArg Prod.snd h)
    · exact .inr (.inl ⟨blob, env, hdecode, hcheck, .inr ⟨limited, rfl⟩, congrArg Prod.snd h⟩)
  | gossip blob now =>
    rcases gossip_cases S stores blob now with h | ⟨env, hdecode, hcheck, hnew, h⟩
    · exact .inl (congrArg Prod.snd h)
    · exact .inr (.inl ⟨blob, env, hdecode, hcheck, .inl ⟨rfl, hnew⟩, congrArg Prod.snd h⟩)
  | putBlob bytes limited now => exact .inr (.inr (.inl ⟨bytes, limited, now, rfl⟩))
  | maintain now => exact .inr (.inr (.inr ⟨now, rfl⟩))

theorem Accounted.step (h : stores.Accounted) (op : StoreOp) : (stores.step S op).Accounted := by
  obtain ⟨hmailbox, hblobs⟩ := h
  rcases step_cases S stores op with hsame | ⟨blob, env, -, hcheck, -, htaken⟩ |
    ⟨bytes, limited, now, rfl⟩ | ⟨now, rfl⟩
  · rw [hsame]
    exact ⟨hmailbox, hblobs⟩
  · rw [htaken]
    exact ⟨hmailbox.stored hcheck, hblobs⟩
  · exact ⟨hmailbox, hblobs.putBlob bytes limited now⟩
  · exact ⟨hmailbox.gc now, hblobs.maintain now⟩

theorem accounted_exec (S : Suite) (ops : List StoreOp) :
    (Steps.exec (step S) new ops).Accounted :=
  Steps.exec_invariant Accounted (fun _ op h _ => h.step op)
    ⟨Mailbox.accounted_new, BlobStore.accounted_new⟩ (Steps.along_of_forall fun _ _ => trivial)

/-- No slot holds the envelope. -/
def Gone (env : Envelope) (stores : Stores) : Prop := ∀ hint, env ∉ stores.mailbox.slot hint

theorem gone_maintain {now : UInt64} (hexpired : env.isExpired now = true) (stores : Stores) :
    Gone env (stores.maintain now) := by
  intro hint hmem
  rw [maintain, Mailbox.slot_gc, List.mem_filter, hexpired] at hmem
  exact absurd hmem.2 (by simp)

/-- An expired envelope does not come back. -/
theorem Gone.taken {env other : Envelope} {now : UInt64} (h : Gone env stores)
    (hexpired : env.isExpired now = true)
    (hcheck : stores.mailbox.checkDeposit other now = .ok ()) (blob : Bytes) :
    Gone env (stores.taken S blob other) := by
  intro hint hmem
  change env ∈ (stores.mailbox.stored other).slot hint at hmem
  rw [Mailbox.slot_stored] at hmem
  split at hmem
  · rcases List.mem_append.mp hmem with hold | hnew
    · exact h hint hold
    · rw [List.mem_singleton.mp hnew, (Mailbox.checkDeposit_eq_ok.mp hcheck).2.2.1] at hexpired
      cases hexpired
  · exact h hint hmem

theorem Gone.step (h : Gone env stores) {op : StoreOp} (hexpired : env.isExpired op.time = true) :
    Gone env (stores.step S op) := by
  rcases step_cases S stores op with hsame | ⟨blob, other, -, hcheck, -, htaken⟩ |
    ⟨bytes, limited, now, rfl⟩ | ⟨now, rfl⟩
  · rwa [hsame]
  · rw [htaken]
    exact h.taken hexpired hcheck blob
  · exact h
  · exact gone_maintain hexpired stores

theorem isExpired_mono {now later : UInt64} (hle : now ≤ later)
    (hexpired : env.isExpired now = true) : env.isExpired later = true := by
  rw [UInt64.le_iff_toNat_le] at hle
  rw [Envelope.isExpired, decide_eq_true_eq, gt_iff_lt, UInt64.lt_iff_toNat_lt,
    saturatingSub_toNat] at hexpired ⊢
  omega

/-- An envelope that was accepted has passed the mailbox's checks. -/
theorem Accepts.checked {op : StoreOp} (h : stores.Accepts S op env) :
    stores.mailbox.checkDeposit env op.time = .ok () := by
  cases op with
  | deposit blob limited now =>
    obtain ⟨hdecode, hok⟩ := h
    rcases deposit_cases S stores blob limited now with ⟨e, hsame⟩ | ⟨other, hother, hcheck, -⟩
    · rw [hsame] at hok
      cases hok
    · cases hdecode.symm.trans hother
      exact hcheck
  | gossip blob now =>
    obtain ⟨hdecode, hok⟩ := h
    rcases gossip_cases S stores blob now with hsame | ⟨other, hother, hcheck, -, -⟩
    · rw [hsame] at hok
      cases hok
    · cases hdecode.symm.trans hother
      exact hcheck
  | putBlob bytes limited now => exact h.elim
  | maintain now => exact h.elim

/-- The run has accepted the envelope, and has collected later than it can live. -/
structure OutlivedBy (S : Suite) (ops : List StoreOp) (env : Envelope) (before : List StoreOp)
    (op : StoreOp) (between : List StoreOp) (now : UInt64) (after : List StoreOp) : Prop where
  run : ops = before ++ op :: (between ++ .maintain now :: after)
  accepted : (Steps.exec (step S) new before).Accepts S op env
  late : op.time.toNat + maxClockSkewMs.toNat + maxTtlMs.toNat < now.toNat

theorem OutlivedBy.gone {ops before between after : List StoreOp} {op : StoreOp} {now : UInt64}
    (hclock : (ops.map StoreOp.time).Pairwise (· ≤ ·))
    (h : OutlivedBy S ops env before op between now after) :
    Gone env (Steps.exec (step S) new ops) := by
  obtain ⟨rfl, haccepted, hlate⟩ := h
  have hexpired : env.isExpired now = true :=
    Mailbox.isExpired_of_checkDeposit haccepted.checked hlate
  have hafter : ∀ later ∈ after, now ≤ later.time := by
    intro later hlater
    simp only [List.map_append, List.map_cons, List.pairwise_append, List.pairwise_cons] at hclock
    exact hclock.2.1.2.2.1.1 _ (List.mem_map_of_mem hlater)
  rw [Steps.exec_append, Steps.exec_cons, Steps.exec_append, Steps.exec_cons]
  exact Steps.exec_invariant (Gone env) (fun _ _ hgone hle => hgone.step (isExpired_mono hle hexpired))
    (gone_maintain hexpired _) (Steps.along_of_forall hafter)

end Stores

open Stores

/-- In every state that a run reaches, the totals of the mailbox and of the blobs are those of
what is stored and within the limits; no housekeeping run would subtract more than there is, or
leave an empty slot; and an envelope is gone once housekeeping has run later than its
acceptance, the clock skew and the longest lifetime allow. -/
theorem accounting_run (S : Suite) (ops : List StoreOp)
    (hclock : (ops.map StoreOp.time).Pairwise (· ≤ ·)) :
    let stores := Steps.exec (step S) new ops
    stores.Accounted ∧
      (∀ now, (stores.mailbox.expired now).length ≤ stores.mailbox.count ∧
        ((stores.mailbox.expired now).map envSize).sum ≤ stores.mailbox.bytes ∧
        stores.blobs.freed now ≤ stores.blobs.blobBytes) ∧
      (∀ now hint slot, (stores.maintain now).mailbox.byHint.lookup hint = some slot →
        slot ≠ []) ∧
      ∀ env before op between now after, OutlivedBy S ops env before op between now after →
        Gone env stores := by
  intro stores
  have haccounted := accounted_exec S ops
  refine ⟨haccounted, ?_, ?_, ?_⟩
  · intro now
    obtain ⟨hcount, hbytes⟩ := haccounted.1.expired_le now
    exact ⟨hcount, hbytes, haccounted.2.freed_le now⟩
  · intro now hint slot hlookup
    exact Mailbox.slot_ne_nil_of_gc hlookup
  · intro env before op between now after h
    exact h.gone hclock

def sampleEnvelope : Envelope where
  v := 1
  recipientHint := .fill 8 1
  payload := [1, 2, 3]
  sizeClass := 0
  depositedMs := 1000
  ttlMs := 60000

/-- An envelope and a blob are stored, and housekeeping runs when the envelope must be gone. -/
theorem accounting_sample :
    let ops : List StoreOp := [.deposit sampleEnvelope.encode false 1000,
      .putBlob [1, 2, 3] false 2000, .maintain 1300000000]
    let stores := Steps.exec (step sampleSuite) new ops
    stores.mailbox.count = stores.mailbox.envelopes.length ∧ Gone sampleEnvelope stores := by
  intro ops stores
  obtain ⟨haccounted, -, -, hgone⟩ := accounting_run sampleSuite ops (by decide)
  refine ⟨haccounted.1.count, hgone sampleEnvelope [] (.deposit sampleEnvelope.encode false 1000)
    [.putBlob [1, 2, 3] false 2000] 1300000000 [] ⟨rfl, ⟨?_, ?_⟩, by decide⟩⟩
  · exact Envelope.decode_encode (by decide)
  · decide +kernel

end Dante.Relay
