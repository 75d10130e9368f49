import Dante.Core.Duplicates

/-!
How a third party makes a client process an envelope twice. The hints of an identity are public, and
an envelope of the shortest life is gone a millisecond later. So one can fill the slot of the hint
again after each poll, until the client has recorded more than `SEEN_CAP` envelopes.
-/

namespace Dante.Core.Flood

open Crypto Dm Net Polled

variable {round : Nat} {seen : List Envelope} {world : Polled suite} {mailbox : Mailbox}

def hint : Hint := recipientHint suite recipient.identity.id (clock 0)

def filler (round k : Nat) : Envelope where
  v := 1
  recipientHint := hint
  payload := BigEndian.encode 2 k
  sizeClass := 0
  depositedMs := clock round
  ttlMs := 0

/-- With the message, as many as a slot holds. -/
@[irreducible]
def ids : List Nat := List.range 511

theorem ids_eq : ids = List.range 511 := by
  with_unfolding_all rfl

theorem length_ids : ids.length = 511 := by
  simp [ids_eq]

def fillers : Nat → List Envelope
  | 0 => []
  | round + 1 => ids.map (filler (round + 1))

/-- The relay drops what has expired, the slot is filled, and the client polls. -/
def roundOps (round : Nat) : List (Op suite) :=
  .gc (clock round) :: (fillers round).map (fun env => .deposit env (clock round)) ++
    [.poll (clock round) (clock round) fresh]

def ops : Nat → List (Op suite)
  | 0 => [.deposit mail (clock 0), .poll (clock 0) (clock 0) fresh]
  | round + 1 => ops round ++ roundOps (round + 1)

abbrev after (round : Nat) : Polled suite :=
  Steps.exec (step samplePrimitives ignore) (start recipient) (ops round)

def trace : Nat → List Envelope
  | 0 => [mail]
  | round + 1 => trace round ++ mail :: fillers (round + 1)

theorem toNat_clock (hround : round < 12) : (clock round).toNat = 864000000 + round := by
  rw [clock, UInt64.toNat_add, UInt64.toNat_ofNat']
  have hstart : (864000000 : UInt64).toNat = 864000000 := by decide
  omega

theorem request_hints : ∀ round < 12,
    (Poller.new recipient.identity.id).request suite (clock round) =
      { hints := [hint, recipientHint suite recipient.identity.id (clock 0 - epochMs),
          recipientHint suite recipient.identity.id (clock 0 + epochMs)]
        sinceMs := 0 } := by
  decide +kernel

theorem mail_opens : recipient.openEnvelope samplePrimitives mail =
    .ok (.fill 32 1, samplePacket) := by
  decide +kernel

theorem mail_header : mail.recipientHint = hint ∧ mail.depositedMs = clock 0 ∧
    mail.ttlMs = dmTtlMs ∧ envSize mail ≤ 1000 := by
  decide +kernel

theorem mail_live (hround : round < 12) : mail.isExpired (clock round) = false := by
  obtain ⟨-, hdeposited, httl, -⟩ := mail_header
  have hlong : dmTtlMs.toUInt64.toNat = 604800000 := by decide
  rw [Envelope.isExpired, hdeposited, httl, decide_eq_false_iff_not, gt_iff_lt,
    UInt64.lt_iff_toNat_lt, saturatingSub_toNat, hlong, toNat_clock hround, toNat_clock (by omega)]
  omega

theorem other_hints : recipientHint suite recipient.identity.id (clock 0 - epochMs) ≠ hint ∧
    recipientHint suite recipient.identity.id (clock 0 + epochMs) ≠ hint := by
  decide +kernel

theorem envSize_filler (round k : Nat) : envSize (filler round k) = 30 := by
  rw [envSize, filler, BigEndian.encode_length]

theorem filler_isExpired (round now k : Nat) (hround : round < 12) (hnow : now < 12)
    (hle : round ≤ now) :
    (filler round k).isExpired (clock now) = decide (round < now) := by
  have hzero : (filler round k).ttlMs.toUInt64.toNat = 0 := rfl
  rw [Envelope.isExpired, decide_eq_decide, gt_iff_lt, UInt64.lt_iff_toNat_lt,
    saturatingSub_toNat, hzero, toNat_clock hnow]
  show 0 < 864000000 + now - (clock round).toNat ↔ round < now
  rw [toNat_clock hround]
  omega

/-- The mailbox at the start of a round, after some of its fillers. -/
structure Filled (envelopes : List Envelope) (bytes : Nat) (mailbox : Mailbox) : Prop where
  slot : mailbox.slot hint = mail :: envelopes
  empty : ∀ other, other ≠ hint → mailbox.slot other = []
  bytes : mailbox.bytes ≤ bytes

theorem Filled.gc {round bytes : Nat} (h : Filled (fillers round) bytes mailbox)
    (hround : round + 1 < 12) : Filled [] bytes (mailbox.gc (clock (round + 1))).2 where
  slot := by
    have hlive := mail_live hround
    have hgone : (fillers round).filter (fun env => !env.isExpired (clock (round + 1))) = [] := by
      rw [List.filter_eq_nil_iff]
      intro env henv
      cases round with
      | zero => cases henv
      | succ round =>
        obtain ⟨k, -, rfl⟩ := List.mem_map.mp henv
        simp [filler_isExpired (round + 1) (round + 1 + 1) k (by omega) hround (by omega)]
    rw [Mailbox.slot_gc, h.slot, List.filter_cons, hgone]
    simp [hlive]
  empty other hother := by
    rw [Mailbox.slot_gc, h.empty other hother, List.filter_nil]
  bytes := (Mailbox.bytes_gc_le mailbox _).trans h.bytes

theorem Filled.deposit {envelopes : List Envelope} {round k bytes : Nat}
    (h : Filled envelopes bytes mailbox) (hround : round < 12) (hroom : envelopes.length < 511)
    (hbytes : bytes + 30 ≤ maxMailboxBytes) :
    Filled (envelopes ++ [filler round k]) (bytes + 30)
      ((Mailbox.deposit (filler round k) (clock round)).call mailbox).2 := by
  have hcheck : mailbox.checkDeposit (filler round k) (clock round) = .ok () := by
    have hskew : clock round ≤ saturatingAdd (clock round) maxClockSkewMs := by
      have hbound := (clock round).toNat_lt
      rw [UInt64.le_iff_toNat_le, saturatingAdd_toNat]
      omega
    have hold := h.bytes
    refine Mailbox.checkDeposit_eq_ok.mpr ⟨?_, hskew, ?_, ?_, ?_, ?_⟩
    · show (0 : UInt32) ≤ maxTtlMs
      decide
    · rw [filler_isExpired round round k hround hround le_rfl]
      simp
    · rw [envSize_filler]
      decide
    · rw [envSize_filler]
      omega
    · show (mailbox.slot hint).length < 512
      rw [h.slot, List.length_cons]
      omega
  have hhint : (filler round k).recipientHint = hint := rfl
  rw [Mailbox.call_deposit hcheck]
  constructor
  case slot =>
    rw [Mailbox.slot_stored, hhint, if_pos rfl, h.slot]
    rfl
  case empty =>
    intro other hother
    rw [Mailbox.slot_stored, hhint, if_neg hother, h.empty other hother]
  case bytes =>
    show mailbox.bytes + envSize (filler round k) ≤ bytes + 30
    rw [envSize_filler]
    have := h.bytes
    omega

theorem Filled.depositAll {envelopes : List Envelope} {round bytes : Nat}
    (h : Filled envelopes bytes mailbox) (world : Polled suite) (hround : round < 12)
    (ks : List Nat) (hroom : envelopes.length + ks.length ≤ 511)
    (hbytes : bytes + 30 * ks.length ≤ maxMailboxBytes) :
    ∃ full, Steps.exec (step samplePrimitives ignore) { world with mailbox := mailbox }
        (ks.map fun k => .deposit (filler round k) (clock round)) =
          { world with mailbox := full } ∧
      Filled (envelopes ++ ks.map (filler round)) (bytes + 30 * ks.length) full := by
  induction ks generalizing envelopes bytes mailbox with
  | nil => exact ⟨mailbox, rfl, by simpa using h⟩
  | cons k rest ih =>
    rw [List.length_cons] at hroom hbytes
    obtain ⟨full, hexec, hfilled⟩ := ih (h.deposit hround (by omega) (by omega))
      (by rw [List.length_append, List.length_singleton]; omega) (by omega)
    have hsum : bytes + 30 + 30 * rest.length = bytes + 30 * (k :: rest).length := by
      rw [List.length_cons]
      omega
    rw [List.append_assoc, hsum] at hfilled
    refine ⟨full, ?_, hfilled⟩
    rw [List.map_cons, Steps.exec_cons, step_deposit]
    exact hexec

theorem Filled.fetch {round bytes : Nat} {ks : List Nat}
    (h : Filled (ks.map (filler round)) bytes mailbox) (hround : round < 12)
    (hlen : ks.length ≤ 511) {sinceMs : UInt64} (hsince : sinceMs ≤ clock 0) {other other' : Hint}
    (hother : other ≠ hint) (hother' : other' ≠ hint) :
    mailbox.fetch [hint, other, other'] sinceMs (clock round) =
      mail :: ks.map (filler round) := by
  obtain ⟨-, hdeposited, -, hsize⟩ := mail_header
  have hlater : clock 0 ≤ clock round := by
    rw [UInt64.le_iff_toNat_le, toNat_clock (by omega), toNat_clock hround]
    omega
  have hcandidates : mailbox.candidates [hint, other, other'] sinceMs (clock round) =
      mail :: ks.map (filler round) := by
    have hall : ∀ env ∈ mail :: ks.map (filler round),
        (sinceMs ≤ env.depositedMs && !env.isExpired (clock round)) = true := by
      intro env henv
      rcases List.mem_cons.mp henv with hmail | hfiller
      · rw [hmail, hdeposited, mail_live hround, decide_eq_true hsince]
        rfl
      · obtain ⟨k, -, rfl⟩ := List.mem_map.mp hfiller
        have hfill : sinceMs ≤ (filler round k).depositedMs := UInt64.le_trans hsince hlater
        simp [filler_isExpired round round k hround hround le_rfl, hfill]
    simp only [Mailbox.candidates, List.flatMap_cons, List.flatMap_nil, h.slot,
      h.empty other hother, h.empty other' hother', List.filter_nil, List.append_nil]
    exact List.filter_eq_self.mpr hall
  have hbudget : ((mail :: ks.map (filler round)).map envSize).sum ≤ maxFetchBytes := by
    have hfillers : ((ks.map (filler round)).map envSize).sum = 30 * ks.length := by
      have hsize (k : Nat) : (envSize ∘ filler round) k = 30 := envSize_filler round k
      rw [List.map_map, List.map_congr_left fun k _ => hsize k, List.map_const', List.sum_replicate,
        smul_eq_mul, Nat.mul_comm]
    rw [List.map_cons, List.sum_cons, hfillers, maxFetchBytes]
    omega
  rw [Mailbox.fetch, hcandidates, Mailbox.withinBudget_eq_self (by omega)]
  apply List.mergeSort_of_pairwise
  rw [List.pairwise_cons]
  constructor
  · intro env henv
    obtain ⟨k, -, rfl⟩ := List.mem_map.mp henv
    rw [hdeposited]
    exact decide_eq_true hlater
  · rw [List.pairwise_map]
    exact List.pairwise_of_forall fun _ _ => decide_eq_true (UInt64.le_refl _)

/-- The client after polls that returned `seen`. -/
structure Polling (seen : List Envelope) (world : Polled suite) : Prop where
  identity : world.client.identity = recipient.identity
  blocked : world.client.blocked = ∅
  polls : world.poller.identityId = recipient.identity.id
  since : world.poller.lastFetchSinceMs ≤ clock 0
  log : world.log.map (·.1) = seen

theorem foldl_receive (client : Client suite) (log : List (Envelope × Receipt))
    (envelopes : List Envelope) :
    let after := envelopes.foldl (receive samplePrimitives ignore fresh) (client, log)
    after.1.identity = client.identity ∧ after.1.blocked = client.blocked ∧
      after.2.map (·.1) = log.map (·.1) ++ envelopes := by
  induction envelopes generalizing client log with
  | nil => exact ⟨rfl, rfl, (List.append_nil _).symm⟩
  | cons env rest ih =>
    obtain ⟨prekeys, sessions, hframe, -⟩ :=
      client.receiveEnvelope_frame (P := samplePrimitives) env (fresh env)
    obtain ⟨hidentity, hblocked, hlog⟩ := ih
      (receive samplePrimitives ignore fresh (client, log) env).1
      (receive samplePrimitives ignore fresh (client, log) env).2
    refine ⟨hidentity.trans ?_, hblocked.trans ?_, hlog.trans ?_⟩
    · simp only [receive, keepSeen, ignore, hframe]
    · simp only [receive, keepSeen, ignore, hframe]
    · simp [receive]

/-- A poll in a world whose slot holds the message and some fillers of the round. -/
theorem Polling.fetch {bytes : Nat} (h : Polling seen world) (round : Nat) (ks : List Nat)
    (hfilled : Filled (ks.map (filler round)) bytes world.mailbox) (hround : round < 12)
    (hlen : ks.length ≤ 511) :
    world.mailbox.fetch (world.poller.request suite (clock round)).hints
      world.poller.lastFetchSinceMs (clock round) = mail :: ks.map (filler round) := by
  have hrequest : (world.poller.request suite (clock round)).hints =
      [hint, recipientHint suite recipient.identity.id (clock 0 - epochMs),
        recipientHint suite recipient.identity.id (clock 0 + epochMs)] := by
    refine Eq.trans ?_ (congrArg FetchRequest.hints (request_hints round hround))
    rw [Poller.request, Poller.request, h.polls]
    rfl
  rw [hrequest]
  exact hfilled.fetch hround hlen h.since other_hints.1 other_hints.2

theorem Polling.poll {bytes : Nat} (h : Polling seen world) (round : Nat) (ks : List Nat)
    (hfilled : Filled (ks.map (filler round)) bytes world.mailbox) (hround : round < 12)
    (hlen : ks.length ≤ 511) :
    Polling (seen ++ mail :: ks.map (filler round))
      (world.step samplePrimitives ignore (.poll (clock round) (clock round) fresh)) := by
  have hfetch := h.fetch round ks hfilled hround hlen
  obtain ⟨hidentity, hblocked, hlog⟩ :=
    foldl_receive world.client world.log (mail :: ks.map (filler round))
  rw [← hfetch] at hidentity hblocked hlog
  constructor
  case identity => exact hidentity.trans h.identity
  case blocked => exact hblocked.trans h.blocked
  case polls => exact h.polls
  case since =>
    show saturatingSub (clock round) (2 * epochMs) ≤ clock 0
    have htwo : (2 * epochMs).toNat = 172800000 := by decide
    rw [UInt64.le_iff_toNat_le, saturatingSub_toNat, toNat_clock hround, toNat_clock (by omega),
      htwo]
    omega
  case log =>
    rw [← h.log, ← hfetch]
    exact hlog

def deposited : Polled suite := { start recipient with mailbox := Mailbox.new.stored mail }

theorem step_deposit_mail :
    (start recipient).step samplePrimitives ignore (.deposit mail (clock 0)) = deposited := by
  have hcheck : Mailbox.new.checkDeposit mail (clock 0) = .ok () := by decide +kernel
  rw [step]
  exact congrArg (fun mailbox => { start recipient with mailbox := mailbox })
    (congrArg Prod.snd (Mailbox.call_deposit hcheck))

theorem filled_deposited : Filled [] 1000 deposited.mailbox where
  slot := by
    rw [deposited, Mailbox.slot_stored, mail_header.1, if_pos rfl]
    rfl
  empty other hother := by
    rw [deposited, Mailbox.slot_stored, mail_header.1, if_neg hother]
    rfl
  bytes := by
    show 0 + envSize mail ≤ 1000
    rw [Nat.zero_add]
    exact mail_header.2.2.2

theorem polling_deposited : Polling [] deposited :=
  ⟨rfl, rfl, rfl, UInt64.zero_le, rfl⟩

theorem after_zero_eq : after 0 =
    deposited.step samplePrimitives ignore (.poll (clock 0) (clock 0) fresh) := by
  rw [← step_deposit_mail]
  rfl

theorem after_zero : Filled (fillers 0) 1000 (after 0).mailbox ∧ Polling (trace 0) (after 0) := by
  rw [after_zero_eq]
  exact ⟨filled_deposited, polling_deposited.poll 0 [] filled_deposited (by omega) (by simp)⟩

theorem round_run (hfilled : Filled (fillers round) (1000 + 15330 * round) world.mailbox)
    (hpolling : Polling seen world) (hround : round + 1 < 12) :
    Filled (fillers (round + 1)) (1000 + 15330 * (round + 1))
        (Steps.exec (step samplePrimitives ignore) world (roundOps (round + 1))).mailbox ∧
      Polling (seen ++ mail :: fillers (round + 1))
        (Steps.exec (step samplePrimitives ignore) world (roundOps (round + 1))) := by
  obtain ⟨full, hexec, hslot⟩ := (hfilled.gc hround).depositAll world hround ids
    (by rw [length_ids]; simp) (by rw [length_ids, maxMailboxBytes]; omega)
  have hbytes : 1000 + 15330 * round + 30 * ids.length = 1000 + 15330 * (round + 1) := by
    rw [length_ids]
    omega
  rw [hbytes, List.nil_append] at hslot
  have hsame : Polling seen { world with mailbox := full } :=
    ⟨hpolling.identity, hpolling.blocked, hpolling.polls, hpolling.since, hpolling.log⟩
  have hrun : Steps.exec (step samplePrimitives ignore) world (roundOps (round + 1)) =
      ({ world with mailbox := full } : Polled suite).step samplePrimitives ignore
        (.poll (clock (round + 1)) (clock (round + 1)) fresh) := by
    rw [roundOps, fillers, List.map_map, Steps.exec_snoc, Steps.exec_cons, Function.comp_def,
      step_gc, hexec]
  rw [hrun]
  exact ⟨hslot, hsame.poll (round + 1) ids hslot hround length_ids.le⟩

theorem after_round (hround : round < 12) :
    Filled (fillers round) (1000 + 15330 * round) (after round).mailbox ∧
      Polling (trace round) (after round) := by
  induction round with
  | zero => exact after_zero
  | succ round ih =>
    obtain ⟨hfilled, hpolling⟩ := ih (by omega)
    rw [after, ops, Steps.exec_append]
    exact round_run hfilled hpolling hround

theorem sha256_injective {a b : Bytes} (hlen : a.length = b.length) (hle : a.length ≤ 32)
    (h : suite.sha256 a = suite.sha256 b) : a = b := by
  have htake (input : Bytes) (hshort : input.length ≤ 32) :
      (suite.sha256 input).toList.take input.length = input.reverse := by
    show ((input.reverse ++ List.replicate 32 0).take 32).take input.length = input.reverse
    rw [List.take_take, min_eq_left hshort, ← List.length_reverse, List.take_left]
  apply List.reverse_injective
  rw [← htake a hle, ← htake b (hlen ▸ hle), h, hlen]

theorem filler_injective {round round' k k' : Nat} (hround : round < 12) (hround' : round' < 12)
    (hk : k < 511) (hk' : k' < 511)
    (h : envelopeTag suite (filler round k) = envelopeTag suite (filler round' k')) :
    round = round' ∧ k = k' := by
  have hpayload (round k : Nat) : (filler round k).payload.length = 2 := BigEndian.encode_length 2 k
  have hlen (round k : Nat) : (filler round k).encode.length = 30 := by
    simp [Envelope.encode, filler, Enc.Writer.u16, Enc.Writer.u32, Enc.Writer.u64, Enc.Writer.fixed,
      Enc.Writer.bytes, BigEndian.encode_length]
  have hencode := sha256_injective ((hlen round k).trans (hlen round' k').symm)
    (by rw [hlen]; decide) h
  have hdecode := congrArg Envelope.decode hencode
  rw [Envelope.decode_encode (by rw [hpayload]; decide),
    Envelope.decode_encode (by rw [hpayload]; decide)] at hdecode
  have hsame := Except.ok.inj hdecode
  constructor
  · have hclock := congrArg (fun env => env.depositedMs.toNat) hsame
    have hleft := toNat_clock hround
    have hright := toNat_clock hround'
    simp only [filler] at hclock
    omega
  · exact BigEndian.encode_injective (by omega) (by omega) (congrArg Envelope.payload hsame)

/-- The lifetimes tell the message from the fillers. -/
theorem filler_tag_ne (round k : Nat) : envelopeTag suite (filler round k) ≠ envelopeTag suite mail := by
  have hmail : (envelopeTag suite mail).toList.take 4 = [0x00, 0x84, 0x0c, 0x24] := by
    decide +kernel
  have hfiller : (envelopeTag suite (filler round k)).toList.take 4 = [0, 0, 0, 0] := by
    have hlast : (Enc.Writer.u32 0).reverse = [0, 0, 0, 0] := by decide
    show (((filler round k).encode.reverse ++ List.replicate 32 0).take 32).take 4 = [0, 0, 0, 0]
    rw [Envelope.encode, List.reverse_append, show (filler round k).ttlMs = 0 from rfl, hlast]
    rfl
  intro heq
  rw [heq, hmail] at hfiller
  simp at hfiller

def allFillers : Nat → List Envelope
  | 0 => []
  | round + 1 => allFillers round ++ fillers (round + 1)

theorem length_allFillers (round : Nat) : (allFillers round).length = 511 * round := by
  induction round with
  | zero => rfl
  | succ round ih =>
    rw [allFillers, List.length_append, ih, fillers, List.length_map, length_ids]
    omega

theorem mem_allFillers {env : Envelope} (henv : env ∈ allFillers round) :
    ∃ earlier ≤ round, ∃ k < 511, env = filler earlier k := by
  induction round with
  | zero => cases henv
  | succ round ih =>
    rcases List.mem_append.mp henv with hold | hnew
    · obtain ⟨earlier, hearlier, k, hk, hfiller⟩ := ih hold
      exact ⟨earlier, by omega, k, hk, hfiller⟩
    · obtain ⟨k, hk, rfl⟩ := List.mem_map.mp hnew
      rw [ids_eq, List.mem_range] at hk
      exact ⟨round + 1, le_rfl, k, hk, rfl⟩

theorem nodup_fillers (hround : round < 12) : ((fillers round).map (envelopeTag suite)).Nodup := by
  cases round with
  | zero => exact List.nodup_nil
  | succ round =>
    rw [fillers, List.map_map, ids_eq]
    apply List.Nodup.map_on _ List.nodup_range
    intro k hk k' hk' h
    exact (filler_injective hround hround (List.mem_range.mp hk) (List.mem_range.mp hk') h).2

theorem fillers_new (hround : round + 1 < 12) :
    ∀ tag ∈ (fillers (round + 1)).map (envelopeTag suite),
      tag ∉ (mail :: allFillers round).map (envelopeTag suite) := by
  intro tag htag hold
  obtain ⟨env, henv, rfl⟩ := List.mem_map.mp htag
  obtain ⟨k, hk, rfl⟩ := List.mem_map.mp henv
  rw [ids_eq, List.mem_range] at hk
  rw [List.map_cons, List.mem_cons] at hold
  rcases hold with hmail | hold
  · exact filler_tag_ne (round + 1) k hmail
  · obtain ⟨other, hother, heq⟩ := List.mem_map.mp hold
    obtain ⟨earlier, hearlier, k', hk', rfl⟩ := mem_allFillers hother
    have := (filler_injective (by omega) hround hk' hk heq).1
    omega

/-- Through ten rounds the filter knows the message, so only the fillers are new. -/
theorem passed_trace (hround : round < 11) :
    Recent.passed seenCap ((trace round).map (envelopeTag suite)) =
      (mail :: allFillers round).map (envelopeTag suite) := by
  induction round with
  | zero => rfl
  | succ round ih =>
    have hmail : Recent.passed seenCap ((trace round ++ [mail]).map (envelopeTag suite)) =
        (mail :: allFillers round).map (envelopeTag suite) := by
      have hlen := length_allFillers round
      rw [List.map_append, List.map_singleton, Recent.passed_concat, ih (by omega), Recent.offer,
        if_pos]
      rw [List.rtake, List.length_map, List.length_cons, hlen, seenCap,
        Nat.sub_eq_zero_of_le (by omega), List.drop_zero]
      exact List.mem_map_of_mem List.mem_cons_self
    have hsplit : trace (round + 1) = trace round ++ [mail] ++ fillers (round + 1) := by
      rw [trace, List.append_assoc]
      rfl
    rw [hsplit, List.map_append, Recent.passed_append_new (nodup_fillers (by omega)), hmail,
      allFillers, ← List.map_append, List.cons_append]
    rw [hmail]
    exact fillers_new (by omega)

/-- After ten rounds the message is not among the last `SEEN_CAP` any more. -/
theorem mail_forgotten : envelopeTag suite mail ∉
    (Recent.passed seenCap ((trace 10).map (envelopeTag suite))).rtake seenCap := by
  have hlen := length_allFillers 10
  rw [passed_trace (by omega), List.rtake, List.length_map, List.length_cons, hlen, seenCap,
    List.map_cons]
  intro hmem
  obtain ⟨env, henv, htag⟩ := List.mem_map.mp (List.mem_of_mem_drop (i := 110) hmem)
  obtain ⟨round, -, k, -, rfl⟩ := mem_allFillers henv
  exact filler_tag_ne round k htag

/-- A poll begins with the message, whatever it does with the fillers. -/
theorem Polling.processed_poll {bytes : Nat} (h : Polling seen world) (round : Nat) (ks : List Nat)
    (hfilled : Filled (ks.map (filler round)) bytes world.mailbox) (hround : round < 12)
    (hlen : ks.length ≤ 511) (hfiltered : Filtered world.client world.log)
    (hforgotten : envelopeTag suite mail ∉
      (Recent.passed seenCap (seen.map (envelopeTag suite))).rtake seenCap) :
    processed world.log ++ [mail] <+: processed (world.step samplePrimitives ignore
      (.poll (clock round) (clock round) fresh)).log := by
  have harrivals : arrivals (S := suite) world.log = seen.map (envelopeTag suite) := by
    rw [← h.log, List.map_map]
    rfl
  have hopens : ∃ opened, world.client.openEnvelope samplePrimitives mail = .ok opened := by
    refine ⟨(.fill 32 1, samplePacket), ?_⟩
    rw [← mail_opens, Client.openEnvelope, Client.openEnvelope, h.identity, h.blocked]
    rfl
  have hagain : processed (receive samplePrimitives ignore fresh
      (world.client, world.log) mail).2 = processed world.log ++ [mail] :=
    hfiltered.processed_receive fresh (harrivals ▸ hforgotten) hopens
  have hfetch := h.fetch round ks hfilled hround hlen
  show _ <+: processed ((world.mailbox.fetch
    (world.poller.request suite (clock round)).hints world.poller.lastFetchSinceMs
    (clock round)).foldl (receive samplePrimitives ignore fresh)
      (world.client, world.log)).2
  rw [← hagain, hfetch, List.foldl_cons]
  exact processed_prefix_foldl fresh _ _ _

theorem mail_mem_processed (round : Nat) : mail ∈ processed (after round).log := by
  induction round with
  | zero =>
    have hfirst := polling_deposited.processed_poll 0 [] filled_deposited (by omega) (by simp)
      (filtered_start recipient) (List.not_mem_nil)
    rw [after_zero_eq]
    exact hfirst.subset (List.mem_append_right _ (List.mem_singleton_self mail))
  | succ round ih =>
    rw [after, ops, Steps.exec_append]
    exact (processed_prefix_run _ _).subset ih

/-- The first poll processes the message, and the twelfth does so again. -/
theorem mail_processed_twice :
    ¬(processed (Steps.exec (step samplePrimitives ignore) (start recipient)
      (ops 10 ++ [.poll (clock 10) (clock 10) fresh])).log).Nodup := by
  obtain ⟨hfilled, hpolling⟩ := after_round (show 10 < 12 by decide)
  have hfiltered := filtered_run samplePrimitives ignore recipient (ops 10)
  have hprefix := hpolling.processed_poll 10 ids hfilled (by decide) length_ids.le hfiltered
    mail_forgotten
  intro hnodup
  rw [Steps.exec_snoc] at hnodup
  have htwice := hnodup.sublist hprefix.sublist
  exact (List.nodup_append.mp htwice).2.2 mail (mail_mem_processed 10) mail
    (List.mem_singleton_self mail) rfl

end Dante.Core.Flood
