import Dante.Core.Polling
import Dante.Core.SealedSender

/-!
Envelopes that come again. Every poll brings back the mail of about two days, and the duplicate
filter alone keeps an envelope from being processed twice. The filter is bounded and records an
envelope before it is authenticated: whoever can deposit enough of them makes the client forget the
others.
-/

namespace Dante.Core

open Crypto Dm Net

/-- A client, the relay that it polls, and what the polls have returned so far. -/
structure Polled (S : Suite) where
  mailbox : Mailbox
  client : Client S
  poller : Poller
  log : List (Envelope × Receipt)

inductive Polled.Op (S : Suite) where
  /-- Anybody deposits an envelope. -/
  | deposit (env : Envelope) (nowMs : UInt64)
  | gc (nowMs : UInt64)
  /-- The client polls, with the secrets its ratchets draw. -/
  | poll (nowMs relayMs : UInt64) (fresh : Envelope → Key)
  /-- Anything else the client does. -/
  | act (change : Client S → Client S)

namespace Polled

variable (P : Primitives) {S : Suite}
variable {log : List (Envelope × Receipt)} {client : Client S}

/-- Nothing but `receive_all` changes the duplicate filter. -/
def keepSeen (client other : Client S) : Client S := { other with seen := client.seen }

/-- One envelope of a poll; `handle` is what its content makes the client do. -/
def receive (handle : Client S → Receipt → Client S) (fresh : Envelope → Key)
    (state : Client S × List (Envelope × Receipt)) (env : Envelope) :
    Client S × List (Envelope × Receipt) :=
  let (receipt, client) := state.1.receiveEnvelope P env (fresh env)
  (keepSeen client (handle client receipt), state.2 ++ [(env, receipt)])

def step (handle : Client S → Receipt → Client S) (world : Polled S) : Op S → Polled S
  | .deposit env nowMs =>
    { world with mailbox := ((Mailbox.deposit env nowMs).call world.mailbox).2 }
  | .gc nowMs => { world with mailbox := (world.mailbox.gc nowMs).2 }
  | .poll nowMs relayMs fresh =>
    let request := world.poller.request S nowMs
    let envelopes := world.mailbox.fetch request.hints request.sinceMs relayMs
    let (client, log) := envelopes.foldl (receive P handle fresh) (world.client, world.log)
    { world with
      client := client
      log := log
      poller := Poller.step S world.poller { nowMs := nowMs, fetch := fun _ => .ok envelopes } }
  | .act change => { world with client := keepSeen world.client (change world.client) }

def start (client : Client S) : Polled S where
  mailbox := .new
  client := { client with seen := .new }
  poller := .new client.identity.id
  log := []

/-- The envelopes that the polls returned, as the filter knows them. -/
def arrivals (log : List (Envelope × Receipt)) : List Hash :=
  log.map fun entry => envelopeTag S entry.1

/-- The envelopes whose packets reached `decrypt_packet`, in order. -/
def processed (log : List (Envelope × Receipt)) : List Envelope :=
  (log.filter fun entry => entry.2.processed).map (·.1)

/-- The filter has seen exactly the arrivals, and let pass whatever was processed. -/
structure Filtered (client : Client S) (log : List (Envelope × Receipt)) : Prop where
  tracks : client.seen.Tracks seenCap (Recent.passed seenCap (arrivals (S := S) log))
  passed : ((processed log).map (envelopeTag S)).Sublist
    (Recent.passed seenCap (arrivals (S := S) log))

variable {P} {handle : Client S → Receipt → Client S}

theorem step_deposit (world : Polled S) (env : Envelope) (nowMs : UInt64) :
    world.step P handle (.deposit env nowMs) =
      { world with mailbox := ((Mailbox.deposit env nowMs).call world.mailbox).2 } := rfl

theorem step_gc (world : Polled S) (nowMs : UInt64) :
    world.step P handle (.gc nowMs) =
      { world with mailbox := (world.mailbox.gc nowMs).2 } := rfl

theorem filtered_start (client : Client S) : Filtered (start client).client (start client).log where
  tracks := SeenEnvelopes.tracks_new seenCap
  passed := List.nil_sublist _

theorem processed_concat (log : List (Envelope × Receipt)) (entry : Envelope × Receipt) :
    processed (log ++ [entry]) =
      if entry.2.processed then processed log ++ [entry.1] else processed log := by
  by_cases hprocessed : entry.2.processed = true
  · simp [processed, hprocessed]
  · simp [processed, hprocessed]

theorem Filtered.receive (h : Filtered client log) (fresh : Envelope → Key) (env : Envelope) :
    Filtered (Polled.receive P handle fresh (client, log) env).1
      (Polled.receive P handle fresh (client, log) env).2 := by
  obtain ⟨prekeys, sessions, hframe, -⟩ := client.receiveEnvelope_frame (P := P) env (fresh env)
  obtain ⟨hnew, htracks⟩ := h.tracks.record (envelopeTag S env)
  have harrivals (receipt : Receipt) :
      arrivals (S := S) (log ++ [(env, receipt)]) = arrivals (S := S) log ++ [envelopeTag S env] := by
    simp [arrivals]
  constructor
  case tracks =>
    dsimp only [Polled.receive, keepSeen]
    rw [harrivals, Recent.passed_concat, hframe]
    exact htracks
  case passed =>
    dsimp only [Polled.receive]
    rw [harrivals, Recent.passed_concat, Recent.offer, processed_concat]
    dsimp only
    split
    · -- a processed envelope is new to the filter
      rename_i hprocessed
      have hpass := ((client.receiveEnvelope_processed_iff env (fresh env)).mp hprocessed).1
      rw [hnew] at hpass
      rw [if_neg (of_decide_eq_true hpass), List.map_append, List.map_singleton]
      exact h.passed.append_right _
    · split
      · exact h.passed
      · exact h.passed.trans (List.sublist_append_left _ _)

/-- An envelope that the filter has forgotten is processed again if it opens. -/
theorem Filtered.processed_receive (h : Filtered client log) (fresh : Envelope → Key)
    {env : Envelope}
    (hforgotten : envelopeTag S env ∉ (Recent.passed seenCap (arrivals (S := S) log)).rtake seenCap)
    (hopens : ∃ opened, client.openEnvelope P env = .ok opened) :
    processed (Polled.receive P handle fresh (client, log) env).2 = processed log ++ [env] := by
  have hnew := (h.tracks.record (envelopeTag S env)).1
  rw [decide_eq_true hforgotten] at hnew
  have hprocessed := (client.receiveEnvelope_processed_iff env (fresh env)).mpr ⟨hnew, hopens⟩
  dsimp only [Polled.receive]
  rw [processed_concat, if_pos hprocessed]

theorem Filtered.foldl (h : Filtered client log) (fresh : Envelope → Key)
    (envelopes : List Envelope) :
    Filtered (envelopes.foldl (Polled.receive P handle fresh) (client, log)).1
      (envelopes.foldl (Polled.receive P handle fresh) (client, log)).2 := by
  induction envelopes generalizing client log with
  | nil => exact h
  | cons env rest ih => exact ih (h.receive fresh env)

theorem Filtered.step {world : Polled S} (h : Filtered world.client world.log) (op : Op S) :
    Filtered (world.step P handle op).client (world.step P handle op).log := by
  cases op with
  | deposit env nowMs => exact h
  | gc nowMs => exact h
  | poll nowMs relayMs fresh => exact h.foldl fresh _
  | act change => exact ⟨h.tracks, h.passed⟩

theorem processed_prefix_concat (log : List (Envelope × Receipt)) (entry : Envelope × Receipt) :
    processed log <+: processed (log ++ [entry]) := by
  rw [processed_concat]
  split
  · exact List.prefix_append _ _
  · exact List.prefix_rfl

theorem processed_prefix_foldl (fresh : Envelope → Key) (envelopes : List Envelope)
    (client : Client S) (log : List (Envelope × Receipt)) :
    processed log <+:
      processed (envelopes.foldl (Polled.receive P handle fresh) (client, log)).2 := by
  induction envelopes generalizing client log with
  | nil => exact List.prefix_rfl
  | cons env rest ih =>
    apply List.IsPrefix.trans _ (ih _ _)
    exact processed_prefix_concat log _

theorem processed_prefix_run (ops : List (Op S)) (world : Polled S) :
    processed world.log <+: processed (Steps.exec (step P handle) world ops).log := by
  induction ops generalizing world with
  | nil => exact List.prefix_rfl
  | cons op rest ih =>
    apply List.IsPrefix.trans _ (ih _)
    cases op with
    | deposit env nowMs => exact List.prefix_rfl
    | gc nowMs => exact List.prefix_rfl
    | poll nowMs relayMs fresh => exact processed_prefix_foldl fresh _ _ _
    | act change => exact List.prefix_rfl

theorem filtered_run (P : Primitives) (handle : Client S → Receipt → Client S)
    (client : Client S) (ops : List (Op S)) :
    Filtered (Steps.exec (step P handle) (start client) ops).client
      (Steps.exec (step P handle) (start client) ops).log := by
  refine Steps.exec_invariant (fun world : Polled S => Filtered world.client world.log) ?_
    (filtered_start client) (Steps.along_of_forall (p := fun _ => True) fun _ _ => trivial)
  intro world op h _
  exact h.step op

end Polled

/-- In every run in which each envelope that a poll returns again is among the last `SEEN_CAP`
newcomers, no envelope reaches `decrypt_packet` twice. -/
theorem processed_once_run (P : Primitives) (S : Suite) (handle : Client S → Receipt → Client S)
    (client : Client S) (ops : List (Polled.Op S))
    (hremembers : Recent.Remembers seenCap (Polled.arrivals (S := S)
      (Steps.exec (Polled.step P handle) (Polled.start client) ops).log)) :
    (Polled.processed (Steps.exec (Polled.step P handle) (Polled.start client) ops).log).Nodup := by
  have hfiltered := Polled.filtered_run P handle client ops
  have hpassed := Recent.nodup_passed_iff.mpr hremembers
  exact (hpassed.sublist hfiltered.passed).of_map _

namespace Flood

/-- A suite whose digest is the end of the input. -/
def suite : Suite :=
  { sampleSuite with
    sha256 := fun input => .ofList ((input.reverse ++ List.replicate 32 0).take 32) (by simp) }

def identity (idk ik : Key) : Identity suite where
  idk := idk
  sign := sampleSign idk
  ik := ik
  sign_verifies msg := by simp [Verifies, suite, sampleSuite]

def recipient : Client suite where
  identity := identity (.fill 32 3) (.fill 32 13)
  prekeys := { spk := .fill 32 50, otps := [] }
  sessions := ∅
  blocked := ∅
  seen := .new

def clock (round : Nat) : UInt64 := 864000000 + UInt64.ofNat round

/-- The envelope that stays: an ordinary direct message, for a week. -/
@[irreducible]
def mail : Envelope :=
  let sender := identity (.fill 32 1) (.fill 32 11)
  sealedOr (Envelope.sealWith samplePrimitives suite recipient.identity.id
    (recipient.identity.agreePublic samplePrimitives) sender.idk samplePacket.encode (clock 0)
    dmTtlMs sender.sign (.fill 32 60))

/-- The client takes note of no content, so it does nothing but receive. -/
def ignore (client : Client suite) (_ : Receipt) : Client suite := client

def fresh (_ : Envelope) : Key := .fill 32 99

end Flood

open Flood in
/-- Two polls return the message. -/
theorem processed_once_mail :
    (Polled.processed (Steps.exec (Polled.step samplePrimitives ignore) (Polled.start recipient)
      [.deposit mail (clock 0), .poll (clock 0) (clock 0) fresh,
        .poll (clock 1) (clock 1) fresh]).log).Nodup :=
  processed_once_run samplePrimitives suite ignore recipient _ (by decide +kernel)

end Dante.Core
