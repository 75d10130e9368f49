import Dante.Relay.Sequence

/-!
One client polls one channel of a relay. It keeps the largest number that it has
received and asks for what lies beyond it, so a frame that is stored below that mark
stays unseen.
-/

namespace Dante.Relay

open Crypto

theorem takeWithin_of_le {budget : Nat} {entries : List Frame} (h : frameBytes entries ≤ budget) :
    ChannelStore.takeWithin budget entries = entries := by
  induction entries generalizing budget with
  | nil => rfl
  | cons first rest ih =>
    rw [frameBytes_cons] at h
    rw [ChannelStore.takeWithin, if_pos (by omega), ih (by omega)]

/-- A relay, and the frames that the client has received from it, in the order of arrival. -/
structure Poller where
  store : ChannelStore
  received : List Frame

inductive Poller.Op where
  | relay (op : ChannelOp)
  | poll

namespace Poller

variable {S : Suite} {channelId : Hash} {world : Poller}

def start (ledger : Ledger) (cap : Nat) : Poller where
  store := .new ledger cap
  received := []

/-- The largest number received, which the client sends as `since_seq`. -/
def lastSeq (world : Poller) : UInt64 :=
  world.received.foldl (fun last frame => max last frame.seq) 0

def pending (world : Poller) (channelId : Hash) : List Frame :=
  (world.store.log channelId).entries.filter fun frame => world.lastSeq < frame.seq

def step (S : Suite) (channelId : Hash) (world : Poller) : Op → Poller
  | .relay op => { world with store := world.store.step S op }
  | .poll =>
    { world with received := world.received ++ world.store.fetchChannel channelId world.lastSeq }

def Holds (world : Poller) (channelId : Hash) (seq : UInt64) : Prop :=
  ∃ frame ∈ (world.store.log channelId).entries, frame.seq = seq

instance (seq : UInt64) : Decidable (world.Holds channelId seq) :=
  inferInstanceAs (Decidable (∃ frame ∈ _, _))

/-- What is stored is stored beyond the largest number received. -/
def StoresAhead (channelId : Hash) (world : Poller) : ChannelOp → Prop
  | .post _ target _ _ _ _ =>
    target = channelId → world.lastSeq < (world.store.log channelId).nextSeq
  | .gossip target seq _ _ _ _ =>
    target = channelId → world.lastSeq < seq ∨ world.Holds channelId seq
  | .adopt target rows _ =>
    target = channelId → ∀ row ∈ rows, world.lastSeq < row.1 ∨ world.Holds channelId row.1
  | _ => True

instance (op : ChannelOp) : Decidable (world.StoresAhead channelId op) :=
  match op with
  | .post _ target _ _ _ _ => inferInstanceAs
      (Decidable (target = channelId → world.lastSeq < (world.store.log channelId).nextSeq))
  | .gossip target seq _ _ _ _ => inferInstanceAs
      (Decidable (target = channelId → world.lastSeq < seq ∨ world.Holds channelId seq))
  | .adopt target rows _ =>
    have := List.decidableBAll
      (fun row : UInt64 × Bytes => world.lastSeq < row.1 ∨ world.Holds channelId row.1) rows
    inferInstanceAs (Decidable (target = channelId → _))
  | .maintain .. => isTrue trivial
  | .setRoster .. => isTrue trivial
  | .gossipRoster .. => isTrue trivial
  | .ledger .. => isTrue trivial

/-- Nothing is stored behind the client, no number overflows, and what a poll asks for fits in
one answer. -/
def Ahead (channelId : Hash) (world : Poller) : Op → Prop
  | .relay op => world.store.Fits op ∧ world.StoresAhead channelId op
  | .poll => frameBytes (world.pending channelId) ≤ maxChannelFetchBytes

instance (op : Op) : Decidable (world.Ahead channelId op) :=
  match op with
  | .relay _ => inferInstanceAs (Decidable (_ ∧ _))
  | .poll => inferInstanceAs (Decidable (frameBytes _ ≤ _))

theorem StoresAhead.brings {op : ChannelOp} {frame : Frame}
    (h : world.StoresAhead channelId op) (hbrings : world.store.Brings S channelId frame op) :
    world.lastSeq < frame.seq := by
  cases op with
  | post limited target blob identity sig nowMs =>
    obtain ⟨rfl, -, rfl⟩ := hbrings
    exact h rfl
  | gossip target seq blob identity sig nowMs =>
    obtain ⟨rfl, -, hnew, rfl⟩ := hbrings
    rcases h rfl with hahead | ⟨other, hother, hseq⟩
    · exact hahead
    · exact absurd hseq (hnew other hother)
  | adopt target rows nowMs =>
    obtain ⟨rfl, hmissing⟩ := hbrings
    obtain ⟨hincoming, hnew⟩ := mem_missing.mp hmissing
    rcases h rfl _ (ChannelStore.mem_incoming hincoming).1 with hahead | ⟨other, hother, hseq⟩
    · exact hahead
    · exact absurd hseq (hnew other hother)
  | maintain nowMs => cases hbrings
  | setRoster limited update => cases hbrings
  | gossipRoster update => cases hbrings
  | ledger ledger => cases hbrings

theorem le_foldl_max (frames : List Frame) (last : UInt64) :
    last ≤ frames.foldl (fun last frame => max last frame.seq) last ∧
      ∀ frame ∈ frames, frame.seq ≤ frames.foldl (fun last frame => max last frame.seq) last := by
  induction frames generalizing last with
  | nil => exact ⟨UInt64.le_refl _, fun _ hframe => by cases hframe⟩
  | cons first rest ih =>
    obtain ⟨hlast, hrest⟩ := ih (max last first.seq)
    rw [List.foldl_cons]
    refine ⟨by grind, ?_⟩
    intro frame hframe
    rcases List.mem_cons.mp hframe with rfl | hframe
    · grind
    · exact hrest frame hframe

/-- The invariant: the log is in order, what lies at or below the mark has been received, and
frames arrive in order. -/
structure CaughtUp (channelId : Hash) (world : Poller) : Prop where
  sound : (world.store.log channelId).Sound
  seen : ∀ frame ∈ (world.store.log channelId).entries, frame.seq ≤ world.lastSeq →
    frame ∈ world.received
  ordered : Ordered world.received

theorem caughtUp_start (ledger : Ledger) (cap : Nat) :
    (start ledger cap).CaughtUp channelId where
  sound := ChannelLog.sound_new
  seen := fun _ hframe => by cases hframe
  ordered := List.Pairwise.nil

theorem received_poll (hfits : frameBytes (world.pending channelId) ≤ maxChannelFetchBytes) :
    (world.step S channelId .poll).received = world.received ++ world.pending channelId := by
  rw [step, ChannelStore.fetchChannel]
  exact congrArg _ (takeWithin_of_le hfits)

/-- After such a poll, every stored frame has been received. -/
theorem CaughtUp.received_all (h : world.CaughtUp channelId)
    (hfits : frameBytes (world.pending channelId) ≤ maxChannelFetchBytes) {frame : Frame}
    (hframe : frame ∈ (world.store.log channelId).entries) :
    frame ∈ (world.step S channelId .poll).received := by
  rw [received_poll hfits]
  by_cases hahead : world.lastSeq < frame.seq
  · exact List.mem_append_right _ (List.mem_filter.mpr ⟨hframe, decide_eq_true hahead⟩)
  · exact List.mem_append_left _ (h.seen frame hframe (UInt64.not_lt.mp hahead))

theorem CaughtUp.step (h : world.CaughtUp channelId) {op : Op} (hop : world.Ahead channelId op) :
    (world.step S channelId op).CaughtUp channelId := by
  cases op with
  | relay op =>
    obtain ⟨hfits, hahead⟩ := hop
    exact {
      sound := (ChannelStore.logStep op channelId).sound h.sound hfits
      seen := by
        intro frame hframe hle
        rcases ChannelStore.mem_step hframe with hold | hbrings
        · exact h.seen frame hold hle
        · have hlt := hahead.brings hbrings
          have hmark : (world.step S channelId (.relay op)).lastSeq = world.lastSeq := rfl
          rw [hmark] at hle
          grind
      ordered := h.ordered }
  | poll =>
    exact {
      sound := h.sound
      seen := fun frame hframe _ => h.received_all hop hframe
      ordered := by
        rw [received_poll hop]
        apply List.pairwise_append.mpr ⟨h.ordered, h.sound.ordered.sublist List.filter_sublist, _⟩
        intro old hold new hnew
        have hle := (le_foldl_max world.received 0).2 old hold
        have hlt := of_decide_eq_true (List.mem_filter.mp hnew).2
        simp only [lastSeq] at hlt
        grind }

end Poller

/-- In every run that stores nothing behind the client, the frames arrive in increasing order,
and after each poll the client has received every frame that the log holds then. -/
theorem polls_see_every_frame_run (S : Suite) (channelId : Hash) (ledger : Ledger) (cap : Nat)
    (ops : List Poller.Op)
    (hahead : Steps.Along (Poller.step S channelId) (Poller.Ahead channelId) (.start ledger cap)
      (ops ++ [.poll])) :
    let world := Steps.exec (Poller.step S channelId) (.start ledger cap) (ops ++ [.poll])
    (∀ frame ∈ (world.store.log channelId).entries, frame ∈ world.received) ∧
      Ordered world.received := by
  intro world
  obtain ⟨hbefore, hpoll, -⟩ := Steps.along_append.mp hahead
  have hcaught : (Steps.exec (Poller.step S channelId) (.start ledger cap) ops).CaughtUp
      channelId :=
    Steps.exec_invariant (Poller.CaughtUp channelId) (fun _ _ h hop => h.step hop)
      (Poller.caughtUp_start ledger cap) hbefore
  have hworld : world = (Steps.exec (Poller.step S channelId) (.start ledger cap) ops).step S
      channelId .poll := Steps.exec_snoc _ _ _
  rw [hworld]
  exact ⟨fun frame hframe => hcaught.received_all hpoll hframe, (hcaught.step hpoll).ordered⟩

/-- Two polls, with a frame of a sibling ahead of the client between them. -/
theorem polls_see_sample :
    let world := Steps.exec (Poller.step sampleSuite sampleChannel) (.start sampleLedger 1000)
      ([.relay (sampleGossip 1 [1] 2000), .poll, .relay (sampleGossip 3 [3] 2500)] ++ [.poll])
    Ordered world.received :=
  (polls_see_every_frame_run sampleSuite sampleChannel sampleLedger 1000 _
    (by decide +kernel)).2

/-- Gossip delivers the second frame of a channel before the first: a poll between them moves
the client past the first one, and no later poll returns it. -/
theorem late_frame_unseen :
    let world := Steps.exec (Poller.step sampleSuite sampleChannel) (.start sampleLedger 1000)
      [.relay (sampleGossip 2 [2] 2000), .poll, .relay (sampleGossip 1 [1] 2500), .poll]
    { seq := 1, blob := [1], storedMs := 2500 } ∈ (world.store.log sampleChannel).entries ∧
      world.received = [{ seq := 2, blob := [2], storedMs := 2000 }] := by
  decide +kernel

end Dante.Relay
