import Dante.Relay.ChannelLog

/-!
The invariant of the channel logs. In every log the numbers increase and stay below the next one, no
log is longer than the entry cap, and the byte total is right. What a sibling chooses freely is the
number of a frame, and the largest number has no successor.
-/

namespace Dante.Relay

open Crypto Method Except

structure ChannelLog.Sound (log : ChannelLog) : Prop where
  ordered : Ordered log.entries
  below : ∀ frame ∈ log.entries, frame.seq < log.nextSeq
  capped : log.entries.length ≤ maxChannelEntries

namespace ChannelLog

variable {log : ChannelLog}

theorem sound_new : ChannelLog.new.Sound where
  ordered := List.Pairwise.nil
  below := by simp [ChannelLog.new]
  capped := Nat.zero_le _

theorem Sound.suffix (hordered : Ordered log.entries)
    (hbelow : ∀ frame ∈ log.entries, frame.seq < log.nextSeq) {entries : List Frame}
    (hsuffix : entries <:+ log.entries) (hlen : entries.length ≤ maxChannelEntries) :
    { log with entries : ChannelLog }.Sound where
  ordered := hordered.sublist hsuffix.sublist
  below := fun frame hframe => hbelow frame (hsuffix.mem hframe)
  capped := hlen

theorem Sound.posted (h : log.Sound) (hfits : log.nextSeq < 0xFFFFFFFFFFFFFFFF) (blob : Bytes)
    (nowMs : UInt64) : (log.posted blob nowMs).trimmed.Sound := by
  apply Sound.suffix _ _ (trim_suffix _) (length_trim_le _)
  · apply List.pairwise_append.mpr ⟨h.ordered, List.pairwise_singleton _ _, _⟩
    intro frame hframe last hlast
    rw [List.mem_singleton.mp hlast]
    exact h.below frame hframe
  · intro frame hframe
    rcases List.mem_append.mp hframe with hold | hnew
    · have hlt := h.below frame hold
      simp only [ChannelLog.posted]
      grind
    · rw [List.mem_singleton.mp hnew]
      simp only [ChannelLog.posted]
      grind

theorem Sound.folded (h : log.Sound) {frame : Frame} (hfits : frame.seq < 0xFFFFFFFFFFFFFFFF)
    (hnew : ∀ other ∈ log.entries, other.seq ≠ frame.seq) : (log.folded frame).trimmed.Sound := by
  apply Sound.suffix (ordered_insertFrame h.ordered hnew) _ (trim_suffix _) (length_trim_le _)
  intro other hother
  simp only [ChannelLog.folded]
  rcases mem_insertFrame.mp hother with rfl | hold
  · grind
  · have hlt := h.below other hold
    grind

theorem Sound.merged (h : log.Sound) {incoming : List Frame} {last : Frame}
    (hincoming : Ordered incoming) (hlast : ∀ frame ∈ incoming, frame.seq ≤ last.seq)
    (hfits : last.seq < 0xFFFFFFFFFFFFFFFF) {entries : List Frame}
    (hsuffix : entries <:+ (log.merged incoming last).entries)
    (hlen : entries.length ≤ maxChannelEntries) :
    { log.merged incoming last with entries : ChannelLog }.Sound := by
  apply Sound.suffix _ _ hsuffix hlen
  · apply ordered_insertAll h.ordered (ordered_missing hincoming)
    intro frame hframe other hother
    exact (mem_missing.mp hframe).2 other hother
  · intro frame hframe
    simp only [ChannelLog.merged]
    rcases mem_insertAll.mp hframe with hold | hnew
    · have hlt := h.below frame hold
      grind
    · have hle := hlast frame (mem_missing.mp hnew).1
      grind

end ChannelLog

namespace ChannelStore

variable {S : Suite} {store : ChannelStore}
variable {channelId : Hash} {log : ChannelLog}

/-- The successors of the numbers in the step are numbers again. -/
def Fits (store : ChannelStore) : ChannelOp → Prop
  | .post _ channelId _ _ _ _ => (store.log channelId).nextSeq < 0xFFFFFFFFFFFFFFFF
  | .gossip _ seq _ _ _ _ => seq < 0xFFFFFFFFFFFFFFFF
  | .adopt _ rows _ => ∀ row ∈ rows, row.1 < 0xFFFFFFFFFFFFFFFF
  | _ => True

instance (op : ChannelOp) : Decidable (store.Fits op) :=
  match op with
  | .post _ channelId _ _ _ _ =>
    inferInstanceAs (Decidable ((store.log channelId).nextSeq < 0xFFFFFFFFFFFFFFFF))
  | .gossip _ seq _ _ _ _ => inferInstanceAs (Decidable (seq < 0xFFFFFFFFFFFFFFFF))
  | .adopt _ rows _ => List.decidableBAll (fun row : UInt64 × Bytes => row.1 < 0xFFFFFFFFFFFFFFFF) rows
  | .maintain _ => isTrue trivial
  | .setRoster _ _ => isTrue trivial
  | .gossipRoster _ => isTrue trivial
  | .ledger _ => isTrue trivial

/-- No addition or subtraction of the step leaves the range of its type. -/
def NoOverflow (S : Suite) (store : ChannelStore) : ChannelOp → Prop
  | .post limited channelId blob identity sig nowMs =>
    store.checkPost S limited channelId blob identity sig = .ok () →
      (store.log channelId).nextSeq.toNat + 1 < 2 ^ 64 ∧
      frameBytes (excess ((store.log channelId).posted blob nowMs).entries) ≤
        store.channelBytes + blob.length
  | .gossip channelId seq blob identity sig nowMs =>
    (store.ingestGossipedChannelFrame S channelId seq blob identity sig nowMs).1 = true →
      seq.toNat + 1 < 2 ^ 64 ∧
      frameBytes (excess
        ((store.log channelId).folded { seq, blob, storedMs := nowMs }).entries) ≤
        store.channelBytes + blob.length
  | .adopt _ rows nowMs =>
    ∀ last ∈ (incoming rows nowMs).getLast?, last.seq.toNat + 1 < 2 ^ 64
  | _ => True

structure Sound (store : ChannelStore) : Prop where
  logs : ∀ channelId, (store.log channelId).Sound
  bytes : store.channelBytes = storedBytes store.channels
  within : store.channelBytes ≤ store.channelStoreCap

theorem sound_new (ledger : Ledger) (cap : Nat) : (new ledger cap).Sound where
  logs := fun _ => ChannelLog.sound_new
  bytes := rfl
  within := Nat.zero_le _

theorem sound_retained (h : log.Sound) {nowMs : UInt64} {log' : ChannelLog}
    (hretained : retained nowMs log = some log') : log'.Sound := by
  unfold retained at hretained
  split at hretained
  · cases hretained
  · cases hretained
    exact {
      ordered := h.ordered.sublist List.filter_sublist
      below := fun frame hframe => h.below frame (List.mem_filter.mp hframe).1
      capped := (List.length_filter_le _ _).trans h.capped }

theorem LogStep.sound {op : ChannelOp} {log' : ChannelLog}
    (hstep : LogStep S store channelId op log') (h : (store.log channelId).Sound)
    (hfits : store.Fits op) : log'.Sound := by
  cases hstep with
  | same => exact h
  | posted hcheck => exact h.posted hfits _ _
  | steppedDown => exact ⟨h.ordered, h.below, h.capped⟩
  | folded hadmits hnew => exact h.folded hfits hnew
  | adopted hlast hentries hlen =>
    apply h.merged (ordered_incoming _ _) (fun frame hframe => le_last_incoming hlast hframe) _
      hentries hlen
    exact hfits _ (mem_incoming (List.mem_of_getLast? hlast)).1
  | retained nowMs =>
    cases hlookup : store.channels.lookup channelId with
    | none => exact ChannelLog.sound_new
    | some log =>
      rw [Option.bind_some]
      cases hretained : ChannelStore.retained nowMs log with
      | none => exact ChannelLog.sound_new
      | some log' =>
        rw [ChannelStore.log, hlookup] at h
        exact sound_retained h hretained

theorem storedBytes_insert (channelId : Hash) (log : ChannelLog) :
    storedBytes (store.channels.insert channelId log) +
        frameBytes (store.log channelId).entries =
      storedBytes store.channels + frameBytes log.entries := by
  have hsum := AssocMap.sum_values_insert (fun log : ChannelLog => frameBytes log.entries)
    store.channels channelId log
  have hold : ((store.channels.lookup channelId).map fun log => frameBytes log.entries).getD 0 =
      frameBytes (store.log channelId).entries := by
    rw [ChannelStore.log]
    cases store.channels.lookup channelId <;> rfl
  rw [hold] at hsum
  exact hsum

/-- No log has more than the total. -/
theorem frameBytes_le_storedBytes (store : ChannelStore) (channelId : Hash) :
    frameBytes (store.log channelId).entries ≤ storedBytes store.channels := by
  have hempty := store.storedBytes_insert channelId .new
  have hnew : frameBytes ChannelLog.new.entries = 0 := rfl
  omega

structure Tallied (store : ChannelStore) : Prop where
  bytes : store.channelBytes = storedBytes store.channels
  within : store.channelBytes ≤ store.channelStoreCap

/-- What is drained was counted. -/
theorem Tallied.excess_le (h : store.Tallied) {entries : List Frame} {added : Nat}
    (hgrown : frameBytes entries = frameBytes (store.log channelId).entries + added) :
    frameBytes (excess entries) ≤ store.channelBytes + added := by
  have hle := store.frameBytes_le_storedBytes channelId
  have hsplit := frameBytes_excess entries
  have hbytes := h.bytes
  omega

theorem Tallied.replace (h : store.Tallied) {bytes : Nat}
    (hbytes : bytes + frameBytes (store.log channelId).entries =
      store.channelBytes + frameBytes log.entries) (hwithin : bytes ≤ store.channelStoreCap) :
    ({ store with channels := store.channels.insert channelId log, channelBytes := bytes } :
      ChannelStore).Tallied where
  bytes := by
    have hinsert := store.storedBytes_insert channelId log
    have htotal := h.bytes
    dsimp only
    omega
  within := hwithin

theorem Tallied.resize (h : store.Tallied) {kept : List Frame × Nat}
    (hbytes : kept.2 + frameBytes (store.log channelId).entries =
      store.channelBytes + frameBytes kept.1) (hwithin : kept.2 ≤ store.channelStoreCap) :
    ({ store with
        channels := store.channels.insert channelId { log with entries := kept.1 }
        channelBytes := kept.2 } : ChannelStore).Tallied :=
  h.replace hbytes hwithin

theorem Tallied.keep (h : store.Tallied) {added : Nat}
    (hgrown : frameBytes log.entries = frameBytes (store.log channelId).entries + added)
    (hroom : store.channelBytes + added ≤ store.channelStoreCap) :
    (store.keep channelId log added).Tallied := by
  have hsplit := frameBytes_excess log.entries
  have hexcess := h.excess_le hgrown
  apply h.replace
  · simp only [ChannelLog.trimmed]
    omega
  · omega

theorem frameBytes_posted (log : ChannelLog) (blob : Bytes) (nowMs : UInt64) :
    frameBytes (log.posted blob nowMs).entries = frameBytes log.entries + blob.length := by
  simp [ChannelLog.posted]

theorem frameBytes_folded (log : ChannelLog) (frame : Frame) :
    frameBytes (log.folded frame).entries = frameBytes log.entries + frame.blob.length := by
  rw [ChannelLog.folded, frameBytes_insertFrame, Nat.add_comm]

theorem frameBytes_merged (log : ChannelLog) (incoming : List Frame) (last : Frame) :
    frameBytes (log.merged incoming last).entries =
      frameBytes log.entries + frameBytes (log.missing incoming) :=
  frameBytes_insertAll

theorem Tallied.post (h : store.Tallied) (limited : Bool) (channelId : Hash) (blob : Bytes)
    (identity : Hash) (sig : Signature) (nowMs : UInt64) :
    (store.step S (.post limited channelId blob identity sig nowMs)).Tallied := by
  rw [step, call_postToChannel]
  split
  · rename_i hcheck
    exact h.keep (frameBytes_posted _ _ _) (checkPost_eq_ok hcheck).2.2.2.2
  · exact h

theorem Tallied.gossip (h : store.Tallied) (channelId : Hash) (seq : UInt64) (blob : Bytes)
    (identity : Hash) (sig : Signature) (nowMs : UInt64) :
    (store.step S (.gossip channelId seq blob identity sig nowMs)).Tallied := by
  rw [step, ingestGossipedChannelFrame]
  split
  · exact h
  rename_i hadmits
  split
  · exact h
  split
  · exact h.replace rfl h.within
  · exact h.keep (frameBytes_folded _ _) (not_not.mp hadmits).2.2.2.2

/-- A log that grows without a check: what is too much for the store is evicted from it. -/
theorem Tallied.evicted (h : store.Tallied) {merged : ChannelLog} {added start : Nat}
    (hgrown : frameBytes merged.entries = frameBytes (store.log channelId).entries + added)
    (hstart : start = store.channelBytes + added - frameBytes (excess merged.entries)) :
    ({ store with
        channels := store.channels.insert channelId
          { merged with entries := (evict store.channelStoreCap start (trim merged.entries)).1 }
        channelBytes := (evict store.channelStoreCap start (trim merged.entries)).2 } :
      ChannelStore).Tallied := by
  have hexcess := h.excess_le hgrown
  have hsplit := frameBytes_excess merged.entries
  have hown := store.frameBytes_le_storedBytes channelId
  have hbytes := h.bytes
  have hwithin := h.within
  have htrimmed : frameBytes (trim merged.entries) ≤ start := by omega
  have hcounted := evict_bytes store.channelStoreCap htrimmed
  have hended := evict_le store.channelStoreCap start (trim merged.entries)
  apply h.resize
  · omega
  · rcases hended with hle | hempty
    · exact hle
    · -- with nothing of this channel left, the total is that of the other channels
      rw [hempty, frameBytes_nil] at hcounted
      omega

theorem Tallied.adopt (h : store.Tallied) (channelId : Hash) (rows : List (UInt64 × Bytes))
    (nowMs : UInt64) : (store.step S (.adopt channelId rows nowMs)).Tallied := by
  rw [step, adoptChannelLog]
  split
  · exact h
  split
  · exact h
  rename_i last hlast
  exact h.evicted (frameBytes_merged _ _ _) rfl

theorem storedBytes_filterMapValues_le (nowMs : UInt64) (channels : AssocMap Hash ChannelLog) :
    storedBytes (AssocMap.filterMapValues (retained nowMs) channels) ≤ storedBytes channels := by
  apply AssocMap.sum_values_filterMapValues_le
  intro log log' hretained
  unfold retained at hretained
  split at hretained
  · cases hretained
  · cases hretained
    exact frameBytes_filter_le _ _

theorem Tallied.step (h : store.Tallied) (op : ChannelOp) : (store.step S op).Tallied := by
  cases op with
  | post limited channelId blob identity sig nowMs => exact h.post ..
  | gossip channelId seq blob identity sig nowMs => exact h.gossip ..
  | adopt channelId rows nowMs => exact h.adopt ..
  | maintain nowMs =>
    constructor
    · rfl
    · apply (storedBytes_filterMapValues_le nowMs store.channels).trans
      rw [← h.bytes]
      exact h.within
  | setRoster limited update =>
    obtain ⟨rosters, heq⟩ := store.applyChannelRoster_channels S update
    rw [ChannelStore.step, setChannelRoster_snd, heq]
    split
    · exact h
    · exact ⟨h.bytes, h.within⟩
  | gossipRoster update =>
    obtain ⟨rosters, heq⟩ := store.applyChannelRoster_channels S update
    rw [ChannelStore.step, ingestGossipedChannelRoster_snd, heq]
    exact ⟨h.bytes, h.within⟩
  | ledger ledger => exact ⟨h.bytes, h.within⟩

theorem Sound.step (h : store.Sound) {op : ChannelOp} (hfits : store.Fits op) :
    (store.step S op).Sound := by
  have htallied := Tallied.step (S := S) ⟨h.bytes, h.within⟩ op
  exact {
    logs := fun channelId => (logStep op channelId).sound (h.logs channelId) hfits
    bytes := htallied.bytes
    within := htallied.within }

theorem toNat_succ_lt {seq : UInt64} (hfits : seq < 0xFFFFFFFFFFFFFFFF) :
    seq.toNat + 1 < 2 ^ 64 := by
  have hlt := UInt64.lt_iff_toNat_lt.mp hfits
  have hmax : (0xFFFFFFFFFFFFFFFF : UInt64).toNat = 2 ^ 64 - 1 := by decide
  omega

theorem Sound.noOverflow (h : store.Sound) {op : ChannelOp} (hfits : store.Fits op) :
    store.NoOverflow S op := by
  have htallied : store.Tallied := ⟨h.bytes, h.within⟩
  cases op with
  | post limited channelId blob identity sig nowMs =>
    exact fun _ => ⟨toNat_succ_lt hfits, htallied.excess_le (frameBytes_posted _ _ _)⟩
  | gossip channelId seq blob identity sig nowMs =>
    exact fun _ => ⟨toNat_succ_lt hfits, htallied.excess_le (frameBytes_folded _ _)⟩
  | adopt channelId rows nowMs =>
    intro last hlast
    exact toNat_succ_lt (hfits _ (mem_incoming (List.mem_of_getLast? hlast)).1)
  | maintain nowMs => trivial
  | setRoster limited update => trivial
  | gossipRoster update => trivial
  | ledger ledger => trivial

end ChannelStore

/-- In every run whose posted, gossiped and adopted numbers have successors, the logs are
sound in every state, and no step overflows there. -/
theorem channels_sound_run (S : Suite) (ledger : Ledger) (cap : Nat) (ops : List ChannelOp)
    (hfits : Steps.Along (ChannelStore.step S) ChannelStore.Fits (.new ledger cap) ops) :
    let store := Steps.exec (ChannelStore.step S) (.new ledger cap) ops
    store.channelStoreCap = cap ∧ store.Sound ∧
      ∀ op, store.Fits op → store.NoOverflow S op := by
  have hrun := Steps.exec_invariant
    (fun store : ChannelStore => store.channelStoreCap = cap ∧ store.Sound)
    (fun store op h hfits => ⟨(store.step_frame S op).1.trans h.1, h.2.step hfits⟩)
    ⟨rfl, ChannelStore.sound_new ledger cap⟩ hfits
  exact ⟨hrun.1, hrun.2, fun op hop => hrun.2.noOverflow hop⟩

/-- A post, the same frame from a sibling, a later one and housekeeping. -/
theorem channels_sound_sample :
    (Steps.exec (ChannelStore.step sampleSuite) (.new sampleLedger 1000)
      [.setRoster false (sampleRoster sampleChannel 1 [sampleMember]), samplePost [1] 2000,
        sampleGossip 1 [1] 2000, sampleGossip 5 [2] 3000, .adopt sampleChannel [(3, [4])] 3000,
        .maintain 4000]).Sound :=
  (channels_sound_run sampleSuite sampleLedger 1000 _ (by decide +kernel)).2.1

/-- A sibling's frame with the largest number: its successor overflows, and the next number of
the log stays at one. -/
theorem gossiped_last_seq_overflows :
    ¬ (ChannelStore.new sampleLedger 1000).NoOverflow sampleSuite
        (sampleGossip 0xFFFFFFFFFFFFFFFF [1] 2000) ∧
      ¬ ((ChannelStore.new sampleLedger 1000).step sampleSuite
        (sampleGossip 0xFFFFFFFFFFFFFFFF [1] 2000)).Sound := by
  constructor
  · intro h
    exact absurd (h (by decide +kernel)).1 (by decide)
  · intro h
    have hlog : ((ChannelStore.new sampleLedger 1000).step sampleSuite
        (sampleGossip 0xFFFFFFFFFFFFFFFF [1] 2000)).log sampleChannel =
        { nextSeq := 1, localWriter := false
          entries := [{ seq := 0xFFFFFFFFFFFFFFFF, blob := [1], storedMs := 2000 }] } := by
      decide +kernel
    have hbelow := (h.logs sampleChannel).below
    rw [hlog] at hbelow
    exact absurd (hbelow _ List.mem_cons_self) (by decide)

end Dante.Relay
