import Dante.Relay.ChannelInvariant

/-!
Sequence numbers over a whole run. The counter of a channel is lost when the last frame expires, and
a number whose frame is gone can be filled again from outside. As long as neither happens, a number
stands for one frame for ever, and posts get new numbers.
-/

namespace Dante.Relay

open Crypto Method Except

namespace ChannelStore

variable {S : Suite} {store : ChannelStore}

def frames (store : ChannelStore) : List (Hash × Frame) :=
  store.channels.entries.flatMap fun entry => entry.2.entries.map fun frame => (entry.1, frame)

theorem mem_frames {channelId : Hash} {frame : Frame} :
    (channelId, frame) ∈ store.frames ↔ frame ∈ (store.log channelId).entries := by
  rw [ChannelStore.log, frames, List.mem_flatMap]
  constructor
  · rintro ⟨entry, hentry, hframe⟩
    obtain ⟨found, hfound, heq⟩ := List.mem_map.mp hframe
    cases heq
    have hlookup : store.channels.lookup entry.1 = some entry.2 := AList.mem_lookup_iff.mpr hentry
    rw [hlookup]
    exact hfound
  · intro hframe
    cases hlookup : store.channels.lookup channelId with
    | none =>
      rw [hlookup] at hframe
      cases hframe
    | some log =>
      rw [hlookup] at hframe
      exact ⟨⟨channelId, log⟩, AList.mem_lookup_iff.mp hlookup,
        List.mem_map.mpr ⟨frame, hframe, rfl⟩⟩

/-- Housekeeping leaves a frame in every log. -/
def KeepsLogs (store : ChannelStore) : ChannelOp → Prop
  | .maintain nowMs => ∀ entry ∈ store.channels.entries, retained nowMs entry.2 ≠ none
  | _ => True

instance (op : ChannelOp) : Decidable (store.KeepsLogs op) :=
  match op with
  | .maintain nowMs => List.decidableBAll
      (fun entry : Sigma fun _ : Hash => ChannelLog => retained nowMs entry.2 ≠ none)
      store.channels.entries
  | .post .. => isTrue trivial
  | .gossip .. => isTrue trivial
  | .adopt .. => isTrue trivial
  | .setRoster .. => isTrue trivial
  | .gossipRoster .. => isTrue trivial
  | .ledger .. => isTrue trivial

theorem LogStep.nextSeq_le {channelId : Hash} {op : ChannelOp} {log' : ChannelLog}
    (hstep : LogStep S store channelId op log') (hfits : store.Fits op)
    (hkeeps : store.KeepsLogs op) : (store.log channelId).nextSeq ≤ log'.nextSeq := by
  cases hstep with
  | same => grind
  | posted hcheck =>
    have hlt : (store.log channelId).nextSeq < 0xFFFFFFFFFFFFFFFF := hfits
    simp only [ChannelLog.trimmed, ChannelLog.posted]
    grind
  | steppedDown => grind
  | folded hadmits hnew =>
    simp only [ChannelLog.trimmed, ChannelLog.folded]
    grind
  | adopted hlast hentries hlen =>
    simp only [ChannelLog.merged]
    grind
  | retained nowMs =>
    rw [ChannelStore.log]
    cases hlookup : store.channels.lookup channelId with
    | none => exact UInt64.le_refl _
    | some log =>
      have hlog := hkeeps ⟨channelId, log⟩ (AList.mem_lookup_iff.mp hlookup)
      rw [Option.bind_some, ChannelStore.retained]
      rw [ChannelStore.retained] at hlog
      split
      · rename_i hempty
        exact absurd (if_pos hempty) hlog
      · exact UInt64.le_refl _

theorem Brings.lt_nextSeq {channelId : Hash} {frame : Frame} {op : ChannelOp}
    (hbrings : store.Brings S channelId frame op) (hfits : store.Fits op)
    (hframe : frame ∈ ((store.step S op).log channelId).entries)
    (hold : frame ∉ (store.log channelId).entries) :
    frame.seq < ((store.step S op).log channelId).nextSeq := by
  have hstep : store.LogStep S channelId op _ := logStep op channelId
  generalize (store.step S op).log channelId = log at hframe hstep
  cases hstep with
  | same => exact absurd hframe hold
  | posted hcheck =>
    have hlt : (store.log channelId).nextSeq < 0xFFFFFFFFFFFFFFFF := hfits
    obtain ⟨-, -, rfl⟩ := hbrings
    simp only [ChannelLog.trimmed, ChannelLog.posted]
    grind
  | steppedDown => exact absurd hframe hold
  | folded hadmits hnew =>
    obtain ⟨-, -, -, rfl⟩ := hbrings
    simp only [ChannelLog.trimmed, ChannelLog.folded]
    have hlt := hfits
    simp only [Fits] at hlt
    grind
  | adopted hlast hentries hlen =>
    obtain ⟨-, hmissing⟩ := hbrings
    have hle := le_last_incoming hlast (mem_missing.mp hmissing).1
    have hlt := hfits _ (mem_incoming (List.mem_of_getLast? hlast)).1
    simp only [ChannelLog.merged]
    grind
  | retained nowMs => exact absurd (mem_retained hframe) hold

end ChannelStore

theorem Ordered.eq_of_seq {entries : List Frame} (h : Ordered entries) {a b : Frame}
    (ha : a ∈ entries) (hb : b ∈ entries) (hseq : a.seq = b.seq) : a = b := by
  have hnodup : (entries.map Frame.seq).Nodup :=
    List.pairwise_map.mpr (h.imp fun hlt heq => by grind)
  exact List.inj_on_of_nodup_map hnodup ha hb hseq

/-- A relay together with every frame that it ever stored. -/
structure History where
  store : ChannelStore
  ever : List (Hash × Frame)

namespace History

variable {S : Suite} {history : History}
variable {op : ChannelOp}

def start (ledger : Ledger) (cap : Nat) : History where
  store := .new ledger cap
  ever := []

def step (S : Suite) (history : History) (op : ChannelOp) : History where
  store := history.store.step S op
  ever := history.ever ++ (history.store.step S op).frames

/-- The number was used for a frame, which the log does not hold any more. -/
def Vacated (history : History) (channelId : Hash) (seq : UInt64) : Prop :=
  (∃ entry ∈ history.ever, entry.1 = channelId ∧ entry.2.seq = seq) ∧
    ∀ frame ∈ (history.store.log channelId).entries, frame.seq ≠ seq

instance (channelId : Hash) (seq : UInt64) : Decidable (history.Vacated channelId seq) :=
  inferInstanceAs (Decidable (_ ∧ _))

/-- A frame from a sibling takes a vacated number. -/
def Refills (history : History) : ChannelOp → Prop
  | .gossip channelId seq _ _ _ _ => history.Vacated channelId seq
  | .adopt channelId rows _ => ∃ row ∈ rows, history.Vacated channelId row.1
  | _ => False

instance (op : ChannelOp) : Decidable (history.Refills op) :=
  match op with
  | .gossip channelId seq _ _ _ _ => inferInstanceAs (Decidable (history.Vacated channelId seq))
  | .adopt channelId rows _ =>
    List.decidableBEx (fun row : UInt64 × Bytes => history.Vacated channelId row.1) rows
  | .post .. => isFalse id
  | .maintain .. => isFalse id
  | .setRoster .. => isFalse id
  | .gossipRoster .. => isFalse id
  | .ledger .. => isFalse id

/-- A step that loses no counter, refills no number and does not overflow. -/
def Orderly (history : History) (op : ChannelOp) : Prop :=
  history.store.Fits op ∧ history.store.KeepsLogs op ∧ ¬ history.Refills op

instance (op : ChannelOp) : Decidable (history.Orderly op) :=
  inferInstanceAs (Decidable (_ ∧ _ ∧ _))

structure Numbered (history : History) : Prop where
  recorded : ∀ channelId, ∀ frame ∈ (history.store.log channelId).entries,
    (channelId, frame) ∈ history.ever
  below : ∀ channelId frame, (channelId, frame) ∈ history.ever →
    frame.seq < (history.store.log channelId).nextSeq
  unique : ∀ channelId a b, (channelId, a) ∈ history.ever → (channelId, b) ∈ history.ever →
    a.seq = b.seq → a = b

theorem numbered_start (ledger : Ledger) (cap : Nat) : (start ledger cap).Numbered where
  recorded := fun _ _ hframe => by cases hframe
  below := fun _ _ hframe => by cases hframe
  unique := fun _ _ _ ha => by cases ha

/-- A frame of the history after a step is an old one, or the step brings it. -/
theorem mem_ever_step (h : history.Numbered) {channelId : Hash} {frame : Frame}
    (hframe : (channelId, frame) ∈ (history.step S op).ever) :
    (channelId, frame) ∈ history.ever ∨
      frame ∉ (history.store.log channelId).entries ∧
      frame ∈ ((history.store.step S op).log channelId).entries ∧
      history.store.Brings S channelId frame op := by
  rcases List.mem_append.mp hframe with hold | hnow
  · exact Or.inl hold
  · have hmem := ChannelStore.mem_frames.mp hnow
    by_cases hbefore : frame ∈ (history.store.log channelId).entries
    · exact Or.inl (h.recorded channelId frame hbefore)
    · rcases ChannelStore.mem_step hmem with hold | hbrings
      · exact absurd hold hbefore
      · exact Or.inr ⟨hbefore, hmem, hbrings⟩

/-- What an orderly step brings has a new number. -/
theorem Numbered.brings_new (h : history.Numbered) (hop : history.Orderly op) {channelId : Hash}
    {frame old : Frame} (hbrings : history.store.Brings S channelId frame op)
    (hold : (channelId, old) ∈ history.ever) : old.seq ≠ frame.seq := by
  intro hseq
  have hevery := hop.2.2
  cases op with
  | post limited target blob identity sig nowMs =>
    obtain ⟨rfl, -, rfl⟩ := hbrings
    have hlt := h.below target old hold
    grind
  | gossip target seq blob identity sig nowMs =>
    obtain ⟨rfl, -, hnew, rfl⟩ := hbrings
    exact hevery ⟨⟨(target, old), hold, rfl, hseq⟩, hnew⟩
  | adopt target rows nowMs =>
    obtain ⟨rfl, hmissing⟩ := hbrings
    obtain ⟨hincoming, hnew⟩ := mem_missing.mp hmissing
    exact hevery ⟨_, (ChannelStore.mem_incoming hincoming).1, ⟨(target, old), hold, rfl, hseq⟩, hnew⟩
  | maintain nowMs => cases hbrings
  | setRoster limited update => cases hbrings
  | gossipRoster update => cases hbrings
  | ledger ledger => cases hbrings

/-- A step brings one frame for a number. -/
theorem brings_unique {store : ChannelStore} {channelId : Hash} {a b : Frame}
    (ha : store.Brings S channelId a op) (hb : store.Brings S channelId b op) (hseq : a.seq = b.seq) :
    a = b := by
  cases op with
  | post limited target blob identity sig nowMs => exact ha.2.2.trans hb.2.2.symm
  | gossip target seq blob identity sig nowMs => exact ha.2.2.2.trans hb.2.2.2.symm
  | adopt target rows nowMs =>
    exact (ChannelStore.ordered_incoming rows nowMs).eq_of_seq (mem_missing.mp ha.2).1
      (mem_missing.mp hb.2).1 hseq
  | maintain nowMs => cases ha
  | setRoster limited update => cases ha
  | gossipRoster update => cases ha
  | ledger ledger => cases ha

theorem Numbered.step (h : history.Numbered) (hop : history.Orderly op) :
    (history.step S op).Numbered where
  recorded := fun channelId frame hframe =>
    List.mem_append_right _ (ChannelStore.mem_frames.mpr hframe)
  below := by
    intro channelId frame hframe
    rcases mem_ever_step h hframe with hold | ⟨hbefore, hmem, hbrings⟩
    · have hlt := h.below channelId frame hold
      have hle := (ChannelStore.logStep (S := S) op channelId).nextSeq_le hop.1 hop.2.1
      simp only [History.step]
      grind
    · exact hbrings.lt_nextSeq hop.1 hmem hbefore
  unique := by
    intro channelId a b ha hb hseq
    rcases mem_ever_step h ha with holdA | ⟨-, -, hbringsA⟩
    · rcases mem_ever_step h hb with holdB | ⟨-, -, hbringsB⟩
      · exact h.unique channelId a b holdA holdB hseq
      · exact absurd hseq (h.brings_new hop hbringsB holdA)
    · rcases mem_ever_step h hb with holdB | ⟨-, -, hbringsB⟩
      · exact absurd hseq.symm (h.brings_new hop hbringsA holdB)
      · exact brings_unique hbringsA hbringsB hseq

end History

/-- In every run that loses no counter, refills no number and does not overflow, no two blobs
were ever stored under one number, and the next post gets a number beyond all that were ever
stored. -/
theorem seq_never_reused_run (S : Suite) (ledger : Ledger) (cap : Nat) (ops : List ChannelOp)
    (horderly : Steps.Along (History.step S) History.Orderly (.start ledger cap) ops) :
    let history := Steps.exec (History.step S) (.start ledger cap) ops
    (∀ channelId a b, (channelId, a) ∈ history.ever → (channelId, b) ∈ history.ever →
      a.seq = b.seq → a.blob = b.blob) ∧
    ∀ limited channelId blob identity sig nowMs seq store',
      (ChannelStore.postToChannel S limited channelId blob identity sig nowMs).call
        history.store = (.ok seq, store') →
      ∀ frame, (channelId, frame) ∈ history.ever → frame.seq < seq := by
  intro history
  have hnumbered : history.Numbered :=
    Steps.exec_invariant History.Numbered (fun history op h hop => h.step hop)
      (History.numbered_start ledger cap) horderly
  constructor
  · intro channelId a b ha hb hseq
    rw [hnumbered.unique channelId a b ha hb hseq]
  · intro limited channelId blob identity sig nowMs seq store' hcall frame hframe
    rw [ChannelStore.call_postToChannel] at hcall
    split at hcall
    · cases hcall
      exact hnumbered.below channelId frame hframe
    · cases hcall

/-- Two posts, a frame of a sibling ahead of them, and housekeeping while they last. -/
theorem seq_never_reused_sample :
    let history := Steps.exec (History.step sampleSuite) (.start sampleLedger 1000)
      [.setRoster false (sampleRoster sampleChannel 1 [sampleMember]), samplePost [1] 2000,
        samplePost [2] 2500, sampleGossip 5 [3] 3000, .maintain 4000]
    ∀ seq store', (ChannelStore.postToChannel sampleSuite false sampleChannel [4] sampleMember
        (samplePostSig sampleChannel [4]) 5000).call history.store = (.ok seq, store') →
      ∀ frame, (sampleChannel, frame) ∈ history.ever → frame.seq < seq :=
  fun seq store' hcall frame hframe =>
    (seq_never_reused_run sampleSuite sampleLedger 1000 _ (by decide +kernel)).2 _ _ _ _ _ _ seq
      store' hcall frame hframe

/-- A week later the only frame of the channel has expired, and the next post gets its number. -/
theorem seq_reused_after_expiry :
    let history := Steps.exec (History.step sampleSuite) (.start sampleLedger 1000)
      [.setRoster false (sampleRoster sampleChannel 1 [sampleMember]), samplePost [1] 2000,
        .maintain 604802001, samplePost [2] 604802001]
    (sampleChannel, { seq := 1, blob := [1], storedMs := 2000 }) ∈ history.ever ∧
      (sampleChannel, { seq := 1, blob := [2], storedMs := 604802001 }) ∈ history.ever := by
  decide +kernel

end Dante.Relay
