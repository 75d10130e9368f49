import Dante.Core.Channels
import Dante.Library.Sorted

/-!
`poll_channels`: the loop over the channels with its accumulators, and the fold at the
end. One failed fetch ends the call, and the accumulators are gone with it.
-/

namespace Dante.Core

open Crypto Dm

/-- What a poll takes out of a frame to be folded in later. -/
inductive ChannelEvent where
  | message (m : ChannelMessage)
  | reaction (r : ChannelReaction)
  | edit (e : PendingEdit)
  | pin (p : PendingPin)
  deriving DecidableEq

/-- The event that a content of the frame at `seq` stands for. -/
def eventOf (channelId : ChannelId) (channelName : String) (seq : UInt64) (sender : Hash) :
    Content → Option ChannelEvent
  | .text text => some (.message ⟨channelId, channelName, sender, text, seq, none, none⟩)
  | .reply targetSeq text =>
    some (.message ⟨channelId, channelName, sender, text, seq, some targetSeq, none⟩)
  | .forward origin text =>
    some (.message ⟨channelId, channelName, sender, text, seq, none, some origin⟩)
  | .reaction targetSeq emoji remove => some (.reaction ⟨channelId, targetSeq, emoji, sender, remove⟩)
  | .edit targetSeq text => some (.edit ⟨channelId, targetSeq, sender, some text⟩)
  | .delete targetSeq => some (.edit ⟨channelId, targetSeq, sender, none⟩)
  | .pin targetSeq unpin => some (.pin ⟨channelId, targetSeq, sender, unpin⟩)
  | _ => none

structure Pending where
  out : List ChannelMessage := []
  newHistory : List ChannelHistoryEntry := []
  newReacts : List ChannelReaction := []
  pendingEdits : List PendingEdit := []
  pendingPins : List PendingPin := []
  evicted : List (ChannelId × Key × String) := []
  editsTouched : List ChannelId := []

structure LogEntry where
  seq : UInt64
  blob : Bytes
  fromRelay : Bool
  deriving DecidableEq

/-- The order in which the entries are taken up; of two copies the relay's comes first. -/
def LogEntry.before (a b : LogEntry) : Prop :=
  a.seq < b.seq ∨ a.seq = b.seq ∧ (b.fromRelay → a.fromRelay)

instance : DecidableRel LogEntry.before := fun _ _ => inferInstanceAs (Decidable (_ ∨ _))

/-- The relay's rows and the one gossip frame that may come next, one entry per number. -/
def mergeEntries (since : UInt64) (rows buffered : List (UInt64 × Bytes)) : List LogEntry :=
  let relay := rows.map fun row => { seq := row.1, blob := row.2, fromRelay := true }
  let gossip := (buffered.filter fun row => row.1 = since + 1).map fun row =>
    { seq := row.1, blob := row.2, fromRelay := false }
  ((relay ++ gossip).insertionSort LogEntry.before).destutter fun a b => a.seq ≠ b.seq

inductive Opened where
  | nothing
  | epochChanged
  | content (sender : Hash) (content : Content)

/-- The state of the loop. `decrypted` is not in the source: it keeps what the call has
decrypted, for the statements about it. -/
structure Reading (M : Mls) where
  engine : ChannelEngine M
  pending : Pending
  decrypted : List ChannelEvent

/-- `FetchChannel` for one channel: the rows of the relay's log, or a failed call. -/
abbrev Visit := ChannelId × Except String (List (UInt64 × Bytes))

namespace ChannelEngine

variable (P : Primitives) (S : Suite) {M : Mls} (engine : ChannelEngine M)

/-- The entries to take up for a channel, with the gossip that waits for it. -/
def entriesFor (channelId : ChannelId) (rows : List (UInt64 × Bytes)) : List LogEntry :=
  let since := (engine.channels.lookup channelId).elim 0 ChannelSession.lastSeq
  mergeEntries since rows ((engine.channelGossip.lookup channelId).getD [])

/-- The sender and content of an application message that is not dropped. -/
def acceptedContent (ch : ChannelSession M) (sender plaintext : Bytes) : Opened :=
  match toId sender with
  | none => .nothing
  | some sender =>
    if (ch.removed.lookup sender).isSome ∨ sender ∈ engine.blocked then .nothing
    else if (engine.serverPolicies.lookup ch.info.serverRoot).any
        fun policy => policy.effectivePerms sender &&& permSend = 0 then .nothing
    else
      match contentOf plaintext with
      | some content => .content sender content
      | none => .nothing

/-- `process_from` on the message inside an entry, and what the client makes of it. -/
def openPayload (ch : ChannelSession M) (payload : Bytes) : ChannelSession M × Opened :=
  match M.processFrom ch.mls payload ch.info.hostId (ledgerAcceptsBinding S engine.ledger) with
  | (.ok .epochChanged, mls) => ({ ch with mls := mls }.resyncRoster, .epochChanged)
  | (.ok (.application sender plaintext), mls) =>
    ({ ch with mls := mls }, engine.acceptedContent ch sender plaintext)
  | (.ok .ignored, mls) => ({ ch with mls := mls }, .nothing)
  | (.error _, mls) => ({ ch with mls := mls }, .nothing)

/-- Moves the cursor and the group over one entry. A gossip frame never moves the cursor. -/
def openEntry (channelId : ChannelId) (ch : ChannelSession M) (entry : LogEntry) :
    ChannelSession M × Opened :=
  if entry.fromRelay = false ∧ entry.seq ≤ ch.lastSeq then (ch, .nothing)
  else
    let lastSeq := if entry.fromRelay then max ch.lastSeq entry.seq else ch.lastSeq
    let ch := { ch with lastSeq := lastSeq }
    match payloadOf P ch.logKey channelId entry.blob with
    | none => (ch, .nothing)
    | some payload => engine.openPayload S ch payload

end ChannelEngine

/-- The line of the history for a message that was read at `nowMs`. -/
def ChannelMessage.history (m : ChannelMessage) (nowMs : UInt64) : ChannelHistoryEntry where
  channelId := m.channelId
  sender := m.sender
  outgoing := false
  tsMs := nowMs
  text := m.text
  seq := m.seq
  replyTo := m.replyTo
  forwardedFrom := m.forwardedFrom

def gossipShownAfter (shown : Finset (ChannelId × UInt64)) (fromRelay : Bool)
    (key : ChannelId × UInt64) : Finset (ChannelId × UInt64) :=
  if fromRelay then shown.erase key
  else if (insert key shown).card > 4096 then ∅ else insert key shown

namespace Reading

variable (P : Primitives) (S : Suite) {M : Mls} (reading : Reading M)

def start (engine : ChannelEngine M) : Reading M where
  engine := engine
  pending := {}
  decrypted := []

def withSession (channelId : ChannelId) (ch : ChannelSession M) : Reading M :=
  { reading with
    engine := { reading.engine with channels := reading.engine.channels.insert channelId ch } }

/-- A text: its author is recorded, and it goes out unless its gossip copy was shown. -/
def takeMessage (nowMs : UInt64) (fromRelay : Bool) (m : ChannelMessage) : Reading M :=
  let engine := reading.engine.recordAuthor m.channelId m.seq m.sender
  let alreadyShown := fromRelay ∧ (m.channelId, m.seq) ∈ engine.gossipShown
  let pending :=
    { reading.pending with editsTouched := reading.pending.editsTouched.insert m.channelId }
  { reading with
    engine := { engine with
      gossipShown := gossipShownAfter engine.gossipShown fromRelay (m.channelId, m.seq) }
    pending :=
      if alreadyShown then pending
      else
        { pending with
          newHistory := pending.newHistory ++ [m.history nowMs]
          out := pending.out ++ [m] } }

def takeEvent (nowMs : UInt64) (fromRelay : Bool) : ChannelEvent → Reading M
  | .message m => reading.takeMessage nowMs fromRelay m
  | .reaction r =>
    { reading with
      pending := { reading.pending with newReacts := reading.pending.newReacts ++ [r] } }
  | .edit e =>
    { reading with
      pending := { reading.pending with pendingEdits := reading.pending.pendingEdits ++ [e] } }
  | .pin p =>
    { reading with
      pending := { reading.pending with pendingPins := reading.pending.pendingPins ++ [p] } }

def takeContent (channelName : String) (nowMs : UInt64) (channelId : ChannelId) (entry : LogEntry)
    (sender : Hash) (content : Content) : Reading M :=
  match eventOf channelId channelName entry.seq sender content with
  | none => reading
  | some event =>
    let after := reading.takeEvent nowMs entry.fromRelay event
    { after with decrypted := after.decrypted ++ [event] }

/-- The body of the inner loop. -/
def processEntry (nowMs : UInt64) (channelId : ChannelId) (entry : LogEntry) : Reading M :=
  match reading.engine.channels.lookup channelId with
  | none => reading
  | some ch =>
    let (ch, opened) := reading.engine.openEntry P S channelId ch entry
    let reading := reading.withSession channelId ch
    match opened with
    | .nothing => reading
    | .epochChanged =>
      if reading.engine.me ∈ ch.roster then reading
      else
        { reading with
          pending := { reading.pending with
            evicted := reading.pending.evicted ++
              [(channelId, ch.info.serverRoot, ch.info.serverName)] } }
    | .content sender content =>
      reading.takeContent ch.info.channelName nowMs channelId entry sender content

def drainGossip (channelId : ChannelId) : Reading M :=
  { reading with
    engine := { reading.engine with
      channelGossip := reading.engine.channelGossip.erase channelId } }

/-- One turn of the outer loop, after a fetch that succeeded. -/
def readChannel (nowMs : UInt64) (channelId : ChannelId) (rows : List (UInt64 × Bytes)) :
    Reading M :=
  (reading.engine.entriesFor channelId rows).foldl
    (fun reading entry => reading.processEntry P S nowMs channelId entry)
    (reading.drainGossip channelId)

/-- The outer loop, up to the first fetch that fails. -/
def readChannels (nowMs : UInt64) (reading : Reading M) : List Visit → Option String × Reading M
  | [] => (none, reading)
  | (_, .error e) :: _ => (some e, reading)
  | (channelId, .ok rows) :: rest =>
    readChannels nowMs (reading.readChannel P S nowMs channelId rows) rest

end Reading

namespace ChannelEngine

variable (P : Primitives) (S : Suite) {M : Mls} (engine : ChannelEngine M)

/-- The part of `poll_channels` after the loop. -/
def foldPending (pending : Pending) (nowMs : UInt64) : ChannelEngine M :=
  let engine := pending.evicted.foldl evictChannel engine
  let engine := pending.newReacts.foldl recordReaction engine
  let engine := pending.pendingEdits.foldl applyChannelEdit engine
  let engine := pending.pendingPins.foldl (fun engine p => engine.applyChannelPin p nowMs) engine
  let engine := if pending.out = [] then engine
    else pending.newHistory.foldl pushChannelHistory engine
  pending.editsTouched.foldl trimChannelEdits engine

/-- A part of the state that the end of the fold does not touch. -/
theorem foldPending_keeps {γ : Type} (part : ChannelEngine M → γ)
    (hedits : ∀ (engine : ChannelEngine M) edits queued,
      part { engine with channelEdits := edits, newEdits := queued } = part engine)
    (hpins : ∀ (engine : ChannelEngine M) pins queued,
      part { engine with channelPins := pins, newPins := queued } = part engine)
    (hhistory : ∀ (engine : ChannelEngine M) history,
      part { engine with channelHistory := history } = part engine)
    (pending : Pending) (nowMs : UInt64) :
    part (engine.foldPending pending nowMs) =
      part (pending.newReacts.foldl recordReaction (pending.evicted.foldl evictChannel engine)) := by
  have hedit : ∀ (engine : ChannelEngine M) e, part (engine.applyChannelEdit e) = part engine := by
    intro engine e
    obtain ⟨edits, queued, heq⟩ := engine.applyChannelEdit_frame e
    rw [heq, hedits]
  have hpin : ∀ (engine : ChannelEngine M) p,
      part (engine.applyChannelPin p nowMs) = part engine := by
    intro engine p
    obtain ⟨pins, queued, heq⟩ := engine.applyChannelPin_frame p nowMs
    rw [heq, hpins]
  have hpush : ∀ (engine : ChannelEngine M) e, part (engine.pushChannelHistory e) = part engine := by
    intro engine e
    obtain ⟨history, heq⟩ := engine.pushChannelHistory_frame e
    rw [heq, hhistory]
  have htrim : ∀ (engine : ChannelEngine M) channelId,
      part (engine.trimChannelEdits channelId) = part engine := by
    intro engine channelId
    obtain ⟨edits, heq⟩ := engine.trimChannelEdits_frame channelId
    rw [heq]
    exact hedits engine edits engine.newEdits
  rw [foldPending, Steps.foldl_keeps part htrim]
  split
  · rw [Steps.foldl_keeps part hpin, Steps.foldl_keeps part hedit]
  · rw [Steps.foldl_keeps part hpush, Steps.foldl_keeps part hpin, Steps.foldl_keeps part hedit]

/-- One call of `poll_channels` that visits the channels in the order of `visits`. -/
def pollChannels (nowMs : UInt64) (visits : List Visit) :
    Except String (List ChannelMessage) × ChannelEngine M :=
  match (Reading.start engine).readChannels P S nowMs visits with
  | (some e, reading) => (.error e, reading.engine)
  | (none, reading) => (.ok reading.pending.out, reading.engine.foldPending reading.pending nowMs)

/-- The channel frames among what `poll_p2p` drains. -/
def bufferGossip (frame : ChannelId × UInt64 × Bytes) : ChannelEngine M :=
  match engine.channels.lookup frame.1 with
  | none => engine
  | some _ =>
    let buf := (engine.channelGossip.lookup frame.1).getD [] ++ [frame.2]
    { engine with channelGossip := engine.channelGossip.insert frame.1 (buf.drop (buf.length - 256)) }

end ChannelEngine

end Dante.Core
