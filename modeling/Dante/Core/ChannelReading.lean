import Dante.Core.ChannelPoll

/-!
What one entry of a log can do to the state of a poll: nothing, a step of the channel's
session, the end of the membership, or one event. Every argument about a poll starts
from these four cases.
-/

namespace Dante.Core

open Crypto Dm

instance : Std.Total LogEntry.before where
  total a b := by
    simp only [LogEntry.before]
    grind

instance : IsTrans LogEntry LogEntry.before where
  trans a b c hab hbc := by
    simp only [LogEntry.before] at *
    grind

instance : IsTrans LogEntry fun a b => a.seq < b.seq where
  trans a b c hab hbc := by grind

theorem mergeEntries_pairwise (since : UInt64) (rows buffered : List (UInt64 × Bytes)) :
    (mergeEntries since rows buffered).Pairwise fun a b => a.seq < b.seq := by
  apply Sorted.pairwise_destutter
  intro a b hbefore hne
  rcases hbefore with hlt | ⟨heq, -⟩
  · exact hlt
  · exact absurd heq hne

theorem mem_mergeEntries {since : UInt64} {rows buffered : List (UInt64 × Bytes)}
    {entry : LogEntry} (h : entry ∈ mergeEntries since rows buffered) :
    entry.fromRelay = true ∧ (entry.seq, entry.blob) ∈ rows ∨
      entry.fromRelay = false ∧ entry.seq = since + 1 ∧ (entry.seq, entry.blob) ∈ buffered := by
  rcases List.mem_append.mp (Sorted.mem_of_mem_destutter h) with hrelay | hgossip
  · obtain ⟨row, hrow, rfl⟩ := List.mem_map.mp hrelay
    exact Or.inl ⟨rfl, hrow⟩
  · obtain ⟨row, hrow, rfl⟩ := List.mem_map.mp hgossip
    obtain ⟨hbuffered, hseq⟩ := List.mem_filter.mp hrow
    exact Or.inr ⟨rfl, of_decide_eq_true hseq, hbuffered⟩

/-- MLS authenticates the sender: whoever decrypts an application message gets the sender and
the plaintext that `said` has for it. -/
def Authentic (M : Mls) (said : Bytes → Option (Bytes × Bytes)) : Prop :=
  ∀ member payload hostId accepts sender plaintext member',
    M.processFrom member payload hostId accepts = (.ok (.application sender plaintext), member') →
      said payload = some (sender, plaintext)

/-- The event that a frame stands for: what its group message says, read with the channel's
name and key. -/
def saidBy (P : Primitives) (said : Bytes → Option (Bytes × Bytes)) (info : ChannelInfo)
    (logKey : Option Key) (channelId : ChannelId) (seq : UInt64) (blob : Bytes) :
    Option ChannelEvent := do
  let payload ← payloadOf P logKey channelId blob
  let (sender, plaintext) ← said payload
  let sender ← toId sender
  let content ← contentOf plaintext
  eventOf channelId info.channelName seq sender content

variable {P : Primitives} {S : Suite} {M : Mls} {said : Bytes → Option (Bytes × Bytes)}

namespace ChannelEngine

variable (engine : ChannelEngine M)
variable {content : Content}

def infoOf (channelId : ChannelId) : Option (ChannelInfo × Option Key) :=
  (engine.channels.lookup channelId).map fun ch => (ch.info, ch.logKey)

variable {engine} {channelId : ChannelId} {ch : ChannelSession M} {entry : LogEntry}

theorem openPayload_session (payload : Bytes) :
    (engine.openPayload S ch payload).1.info = ch.info ∧
      (engine.openPayload S ch payload).1.logKey = ch.logKey := by
  rw [openPayload]
  split <;> exact ⟨rfl, rfl⟩

theorem openEntry_session (P : Primitives) (S : Suite) (engine : ChannelEngine M)
    (channelId : ChannelId) (ch : ChannelSession M) (entry : LogEntry) :
    (engine.openEntry P S channelId ch entry).1.info = ch.info ∧
      (engine.openEntry P S channelId ch entry).1.logKey = ch.logKey := by
  rw [openEntry]
  split
  · exact ⟨rfl, rfl⟩
  · dsimp only
    split
    · exact ⟨rfl, rfl⟩
    · exact openPayload_session _

theorem acceptedContent_eq_content {senderId : Bytes} {plaintext : Bytes} {sender : Hash}
    (h : engine.acceptedContent ch senderId plaintext = .content sender content) :
    toId senderId = some sender ∧ contentOf plaintext = some content := by
  rw [acceptedContent] at h
  split at h
  · cases h
  · rename_i sender' hsender
    split at h
    · cases h
    · split at h
      · cases h
      · split at h
        · rename_i content' hcontent
          cases h
          exact ⟨hsender, hcontent⟩
        · cases h

theorem openPayload_content (hsaid : Authentic M said) {payload : Bytes} {sender : Hash}
    (h : (engine.openPayload S ch payload).2 = .content sender content) :
    ∃ senderId plaintext, said payload = some (senderId, plaintext) ∧
      toId senderId = some sender ∧ contentOf plaintext = some content := by
  rw [openPayload] at h
  split at h
  · cases h
  · rename_i senderId plaintext mls hprocess
    obtain ⟨hsender, hcontent⟩ := acceptedContent_eq_content h
    exact ⟨senderId, plaintext, hsaid _ _ _ _ _ _ _ hprocess, hsender, hcontent⟩
  · cases h
  · cases h

/-- A content that comes out of an entry is what its frame says. -/
theorem openEntry_content (hsaid : Authentic M said) {sender : Hash} {ch' : ChannelSession M}
    (hopen : engine.openEntry P S channelId ch entry = (ch', .content sender content)) :
    saidBy P said ch.info ch.logKey channelId entry.seq entry.blob =
      eventOf channelId ch.info.channelName entry.seq sender content := by
  have h : (engine.openEntry P S channelId ch entry).2 = .content sender content := by rw [hopen]
  rw [openEntry] at h
  split at h
  · cases h
  · dsimp only at h
    split at h
    · cases h
    · rename_i payload hpayload
      obtain ⟨senderId, plaintext, hsays, hsender, hcontent⟩ := openPayload_content hsaid h
      simp [saidBy, hpayload, hsays, hsender, hcontent]

end ChannelEngine

namespace Reading

variable {reading : Reading M} {nowMs : UInt64} {channelId : ChannelId} {entry : LogEntry}
variable {other : ChannelId} {reading' : Reading M}

inductive EntryStep (P : Primitives) (said : Bytes → Option (Bytes × Bytes)) (reading : Reading M)
    (nowMs : UInt64) (channelId : ChannelId) (entry : LogEntry) : Reading M → Prop where
  | absent : EntryStep P said reading nowMs channelId entry reading
  | moved {ch ch' : ChannelSession M} (hlookup : reading.engine.channels.lookup channelId = some ch)
      (hinfo : ch'.info = ch.info ∧ ch'.logKey = ch.logKey) :
      EntryStep P said reading nowMs channelId entry (reading.withSession channelId ch')
  | evicted {ch ch' : ChannelSession M}
      (hlookup : reading.engine.channels.lookup channelId = some ch)
      (hinfo : ch'.info = ch.info ∧ ch'.logKey = ch.logKey) (row : ChannelId × Key × String) :
      EntryStep P said reading nowMs channelId entry
        { reading.withSession channelId ch' with
          pending := { reading.pending with evicted := reading.pending.evicted ++ [row] } }
  | read {ch ch' : ChannelSession M} (hlookup : reading.engine.channels.lookup channelId = some ch)
      (hinfo : ch'.info = ch.info ∧ ch'.logKey = ch.logKey) {event : ChannelEvent}
      (hevent : saidBy P said ch.info ch.logKey channelId entry.seq entry.blob = some event) :
      EntryStep P said reading nowMs channelId entry
        { (reading.withSession channelId ch').takeEvent nowMs entry.fromRelay event with
          decrypted := reading.decrypted ++ [event] }

theorem decrypted_takeEvent (reading : Reading M) (nowMs : UInt64) (fromRelay : Bool)
    (event : ChannelEvent) :
    (reading.takeEvent nowMs fromRelay event).decrypted = reading.decrypted := by
  cases event <;> rfl

theorem entryStep (hsaid : Authentic M said) (reading : Reading M) (nowMs : UInt64)
    (channelId : ChannelId) (entry : LogEntry) :
    EntryStep P said reading nowMs channelId entry
      (reading.processEntry P S nowMs channelId entry) := by
  rw [processEntry]
  split
  · exact .absent
  · rename_i ch hlookup
    have hinfo := ChannelEngine.openEntry_session P S reading.engine channelId ch entry
    rcases hopen : reading.engine.openEntry P S channelId ch entry with ⟨ch', opened⟩
    rw [hopen] at hinfo
    dsimp only
    cases opened with
    | nothing => exact .moved hlookup hinfo
    | epochChanged =>
      dsimp only
      split
      · exact .moved hlookup hinfo
      · exact .evicted hlookup hinfo _
    | content sender content =>
      dsimp only
      rw [takeContent, hinfo.1]
      split
      · exact .moved hlookup hinfo
      · rename_i event hevent
        dsimp only
        rw [decrypted_takeEvent]
        exact .read hlookup hinfo ((ChannelEngine.openEntry_content hsaid hopen).trans hevent)

theorem channels_takeEvent (reading : Reading M) (nowMs : UInt64) (fromRelay : Bool)
    (event : ChannelEvent) :
    (reading.takeEvent nowMs fromRelay event).engine.channels = reading.engine.channels := by
  cases event <;> rfl

theorem infoOf_withSession {ch ch' : ChannelSession M}
    (hlookup : reading.engine.channels.lookup channelId = some ch)
    (hinfo : ch'.info = ch.info ∧ ch'.logKey = ch.logKey) (other : ChannelId) :
    (reading.withSession channelId ch').engine.infoOf other = reading.engine.infoOf other := by
  rw [ChannelEngine.infoOf, ChannelEngine.infoOf, withSession]
  dsimp only
  rw [AssocMap.lookup_insert]
  split
  · rename_i heq
    rw [heq, hlookup, Option.map_some, Option.map_some, hinfo.1, hinfo.2]
  · rfl

theorem EntryStep.infoOf (h : EntryStep P said reading nowMs channelId entry reading')
    (other : ChannelId) : reading'.engine.infoOf other = reading.engine.infoOf other := by
  cases h with
  | absent => rfl
  | moved hlookup hinfo | evicted hlookup hinfo row => exact infoOf_withSession hlookup hinfo other
  | read hlookup hinfo hevent =>
    rw [ChannelEngine.infoOf]
    dsimp only
    rw [channels_takeEvent]
    exact infoOf_withSession hlookup hinfo other

/-- What a frame says is about its own channel and number. -/
theorem message_of_saidBy {info : ChannelInfo} {logKey : Option Key} {seq : UInt64} {blob : Bytes}
    {m : ChannelMessage}
    (h : saidBy P said info logKey channelId seq blob = some (.message m)) :
    m.channelId = channelId ∧ m.seq = seq := by
  simp only [saidBy, Option.bind_eq_bind, Option.bind_eq_some_iff] at h
  obtain ⟨payload, -, row, -, sender, -, content, -, hevent⟩ := h
  unfold eventOf at hevent
  split at hevent
  all_goals cases hevent
  all_goals exact ⟨rfl, rfl⟩

theorem mem_gossipShownAfter {shown : Finset (ChannelId × UInt64)} {fromRelay : Bool}
    {key key' : ChannelId × UInt64} (h : key' ∈ gossipShownAfter shown fromRelay key) :
    key' ∈ shown ∨ key' = key := by
  rw [gossipShownAfter] at h
  split at h
  · exact Or.inl (Finset.mem_of_mem_erase h)
  · split at h
    · simp at h
    · rcases Finset.mem_insert.mp h with heq | hold
      · exact Or.inr heq
      · exact Or.inl hold

theorem EntryStep.gossipShown {key : ChannelId × UInt64}
    (h : EntryStep P said reading nowMs channelId entry reading')
    (hkey : key ∈ reading'.engine.gossipShown) :
    key ∈ reading.engine.gossipShown ∨ key = (channelId, entry.seq) := by
  cases h with
  | absent => exact Or.inl hkey
  | moved hlookup hinfo => exact Or.inl hkey
  | evicted hlookup hinfo row => exact Or.inl hkey
  | @read ch ch' hlookup hinfo event hevent =>
    cases event with
    | message m =>
      obtain ⟨rfl, hseq⟩ := message_of_saidBy hevent
      rw [← hseq]
      exact mem_gossipShownAfter hkey
    | reaction r => exact Or.inl hkey
    | edit e => exact Or.inl hkey
    | pin p => exact Or.inl hkey

theorem channelGossip_takeEvent (reading : Reading M) (nowMs : UInt64) (fromRelay : Bool)
    (event : ChannelEvent) :
    (reading.takeEvent nowMs fromRelay event).engine.channelGossip =
      reading.engine.channelGossip := by
  cases event <;> rfl

theorem entriesFor_withSession (ch : ChannelSession M) (hne : other ≠ channelId)
    (rows : List (UInt64 × Bytes)) :
    (reading.withSession channelId ch).engine.entriesFor other rows =
      reading.engine.entriesFor other rows := by
  simp [withSession, ChannelEngine.entriesFor, AList.lookup_insert_ne hne]

/-- An entry leaves what the poll has to read in other channels as it is. -/
theorem EntryStep.entriesFor (h : EntryStep P said reading nowMs channelId entry reading')
    (hne : other ≠ channelId) (rows : List (UInt64 × Bytes)) :
    reading'.engine.entriesFor other rows = reading.engine.entriesFor other rows := by
  cases h with
  | absent => rfl
  | moved hlookup hinfo | evicted hlookup hinfo row => exact entriesFor_withSession _ hne rows
  | read hlookup hinfo hevent =>
    rw [ChannelEngine.entriesFor]
    dsimp only
    rw [channels_takeEvent, channelGossip_takeEvent]
    exact entriesFor_withSession _ hne rows

theorem entriesFor_drainGossip (hne : other ≠ channelId) (rows : List (UInt64 × Bytes)) :
    (reading.drainGossip channelId).engine.entriesFor other rows =
      reading.engine.entriesFor other rows := by
  simp [drainGossip, ChannelEngine.entriesFor, AList.lookup_erase_ne hne]

/-- What one entry keeps, the inner loop keeps. -/
theorem entries_induction (hsaid : Authentic M said) (motive : Reading M → Prop)
    {entries : List LogEntry}
    (hentry : ∀ entry ∈ entries, ∀ reading reading', motive reading →
      EntryStep P said reading nowMs channelId entry reading' → motive reading')
    (hstart : motive reading) :
    motive (entries.foldl (fun reading entry => reading.processEntry P S nowMs channelId entry)
      reading) := by
  induction entries generalizing reading with
  | nil => exact hstart
  | cons entry rest ih =>
    apply ih fun other hother => hentry other (List.mem_cons_of_mem _ hother)
    exact hentry entry List.mem_cons_self _ _ hstart (entryStep hsaid reading nowMs channelId entry)

theorem entriesFor_readChannel (hsaid : Authentic M said) (hne : other ≠ channelId)
    (rows rows' : List (UInt64 × Bytes)) :
    (reading.readChannel P S nowMs channelId rows).engine.entriesFor other rows' =
      reading.engine.entriesFor other rows' := by
  rw [readChannel]
  apply entries_induction (P := P) hsaid
    fun after => after.engine.entriesFor other rows' = reading.engine.entriesFor other rows'
  · intro entry _ before after hbefore hstep
    exact (hstep.entriesFor hne rows').trans hbefore
  · exact entriesFor_drainGossip hne rows'

/-- What one entry keeps, a whole poll keeps. The entries are those that wait at the start of the
call, since each channel is visited once. -/
theorem readChannels_induction (hsaid : Authentic M said) (motive : Reading M → Prop)
    {engine : ChannelEngine M} {visits : List Visit} (hnodup : (visits.map Prod.fst).Nodup)
    (hsame : ∀ visit ∈ visits, ∀ rows,
      reading.engine.entriesFor visit.1 rows = engine.entriesFor visit.1 rows)
    (hdrain : ∀ reading channelId, motive reading → motive (reading.drainGossip channelId))
    (hentry : ∀ visit ∈ visits, ∀ rows ∈ visit.2.toOption,
      ∀ entry ∈ engine.entriesFor visit.1 rows, ∀ reading reading',
        motive reading → EntryStep P said reading nowMs visit.1 entry reading' → motive reading')
    (hstart : motive reading) : motive (reading.readChannels P S nowMs visits).2 := by
  induction visits generalizing reading with
  | nil => exact hstart
  | cons visit rest ih =>
    obtain ⟨channelId, reply⟩ := visit
    obtain ⟨hfirst, hrest⟩ := List.nodup_cons.mp hnodup
    cases reply with
    | error e => exact hstart
    | ok rows =>
      rw [readChannels]
      apply ih hrest
      · intro other hother rows'
        have hne : other.1 ≠ channelId := fun heq =>
          hfirst (List.mem_map.mpr ⟨other, hother, heq⟩)
        exact (entriesFor_readChannel hsaid hne rows rows').trans
          (hsame other (List.mem_cons_of_mem _ hother) rows')
      · exact fun other hother => hentry other (List.mem_cons_of_mem _ hother)
      · rw [readChannel, hsame _ List.mem_cons_self rows]
        exact entries_induction hsaid motive (hentry _ List.mem_cons_self rows rfl)
          (hdrain _ _ hstart)

end Reading

def sampleMls : Mls where
  Member := Unit
  members _ := []
  processFrom _ payload _ _ :=
    (.ok (if 32 ≤ payload.length then .application (payload.take 32) (payload.drop 32)
      else .ignored), ())

def sampleSaid (payload : Bytes) : Option (Bytes × Bytes) :=
  if 32 ≤ payload.length then some (payload.take 32, payload.drop 32) else none

theorem sample_authentic : Authentic sampleMls sampleSaid := by
  intro member payload hostId accepts sender plaintext member' hprocess
  have hresult := congrArg Prod.fst hprocess
  simp only [sampleMls] at hresult
  rw [sampleSaid]
  split at hresult
  · rename_i hlen
    rw [if_pos hlen]
    cases hresult
    rfl
  · cases hresult

def sampleSays (sender : Hash) (content : Content) : Bytes :=
  1 :: sender.toList ++ Enc.Writer.u32 (UInt32.ofNat content.encode.length) ++ content.encode

def sampleSession (lastSeq : UInt64) : ChannelSession sampleMls where
  info := { serverRoot := .fill 32 1, serverName := "s", channelName := "c", hostId := .fill 32 7 }
  mls := ()
  roster := ∅
  lastSeq := lastSeq
  removed := ∅
  logKey := none

def sampleEngine : ChannelEngine sampleMls where
  me := .fill 32 9
  ledger := .new Ledger.sampleParams
  blocked := ∅
  serverPolicies := ∅
  channels := ((∅ : AssocMap ChannelId (ChannelSession sampleMls)).insert (.fill 32 1)
    (sampleSession 0)).insert (.fill 32 2) (sampleSession 0)
  channelGossip := ∅
  gossipShown := ∅
  channelEdits := ∅
  newEdits := []
  channelReactions := ∅
  newReactions := []
  channelPins := ∅
  newPins := []
  channelHistory := []
  evictedChannels := []

end Dante.Core
