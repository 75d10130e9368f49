import Dante.Core.StoreSections
import Dante.Dm.Reload

/-!
The payload of the local store. It begins with what every version has, and ends with the
sections that were added one by one; a reader goes on while there is input left. Two of the
sections complete earlier lists line by line: the message ids, and the metadata of channel
messages.
-/

namespace Dante.Core.Store

open Crypto Dm Enc Parser

/-- What every version of the store has. -/
structure Head where
  lastAnnounceMs : UInt64
  lastFetchSinceMs : UInt64
  prekeys : PreKeySecretsState
  sessions : List (Key × SessionState)
  channels : List StoredChannel
  hosted : List StoredHostedServer
  history : List HistoryEntry
  seenEnvelopes : List Hash

structure PersistedState extends Head where
  channelHistory : List ChannelHistoryEntry
  inviteUses : List (ByteArr 8 × UInt32)
  channelRemoved : List (ChannelId × Hash × UInt64)
  serverAutokick : List (Key × UInt64)
  serverPolicies : List Bytes
  serverJoinPw : List (Key × Hash)
  channelReactions : List (ChannelId × UInt64 × String × Hash)
  verifiedPeers : List (Hash × Key)
  contacts : List (Hash × String × UInt64)
  blocked : List Hash
  channelEdits : List StoredEdit
  channelPins : List StoredPin
  dmMsgIds : List MsgId
  dmEdits : List StoredDmEdit
  serverBans : List (Key × List Hash)
  serverRegisterPow : List StoredServerPow
  groupCalls : List StoredGroupCall

def writeSession : Key × SessionState → Bytes :=
  Writer.both Writer.fixed fun state => Writer.bytes state.encode

def readPrekeys : Reader PreKeySecretsState := do
  Parser.ofExcept (PreKeySecretsState.decode (← Reader.bytes))

def readSession : Reader (Key × SessionState) :=
  both (Reader.fixed 32) do Parser.ofExcept (SessionState.decode (← Reader.bytes))

namespace Head

def encode (head : Head) : Bytes :=
  Writer.u64 head.lastAnnounceMs ++ Writer.u64 head.lastFetchSinceMs ++
    Writer.bytes head.prekeys.encode ++ Writer.list writeSession head.sessions ++
    Writer.list StoredChannel.write head.channels ++
    Writer.list StoredHostedServer.write head.hosted ++ Writer.list writeHistory head.history ++
    Writer.list Writer.fixed head.seenEnvelopes

def read : Reader Head := do
  let lastAnnounceMs ← Reader.u64
  let lastFetchSinceMs ← Reader.u64
  let prekeys ← readPrekeys
  let sessions ← Reader.list readSession
  let channels ← Reader.list StoredChannel.read
  let hosted ← Reader.list StoredHostedServer.read
  let history ← Reader.list readHistory
  let seenEnvelopes ← Reader.list (Reader.fixed 32)
  return { lastAnnounceMs := lastAnnounceMs, lastFetchSinceMs := lastFetchSinceMs,
           prekeys := prekeys, sessions := sessions, channels := channels, hosted := hosted,
           history := history, seenEnvelopes := seenEnvelopes }

structure Fits (head : Head) : Prop where
  prekeys : head.prekeys.encode.length < 2 ^ 32
  sessions : head.sessions.length < 2 ^ 32 ∧
    ∀ entry ∈ head.sessions, entry.2.Fits ∧ entry.2.encode.length < 2 ^ 32
  channels : head.channels.length < 2 ^ 32 ∧ ∀ channel ∈ head.channels, channel.Fits
  hosted : head.hosted.length < 2 ^ 32 ∧ ∀ server ∈ head.hosted, server.Fits
  history : head.history.length < 2 ^ 32 ∧ ∀ entry ∈ head.history, KindFits entry.kind
  seenEnvelopes : head.seenEnvelopes.length < 2 ^ 32

/-- The head as it is written: the ids of the messages are kept elsewhere. -/
def anonymous (head : Head) : Head :=
  { head with history := head.history.map Store.anonymous }

theorem encode_anonymous (head : Head) : head.anonymous.encode = head.encode := by
  have hlines : head.history.flatMap (fun entry => writeHistory (Store.anonymous entry)) =
      head.history.flatMap writeHistory := rfl
  simp only [encode, anonymous, Writer.list, List.length_map, List.flatMap_map, hlines]

theorem codec_session : Codec readSession writeSession
    fun entry => entry.2.Fits ∧ entry.2.encode.length < 2 ^ 32 :=
  (Reader.codec_both (Reader.codec_fixed 32) (Reader.codec_nested SessionState.codec)).congr
    (fun _ => rfl) (by simp)

theorem codec_prekeys : Codec readPrekeys (fun state => Writer.bytes state.encode)
    fun state => state.encode.length < 2 ^ 32 := by
  refine (Reader.codec_nested PreKeySecretsState.codec).congr (fun _ => rfl) ?_
  intro state
  have hcount : state.otpSecrets.length ≤ state.encode.length := by
    have hpos (key : Key) : 0 < (Writer.fixed key).length := by simp
    have hlist := Reader.length_le_flatMap hpos state.otpSecrets
    simp only [PreKeySecretsState.encode, Writer.list, List.length_append]
    omega
  exact ⟨fun hlen => ⟨hcount.trans_lt hlen, hlen⟩, fun hfits => hfits.2⟩

theorem restores : Restores read encode fun head => head.Fits ∧ head.anonymous = head := by
  have hsessions := Reader.codec_list codec_session fun entry => by simp [writeSession]
  have hchannels := Reader.restores_list StoredChannel.restores fun channel => by
    simp [StoredChannel.write]
  have hhosted := Reader.codec_list StoredHostedServer.codec fun server => by
    simp [StoredHostedServer.write]
  have hhistory := Reader.codec_list codec_history fun entry => by simp [writeHistory]
  have hseen := codec_arrays 32 (by decide)
  constructor
  case reads =>
    rintro head ⟨hfits, hhead⟩
    have hlines : ∀ entry ∈ head.history, Store.anonymous entry = entry :=
      List.map_inj_left.mp ((congrArg Head.history hhead).trans (List.map_id _).symm)
    simp only [encode, List.append_assoc]
    refine Reader.codec_u64.reads_bind trivial <| Reader.codec_u64.reads_bind trivial <| ?_
    refine codec_prekeys.reads_bind hfits.prekeys <| hsessions.reads_bind hfits.sessions <| ?_
    refine (hchannels.reads hfits.channels).bind <| hhosted.reads_bind hfits.hosted <| ?_
    refine hhistory.reads_bind ⟨hfits.history.1, fun entry hentry =>
      ⟨hfits.history.2 entry hentry, hlines entry hentry⟩⟩ <| ?_
    exact hseen.reads_map hfits.seenEnvelopes _
  case only =>
    intro head rest rest' hok
    simp only [encode, List.append_assoc] at hok
    obtain ⟨announced, _, hannounced, hok⟩ := run_bind_ok hok
    obtain ⟨fetched, _, hfetched, hok⟩ := run_bind_ok hok
    obtain ⟨prekeys, _, hreadPrekeys, hok⟩ := run_bind_ok hok
    obtain ⟨sessions, _, hreadSessions, hok⟩ := run_bind_ok hok
    obtain ⟨channels, _, hreadChannels, hok⟩ := run_bind_ok hok
    obtain ⟨hosted, _, hreadHosted, hok⟩ := run_bind_ok hok
    obtain ⟨history, _, hreadHistory, hok⟩ := run_bind_ok hok
    obtain ⟨seen, _, hreadSeen, hok⟩ := run_bind_ok hok
    cases hok
    obtain ⟨-, rfl⟩ := Reader.codec_u64.restores.only hannounced
    obtain ⟨-, rfl⟩ := Reader.codec_u64.restores.only hfetched
    obtain ⟨hprekeys, rfl⟩ := codec_prekeys.restores.only hreadPrekeys
    obtain ⟨hsessions, rfl⟩ := hsessions.restores.only hreadSessions
    obtain ⟨hchannels, rfl⟩ := hchannels.only hreadChannels
    obtain ⟨hhosted, rfl⟩ := hhosted.restores.only hreadHosted
    obtain ⟨⟨hcount, hhistory⟩, rfl⟩ := hhistory.restores.only hreadHistory
    obtain ⟨hseen, rfl⟩ := hseen.restores.only hreadSeen
    refine ⟨⟨⟨hprekeys, hsessions, hchannels, hhosted, ⟨hcount, fun e he => (hhistory e he).1⟩,
      hseen⟩, ?_⟩, rfl⟩
    have hlines : history.map Store.anonymous = history :=
      (List.map_congr_left fun entry hentry => (hhistory entry hentry).2).trans (List.map_id _)
    rw [anonymous, hlines]

theorem anonymous_of_read {input rest : Bytes} {head : Head}
    (hok : read.run input = .ok (head, rest)) : head.anonymous = head := by
  obtain ⟨announced, _, -, hok⟩ := run_bind_ok hok
  obtain ⟨fetched, _, -, hok⟩ := run_bind_ok hok
  obtain ⟨prekeys, _, -, hok⟩ := run_bind_ok hok
  obtain ⟨sessions, _, -, hok⟩ := run_bind_ok hok
  obtain ⟨channels, _, -, hok⟩ := run_bind_ok hok
  obtain ⟨hosted, _, -, hok⟩ := run_bind_ok hok
  obtain ⟨history, _, hhistory, hok⟩ := run_bind_ok hok
  obtain ⟨seen, _, -, hok⟩ := run_bind_ok hok
  cases hok
  obtain ⟨-, -, -, -, hfits⟩ :=
    (Reader.codec_list codec_history fun entry => by simp [writeHistory]).takes _ _ _ hhistory
  have hlines : history.map Store.anonymous = history :=
    (List.map_congr_left fun entry hentry => (hfits entry hentry).2).trans (List.map_id _)
  rw [anonymous, hlines]

end Head

/-- Values set on the elements of a list, one by one from the front. -/
def overlay {α γ : Type} (set : α → γ → α) : List α → List γ → List α
  | x :: xs, v :: vs => set x v :: overlay set xs vs
  | xs, _ => xs

/-- `e.msg_id = *id` -/
def withId (entry : HistoryEntry) (id : MsgId) : HistoryEntry := { entry with msgId := id }

namespace PersistedState

def sections (s : PersistedState) : (sec : Section) → List sec.Item
  | .channelHistory => s.channelHistory.map unplaced
  | .inviteUses => s.inviteUses
  | .channelRemoved => s.channelRemoved
  | .serverAutokick => s.serverAutokick
  | .serverPolicies => s.serverPolicies
  | .serverJoinPw => s.serverJoinPw
  | .channelReactions => s.channelReactions
  | .verifiedPeers => s.verifiedPeers
  | .contacts => s.contacts
  | .blocked => s.blocked
  | .channelEdits => s.channelEdits
  | .channelPins => s.channelPins
  | .dmMsgIds => s.dmMsgIds
  | .dmEdits => s.dmEdits
  | .serverBans => s.serverBans
  | .serverRegisterPow => s.serverRegisterPow
  | .groupCalls => s.groupCalls

/-- The sections as they are written; the last one is the metadata of the channel messages. -/
def trailing (s : PersistedState) : List Bytes :=
  (Section.all.map fun sec => Writer.list sec.write (s.sections sec)) ++
    [Writer.list ChannelMetadata.write (s.channelHistory.map ChannelMetadata.of)]

def assemble (head : Head) (found : (sec : Section) → List sec.Item)
    (metadata : List ChannelMetadata) : PersistedState :=
  { head with
    history := overlay withId head.history (found .dmMsgIds)
    channelHistory := overlay ChannelMetadata.place (found .channelHistory) metadata
    inviteUses := found .inviteUses
    channelRemoved := found .channelRemoved
    serverAutokick := found .serverAutokick
    serverPolicies := found .serverPolicies
    serverJoinPw := found .serverJoinPw
    channelReactions := found .channelReactions
    verifiedPeers := found .verifiedPeers
    contacts := found .contacts
    blocked := found .blocked
    channelEdits := found .channelEdits
    channelPins := found .channelPins
    dmMsgIds := found .dmMsgIds
    dmEdits := found .dmEdits
    serverBans := found .serverBans
    serverRegisterPow := found .serverRegisterPow
    groupCalls := found .groupCalls }

end PersistedState

def encodeState (s : PersistedState) : Bytes := s.toHead.encode ++ s.trailing.flatten

/-- What an older version has written: the sections after the first `k` did not exist. -/
def encodeFirst (s : PersistedState) (k : Nat) : Bytes :=
  s.toHead.encode ++ (s.trailing.take k).flatten

def readState : Reader PersistedState := do
  let head ← Head.read
  let found ← Parser.sections (fun sec => Reader.list sec.read) Section.all
  let metadata ← whileLeft (Reader.list ChannelMetadata.read)
  return .assemble head found metadata

def decodeState (input : Bytes) : Except WireError PersistedState :=
  Reader.decodeAll readState input

namespace PersistedState

structure Fits (s : PersistedState) : Prop where
  head : s.toHead.Fits
  sections : ∀ sec : Section, sec.Fits (s.sections sec)
  metadata : ∀ entry ∈ s.channelHistory, (ChannelMetadata.of entry).Fits

def kept (s : PersistedState) (k : Nat) (sec : Section) : List sec.Item :=
  if sec ∈ Section.all.take k then s.sections sec else []

/-- The state with all sections after the first `k` at their defaults. -/
def upTo (s : PersistedState) (k : Nat) : PersistedState :=
  { s with
    history := if .dmMsgIds ∈ Section.all.take k then s.history else s.history.map anonymous
    channelHistory :=
      if Section.all.length < k then s.channelHistory else s.kept k .channelHistory
    inviteUses := s.kept k .inviteUses
    channelRemoved := s.kept k .channelRemoved
    serverAutokick := s.kept k .serverAutokick
    serverPolicies := s.kept k .serverPolicies
    serverJoinPw := s.kept k .serverJoinPw
    channelReactions := s.kept k .channelReactions
    verifiedPeers := s.kept k .verifiedPeers
    contacts := s.kept k .contacts
    blocked := s.kept k .blocked
    channelEdits := s.kept k .channelEdits
    channelPins := s.kept k .channelPins
    dmMsgIds := s.kept k .dmMsgIds
    dmEdits := s.kept k .dmEdits
    serverBans := s.kept k .serverBans
    serverRegisterPow := s.kept k .serverRegisterPow
    groupCalls := s.kept k .groupCalls }

end PersistedState

section Overlay

variable {α γ : Type} {set : α → γ → α} {strip : α → α} {get : α → γ}

theorem overlay_nil (xs : List α) : overlay set xs [] = xs := by
  cases xs <;> rfl

theorem overlay_map (hset : ∀ x, set (strip x) (get x) = x) (xs : List α) :
    overlay set (xs.map strip) (xs.map get) = xs := by
  induction xs with
  | nil => rfl
  | cons x xs ih =>
    rw [List.map_cons, List.map_cons, overlay, hset, ih]

/-- What is set does not matter to the rest of an element. -/
theorem map_strip_overlay (hstrip : ∀ x v, strip (set x v) = strip x) (xs : List α) (vs : List γ) :
    (overlay set xs vs).map strip = xs.map strip := by
  induction xs generalizing vs with
  | nil => cases vs <;> rfl
  | cons x xs ih =>
    cases vs with
    | nil => rfl
    | cons v vs => rw [overlay, List.map_cons, List.map_cons, hstrip, ih]

theorem map_get_overlay (hget : ∀ x v, get (set x v) = v) {xs : List α} {vs : List γ}
    (hlen : vs.length = xs.length) : (overlay set xs vs).map get = vs := by
  induction xs generalizing vs with
  | nil =>
    obtain rfl := List.length_eq_zero_iff.mp hlen
    rfl
  | cons x xs ih =>
    cases vs with
    | nil => cases hlen
    | cons v vs => rw [overlay, List.map_cons, hget, ih (Nat.succ.inj hlen)]

end Overlay

theorem Head.Fits.anonymous {head : Head} (h : head.Fits) :
    head.anonymous.Fits ∧ head.anonymous.anonymous = head.anonymous := by
  constructor
  · refine { h with history := ⟨?_, ?_⟩ }
    · rw [Head.anonymous, List.length_map]
      exact h.history.1
    · intro entry hentry
      obtain ⟨line, hline, rfl⟩ := List.mem_map.mp hentry
      exact h.history.2 line hline
  · simp only [Head.anonymous, List.map_map]
    rfl

theorem Head.Fits.of_anonymous {head : Head} (h : head.anonymous.Fits) : head.Fits := by
  refine { h with history := ⟨?_, ?_⟩ }
  · rw [← List.length_map Store.anonymous]
    exact h.history.1
  · intro entry hentry
    exact h.history.2 (Store.anonymous entry) (List.mem_map_of_mem hentry)

/-- An encoded list is never empty: it has its count. -/
theorem list_ne_nil {α : Type} (write : α → Bytes) (xs : List α) : Writer.list write xs ≠ [] := by
  apply List.append_ne_nil_of_left_ne_nil
  intro hnil
  have hlength := congrArg List.length hnil
  rw [Writer.length_u32] at hlength
  cases hlength

theorem restores_metadata : Restores (Reader.list ChannelMetadata.read)
    (Writer.list ChannelMetadata.write)
    fun metadata => metadata.length < 2 ^ 32 ∧ ∀ entry ∈ metadata, entry.Fits :=
  Reader.restores_list ChannelMetadata.restores ChannelMetadata.write_pos

theorem PersistedState.Fits.metadata_fits {s : PersistedState} (h : s.Fits) :
    (s.channelHistory.map ChannelMetadata.of).length < 2 ^ 32 ∧
      ∀ entry ∈ s.channelHistory.map ChannelMetadata.of, entry.Fits := by
  constructor
  · have hcount := (h.sections .channelHistory).1
    rw [PersistedState.sections, List.length_map] at hcount
    rwa [List.length_map]
  · intro entry hentry
    obtain ⟨line, hline, rfl⟩ := List.mem_map.mp hentry
    exact h.metadata line hline

section Load

variable {s : PersistedState}

/-- The state that is put together from the first `k` sections. -/
theorem assemble_kept (hids : s.dmMsgIds = s.history.map (·.msgId)) (k : Nat) :
    PersistedState.assemble s.toHead.anonymous (s.kept k)
        (if Section.all.length < k then s.channelHistory.map ChannelMetadata.of else []) =
      s.upTo k := by
  have hhistory : overlay withId (s.history.map anonymous) (s.kept k .dmMsgIds) =
      if Section.dmMsgIds ∈ Section.all.take k then s.history else s.history.map anonymous := by
    rw [PersistedState.kept]
    split
    · rw [PersistedState.sections, hids]
      exact overlay_map (fun _ => rfl) _
    · exact overlay_nil _
  have hchannels : overlay ChannelMetadata.place (s.kept k .channelHistory)
      (if Section.all.length < k then s.channelHistory.map ChannelMetadata.of else []) =
      if Section.all.length < k then s.channelHistory else s.kept k .channelHistory := by
    split
    · rename_i hall
      have hmem : Section.channelHistory ∈ Section.all.take k := by
        rw [List.take_of_length_le hall.le]
        exact Section.mem_all _
      rw [PersistedState.kept, if_pos hmem]
      exact overlay_map (fun _ => rfl) _
    · exact overlay_nil _
  rw [PersistedState.assemble, PersistedState.upTo, hchannels]
  simp only [Head.anonymous, hhistory]

/-- Reading what an older version has written. -/
theorem decodeState_encodeFirst (hids : s.dmMsgIds = s.history.map (·.msgId)) (hfits : s.Fits)
    (k : Nat) : decodeState (encodeFirst s k) = .ok (s.upTo k) := by
  let metadata := s.channelHistory.map ChannelMetadata.of
  let last := ([Writer.list ChannelMetadata.write metadata].take (k - Section.all.length)).flatten
  have hsections : (Parser.sections (fun sec => Reader.list sec.read) Section.all).run
      (((Section.all.map fun sec => Writer.list sec.write (s.sections sec)).take k).flatten ++
        last) = .ok (s.kept k, last) := by
    apply run_sections (fun sec => list_ne_nil _ _)
      (fun sec _ => sec.codec_list.reads (hfits.sections sec)) k
    intro hfew
    have hzero : k - Section.all.length = 0 := by omega
    simp only [last, hzero, List.take_zero, List.flatten_nil]
  have hmetadata : (whileLeft (Reader.list ChannelMetadata.read)).run last =
      .ok (if Section.all.length < k then metadata else [], []) := by
    split
    · rename_i hall
      obtain ⟨more, hmore⟩ : ∃ more, k - Section.all.length = more + 1 :=
        ⟨k - Section.all.length - 1, by omega⟩
      have hlast : last = Writer.list ChannelMetadata.write metadata := by
        simp [last, hmore]
      have hread := restores_metadata.reads hfits.metadata_fits []
      rw [List.append_nil] at hread
      rw [hlast, run_whileLeft _ (list_ne_nil _ _), hread]
    · rename_i hfew
      have hzero : k - Section.all.length = 0 := by omega
      simp only [last, hzero, List.take_zero, List.flatten_nil]
      exact run_whileLeft_nil _
  rw [decodeState, Reader.decodeAll_eq_ok, encodeFirst, PersistedState.trailing, List.take_append,
    List.flatten_append, List.length_map, ← s.toHead.encode_anonymous, readState,
    run_bind_of_ok (Head.restores.reads hfits.head.anonymous _), run_bind_of_ok hsections,
    run_bind_of_ok hmetadata, assemble_kept hids]
  rfl

theorem encodeFirst_all (s : PersistedState) :
    encodeFirst s (Section.all.length + 1) = encodeState s := by
  have hlength : s.trailing.length ≤ Section.all.length + 1 := by
    rw [PersistedState.trailing, List.length_append, List.length_map]
    rfl
  rw [encodeFirst, List.take_of_length_le hlength, encodeState]

theorem upTo_all (s : PersistedState) : s.upTo (Section.all.length + 1) = s := rfl

theorem decodeState_encodeState (hids : s.dmMsgIds = s.history.map (·.msgId)) (hfits : s.Fits) :
    decodeState (encodeState s) = .ok s := by
  rw [← encodeFirst_all, decodeState_encodeFirst hids hfits, upTo_all]

/-- What is read fits, and none of it has been placed in its channel yet. -/
theorem fits_of_run_sections {input rest : Bytes} {found : (sec : Section) → List sec.Item}
    (hok : (Parser.sections (fun sec => Reader.list sec.read) Section.all).run input =
      .ok (found, rest)) (sec : Section) : sec.Fits (found sec) := by
  refine forall_of_sections (Q := fun sec items => sec.Fits items) ?_ ?_ hok sec
  · intro sec input rest items hitems
    obtain ⟨-, -, -, hfits⟩ := sec.codec_list.takes _ _ _ hitems
    exact hfits
  · intro sec
    exact ⟨Nat.two_pow_pos 32, nofun⟩

/-- The sections of a state that was put together from what was read. -/
theorem sections_assemble (head : Head) {found : (sec : Section) → List sec.Item}
    (hfits : ∀ sec : Section, sec.Fits (found sec)) (metadata : List ChannelMetadata)
    (sec : Section) :
    (PersistedState.assemble head found metadata).sections sec = found sec := by
  have hchannels : (overlay ChannelMetadata.place (found .channelHistory) metadata).map unplaced =
      found .channelHistory := by
    have hstrip (entry : ChannelHistoryEntry) (m : ChannelMetadata) :
        unplaced (m.place entry) = unplaced entry := rfl
    rw [map_strip_overlay hstrip]
    have hlines := (hfits .channelHistory).2
    exact (List.map_congr_left fun entry hentry => (hlines entry hentry).2).trans (List.map_id _)
  cases sec with
  | channelHistory => exact hchannels
  | _ => rfl

/-- If the state comes back as it was saved, then all of its lengths and counts fit. -/
theorem fits_of_decodeState (hok : decodeState (encodeState s) = .ok s) : s.Fits := by
  rw [decodeState, Reader.decodeAll_eq_ok, encodeState, PersistedState.trailing,
    List.flatten_append, ← s.toHead.encode_anonymous, readState] at hok
  obtain ⟨head, mid, hhead, hok⟩ := run_bind_ok hok
  obtain ⟨found, left, hfound, hok⟩ := run_bind_ok hok
  obtain ⟨metadata, rest, hmetadata, hok⟩ := run_bind_ok hok
  obtain ⟨hstate, rfl⟩ := Prod.mk.inj (Except.ok.inj hok)
  -- the head is the one that was written, but for the ids
  have hsame : head = s.toHead.anonymous := by
    have hstrip (entry : HistoryEntry) (id : MsgId) :
        anonymous (withId entry id) = anonymous entry := rfl
    have hlines : s.history.map anonymous = head.history := by
      rw [← hstate, PersistedState.assemble, map_strip_overlay hstrip]
      exact congrArg Head.history (Head.anonymous_of_read hhead)
    rw [Head.anonymous, hlines, ← hstate]
    rfl
  subst hsame
  obtain ⟨⟨hheadFits, -⟩, rfl⟩ := Head.restores.only hhead
  -- so are the sections, and what is left is the metadata
  have hfits := fits_of_run_sections hfound
  have hsections (sec : Section) : s.sections sec = found sec := by
    rw [← hstate, sections_assemble _ hfits]
  have hleft : left = Writer.list ChannelMetadata.write (s.channelHistory.map .of) := by
    have hreads : ∀ sec ∈ Section.all,
        Reads (Reader.list sec.read) (Writer.list sec.write (s.sections sec)) (s.sections sec) :=
      fun sec _ => sec.codec_list.reads (hsections sec ▸ hfits sec)
    have hrun := hfound.symm.trans
      (run_all_sections (fun sec => list_ne_nil _ _) hreads Section.mem_all _)
    rw [(Prod.mk.inj (Except.ok.inj hrun)).2, List.flatten_singleton]
  -- the count of the channel messages fits, so there is metadata for each of them
  subst hleft
  rw [run_whileLeft _ (list_ne_nil _ _), ← List.append_nil (Writer.list _ _)] at hmetadata
  have hcount := (hfits .channelHistory).1
  rw [← hsections, PersistedState.sections, List.length_map] at hcount
  have hlength : metadata.length = (found .channelHistory).length := by
    obtain ⟨hlength, -⟩ := Reader.run_list_eq_ok hmetadata
    rw [hlength, List.length_map, Reader.toNat_ofNat_length hcount, ← hsections]
    exact (List.length_map _).symm
  have hget (entry : ChannelHistoryEntry) (m : ChannelMetadata) : .of (m.place entry) = m := rfl
  have hsame : s.channelHistory.map .of = metadata := by
    rw [← hstate]
    exact map_get_overlay hget hlength
  rw [hsame] at hmetadata
  obtain ⟨⟨-, hmetadataFits⟩, -⟩ := restores_metadata.only hmetadata
  refine ⟨hheadFits.of_anonymous, fun sec => hsections sec ▸ hfits sec, ?_⟩
  intro entry hentry
  exact hmetadataFits _ (hsame ▸ List.mem_map_of_mem hentry)

end Load

/-- The store loads what was saved, and every older file with fewer sections, exactly if the
length words hold all lengths and counts. -/
theorem load_save_iff (s : PersistedState) (hids : s.dmMsgIds = s.history.map (·.msgId)) :
    (decodeState (encodeState s) = .ok s ∧
      ∀ k, decodeState (encodeFirst s k) = .ok (s.upTo k)) ↔ s.Fits := by
  constructor
  · intro hload
    exact fits_of_decodeState hload.1
  · intro hfits
    exact ⟨decodeState_encodeState hids hfits, decodeState_encodeFirst hids hfits⟩

def sampleState : PersistedState :=
  { lastAnnounceMs := 7
    lastFetchSinceMs := 8
    prekeys := { spkSecret := .fill 32 1, otpSecrets := [.fill 32 2] }
    sessions := []
    channels := []
    hosted := []
    history :=
      [{ peerIdk := .fill 32 3, outgoing := true, tsMs := 5, kind := .text "hi",
         msgId := .fill 16 4 },
       { peerIdk := .fill 32 3, outgoing := false, tsMs := 6, kind := .file "a.txt" 9,
         msgId := .fill 16 5 }]
    seenEnvelopes := [.fill 32 6]
    channelHistory :=
      [{ channelId := .fill 32 7, sender := .fill 32 8, outgoing := false, tsMs := 9,
         text := "yes", seq := 2, replyTo := some 1, forwardedFrom := some "them" }]
    inviteUses := [(.fill 8 1, 2)]
    channelRemoved := []
    serverAutokick := []
    serverPolicies := [[1, 2, 3]]
    serverJoinPw := []
    channelReactions := []
    verifiedPeers := []
    contacts := []
    blocked := []
    channelEdits := []
    channelPins := []
    dmMsgIds := [.fill 16 4, .fill 16 5]
    dmEdits := []
    serverBans := []
    serverRegisterPow := []
    groupCalls := [] }

theorem fits_sampleState : sampleState.Fits where
  head :=
    { prekeys := by decide
      sessions := ⟨by decide, nofun⟩
      channels := ⟨by decide, nofun⟩
      hosted := ⟨by decide, nofun⟩
      history := by
        simp only [sampleState, List.forall_mem_cons, KindFits]
        exact ⟨by decide, by decide, by decide, nofun⟩
      seenEnvelopes := by decide }
  sections sec := by
    cases sec with
    | channelHistory => exact ⟨by decide, List.forall_mem_singleton.mpr ⟨by decide, rfl⟩⟩
    | _ => simp [sampleState, PersistedState.sections, Section.Fits, Section.ItemFits]
  metadata := by
    simp only [sampleState, List.forall_mem_singleton, ChannelMetadata.Fits, ChannelMetadata.of,
      Option.mem_some_iff, forall_eq']
    decide

theorem load_save_sample : decodeState (encodeState sampleState) = .ok sampleState ∧
    ∀ k, decodeState (encodeFirst sampleState k) = .ok (sampleState.upTo k) :=
  (load_save_iff sampleState rfl).mpr fits_sampleState

/-- A store with one session in it, which was flooded with messages that do not decrypt, does
not load. -/
theorem load_fails_after_flood :
    ∃ started ∈ Session.sampleStarted, started.1.flooded.Reachable samplePrimitives ∧
      let s := { sampleState with sessions := [(.fill 32 3, started.1.flooded.exportState)] }
      s.dmMsgIds = s.history.map (·.msgId) ∧ decodeState (encodeState s) ≠ .ok s := by
  obtain ⟨started, hstarted, hbig⟩ := Session.flooded_too_long
  refine ⟨started, hstarted, (Session.Reachable.sampleStarted hstarted).exec _, rfl, ?_⟩
  intro hok
  have hfits := ((fits_of_decodeState hok).head.sessions.2 _ List.mem_cons_self).1.1
  exact absurd hfits (Nat.not_lt.mpr hbig)

end Dante.Core.Store
