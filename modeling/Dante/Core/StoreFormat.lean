import Dante.Core.Channels
import Dante.Core.DmEdits
import Dante.Dm.Snapshot

/-!
The entries of the local store, each with its encoding. All lengths and counts are `u32`
words, truncated as `as u32` truncates them; an entry fits if they all hold. The reader of
an entry is the inverse of its writer on the entries that fit.
-/

namespace Dante.Core.Store

open Crypto Dm Enc Parser Reader

structure ChannelInfo where
  serverRoot : Key
  serverName : String
  channelId : ChannelId
  channelName : String
  isPrivate : Bool
  hostId : Hash
  voice : Bool
  deriving DecidableEq

namespace ChannelInfo

def encode (info : ChannelInfo) : Bytes :=
  Writer.fixed info.serverRoot ++ Writer.string info.serverName ++ Writer.fixed info.channelId ++
    Writer.string info.channelName ++ Writer.bool info.isPrivate ++ Writer.fixed info.hostId ++
    Writer.bool info.voice

/-- The flag came later: without it the channel is a text channel. -/
def readVoice : Reader Bool := do
  if (← Reader.remaining) ≥ 1 then
    Reader.bool
  else
    return false

def read : Reader ChannelInfo := do
  let serverRoot ← Reader.fixed 32
  let serverName ← Reader.string
  let channelId ← Reader.fixed 32
  let channelName ← Reader.string
  let isPrivate ← Reader.bool
  let hostId ← Reader.fixed 32
  let voice ← readVoice
  return { serverRoot := serverRoot, serverName := serverName, channelId := channelId,
           channelName := channelName, isPrivate := isPrivate, hostId := hostId, voice := voice }

def decode (input : Bytes) : Except WireError ChannelInfo := Reader.decodeAll read input

theorem takes_voice : Takes readVoice fun voice taken =>
    taken = Writer.bool voice ∨ voice = false ∧ taken = [] := by
  refine takes_remaining.bind ?_
  rintro count _ rfl
  split
  · intro input rest voice hok
    obtain ⟨taken, hinput, htaken, -⟩ := codec_bool.takes _ _ _ hok
    exact ⟨taken, hinput, Or.inl htaken⟩
  · exact .pure (Or.inr ⟨rfl, rfl⟩)

theorem reads_voice (voice : Bool) : Reads readVoice (Writer.bool voice) voice := by
  intro rest
  cases voice <;> rfl

theorem decode_encode {info : ChannelInfo} (hlen : info.encode.length < 2 ^ 32) :
    decode info.encode = .ok info := by
  apply Reader.decodeAll_of_reads
  simp only [encode, List.length_append, Writer.length_string] at hlen
  simp only [encode, List.append_assoc]
  rw [← List.append_nil (Writer.bool info.voice)]
  exact (reads_fixed _).bind <| codec_string.reads_bind (by omega) <|
    (reads_fixed _).bind <| codec_string.reads_bind (by omega) <|
    (reads_bool _).bind <| (reads_fixed _).bind <| (reads_voice _).bind <| .pure _

/-- What decodes is the encoding, or an older one without the last flag. -/
theorem eq_of_decode {input : Bytes} {info : ChannelInfo} (hok : decode input = .ok info) :
    input = info.encode ∨ input.length + 1 = info.encode.length := by
  have htakes : Takes read fun info taken =>
      taken = info.encode ∨ taken.length + 1 = info.encode.length := by
    refine (codec_fixed 32).takes_bind fun root _ => ?_
    refine codec_string.takes_bind fun serverName _ => ?_
    refine (codec_fixed 32).takes_bind fun channelId _ => ?_
    refine codec_string.takes_bind fun channelName _ => ?_
    refine codec_bool.takes_bind fun isPrivate _ => ?_
    refine (codec_fixed 32).takes_bind fun hostId _ => ?_
    refine takes_voice.bind ?_
    rintro voice taken (rfl | ⟨rfl, rfl⟩)
    · exact .pure (Or.inl (by simp [encode]))
    · exact .pure (Or.inr (by simp [encode, Writer.bool]; omega))
  obtain ⟨taken, hinput, htaken⟩ := htakes _ _ _ (Reader.decodeAll_eq_ok.mp hok)
  rwa [hinput, List.append_nil]

/-- The reader of a nested channel, in a store. -/
def readNested : Reader ChannelInfo := do
  Parser.ofExcept (decode (← Reader.bytes))

theorem restores : Restores readNested (fun info => Writer.bytes info.encode)
    fun info => info.encode.length < 2 ^ 32 where
  reads hlen := codec_bytes.reads_last hlen (.ofExcept (decode_encode hlen))
  only {info rest rest'} hok := by
    obtain ⟨v, mid, hbytes, hok⟩ := run_bind_ok hok
    obtain ⟨_, hinput, rfl, hv⟩ := codec_bytes.takes _ _ _ hbytes
    obtain ⟨_, hmid, rfl, hdecode⟩ := Takes.ofExcept _ _ _ _ hok
    obtain rfl : mid = rest' := hmid
    rcases eq_of_decode hdecode with rfl | hshort
    · exact ⟨hv, (List.append_cancel_left hinput).symm⟩
    · -- the length word is that of the whole encoding
      have hword := Reader.length_of_run_bytes hbytes
      omega

end ChannelInfo

structure StoredChannel where
  info : ChannelInfo
  mls : Bytes
  roster : List Hash
  lastSeq : UInt64
  logKey : Option Key
  deriving DecidableEq

namespace StoredChannel

def write (channel : StoredChannel) : Bytes :=
  Writer.bytes channel.info.encode ++ Writer.bytes channel.mls ++ Writer.u64 channel.lastSeq ++
    Writer.list Writer.fixed channel.roster ++ writeOpt32 channel.logKey

def read : Reader StoredChannel := do
  let info ← ChannelInfo.readNested
  let mls ← Reader.bytes
  let lastSeq ← Reader.u64
  let roster ← Reader.list (Reader.fixed 32)
  let logKey ← readOpt32
  return { info := info, mls := mls, roster := roster, lastSeq := lastSeq, logKey := logKey }

def Fits (channel : StoredChannel) : Prop :=
  channel.info.encode.length < 2 ^ 32 ∧ channel.mls.length < 2 ^ 32 ∧
    channel.roster.length < 2 ^ 32

end StoredChannel

theorem codec_arrays (n : Nat) (hn : 0 < n) :
    Codec (Reader.list (Reader.fixed n)) (Writer.list Writer.fixed)
      fun xs => xs.length < 2 ^ 32 :=
  (codec_list (codec_fixed n) fun x => by simpa using hn).congr (fun _ => rfl)
    fun _ => by simp

theorem StoredChannel.restores : Restores StoredChannel.read StoredChannel.write
    StoredChannel.Fits where
  reads {channel} hfits := by
    obtain ⟨hinfo, hmls, hroster⟩ := hfits
    simp only [write, List.append_assoc]
    exact (ChannelInfo.restores.reads hinfo).bind <| codec_bytes.reads_bind hmls <|
      codec_u64.reads_bind trivial <| (codec_arrays 32 (by decide)).reads_bind hroster <|
      codec_opt32.reads_map trivial _
  only {channel rest rest'} hok := by
    simp only [write, List.append_assoc] at hok
    obtain ⟨info, _, hreadInfo, hok⟩ := run_bind_ok hok
    obtain ⟨mls, _, hreadMls, hok⟩ := run_bind_ok hok
    obtain ⟨lastSeq, _, hreadSeq, hok⟩ := run_bind_ok hok
    obtain ⟨roster, _, hreadRoster, hok⟩ := run_bind_ok hok
    obtain ⟨logKey, _, hreadKey, hok⟩ := run_bind_ok hok
    cases hok
    obtain ⟨hinfo, rfl⟩ := ChannelInfo.restores.only hreadInfo
    obtain ⟨hmls, rfl⟩ := codec_bytes.restores.only hreadMls
    obtain ⟨-, rfl⟩ := codec_u64.restores.only hreadSeq
    obtain ⟨hroster, rfl⟩ := (codec_arrays 32 (by decide)).restores.only hreadRoster
    obtain ⟨-, rfl⟩ := codec_opt32.restores.only hreadKey
    exact ⟨⟨hinfo, hmls, hroster⟩, rfl⟩

structure StoredHostedServer where
  rootPub : Key
  name : String
  rootSecret : Key
  channels : List ChannelId
  deriving DecidableEq

namespace StoredHostedServer

def write (server : StoredHostedServer) : Bytes :=
  Writer.fixed server.rootPub ++ Writer.string server.name ++ Writer.fixed server.rootSecret ++
    Writer.list Writer.fixed server.channels

def read : Reader StoredHostedServer := do
  let rootPub ← Reader.fixed 32
  let name ← Reader.string
  let rootSecret ← Reader.fixed 32
  let channels ← Reader.list (Reader.fixed 32)
  return { rootPub := rootPub, name := name, rootSecret := rootSecret, channels := channels }

def Fits (server : StoredHostedServer) : Prop :=
  server.name.utf8ByteSize < 2 ^ 32 ∧ server.channels.length < 2 ^ 32

theorem codec : Codec read write Fits where
  reads {server} hfits := by
    simp only [write, List.append_assoc]
    exact (codec_fixed 32).reads_bind trivial <| codec_string.reads_bind hfits.1 <|
      (codec_fixed 32).reads_bind trivial <|
      (codec_arrays 32 (by decide)).reads_map hfits.2 _
  takes :=
    (codec_fixed 32).takes_bind fun root _ => codec_string.takes_bind fun name hname =>
      (codec_fixed 32).takes_bind fun secret _ =>
      (codec_arrays 32 (by decide)).takes_map fun channels hchannels =>
      ⟨by simp [write], hname, hchannels⟩

end StoredHostedServer

def anonymous (entry : HistoryEntry) : HistoryEntry := { entry with msgId := .fill 16 0 }

def writeKind : HistoryKind → Bytes
  | .text text => Writer.u8 1 ++ Writer.string text
  | .file filename size => Writer.u8 2 ++ Writer.string filename ++ Writer.u64 size

def readKind : Reader HistoryKind := do
  match ← Reader.u8 with
  | 1 => return .text (← Reader.string)
  | 2 => return .file (← Reader.string) (← Reader.u64)
  | other => throw (.badDiscriminant "HistoryKind" other.toUInt64)

def KindFits : HistoryKind → Prop
  | .text text => text.utf8ByteSize < 2 ^ 32
  | .file filename _ => filename.utf8ByteSize < 2 ^ 32

theorem codec_kind : Codec readKind writeKind KindFits where
  reads {kind} hfits := by
    cases kind with
    | text text =>
      exact codec_u8.reads_bind trivial <| codec_string.reads_map hfits _
    | file filename size =>
      rw [writeKind, List.append_assoc]
      exact codec_u8.reads_bind trivial <| codec_string.reads_bind hfits <|
        codec_u64.reads_map trivial _
  takes := by
    refine codec_u8.takes_bind fun tag _ => ?_
    split
    · exact codec_string.takes_map fun text htext => ⟨by simp [writeKind], htext⟩
    · exact codec_string.takes_bind fun filename hname =>
        codec_u64.takes_map fun size _ => ⟨by simp [writeKind], hname⟩
    · exact .throw

def writeHistory (entry : HistoryEntry) : Bytes :=
  Writer.fixed entry.peerIdk ++ Writer.bool entry.outgoing ++ Writer.u64 entry.tsMs ++
    writeKind entry.kind

def readHistory : Reader HistoryEntry := do
  let peerIdk ← Reader.fixed 32
  let outgoing ← Reader.bool
  let tsMs ← Reader.u64
  let kind ← readKind
  return { peerIdk := peerIdk, outgoing := outgoing, tsMs := tsMs, kind := kind,
           msgId := .fill 16 0 }

theorem codec_history : Codec readHistory writeHistory
    fun entry => KindFits entry.kind ∧ anonymous entry = entry where
  reads {entry} hfits := by
    obtain ⟨hkind, hentry⟩ := hfits
    rw [← hentry]
    simp only [writeHistory, List.append_assoc]
    exact (codec_fixed 32).reads_bind trivial <| codec_bool.reads_bind trivial <|
      codec_u64.reads_bind trivial <| codec_kind.reads_map hkind _
  takes :=
    (codec_fixed 32).takes_bind fun peer _ => codec_bool.takes_bind fun outgoing _ =>
      codec_u64.takes_bind fun tsMs _ => codec_kind.takes_map fun kind hkind =>
      ⟨by simp [writeHistory], hkind, rfl⟩

/-- The line without what is kept in a section of its own. -/
def unplaced (entry : ChannelHistoryEntry) : ChannelHistoryEntry :=
  { entry with seq := 0, replyTo := none, forwardedFrom := none }

def writeChannelHistory (entry : ChannelHistoryEntry) : Bytes :=
  Writer.fixed entry.channelId ++ Writer.fixed entry.sender ++ Writer.bool entry.outgoing ++
    Writer.u64 entry.tsMs ++ Writer.string entry.text

def readChannelHistory : Reader ChannelHistoryEntry := do
  let channelId ← Reader.fixed 32
  let sender ← Reader.fixed 32
  let outgoing ← Reader.bool
  let tsMs ← Reader.u64
  let text ← Reader.string
  return { channelId := channelId, sender := sender, outgoing := outgoing, tsMs := tsMs,
           text := text, seq := 0, replyTo := none, forwardedFrom := none }

theorem codec_channelHistory : Codec readChannelHistory writeChannelHistory
    fun entry => entry.text.utf8ByteSize < 2 ^ 32 ∧ unplaced entry = entry where
  reads {entry} hfits := by
    obtain ⟨htext, hentry⟩ := hfits
    rw [← hentry]
    simp only [writeChannelHistory, List.append_assoc]
    exact (codec_fixed 32).reads_bind trivial <|
      (codec_fixed 32).reads_bind trivial <| codec_bool.reads_bind trivial <|
      codec_u64.reads_bind trivial <| codec_string.reads_map htext _
  takes :=
    (codec_fixed 32).takes_bind fun channelId _ =>
      (codec_fixed 32).takes_bind fun sender _ =>
      codec_bool.takes_bind fun outgoing _ => codec_u64.takes_bind fun tsMs _ =>
      codec_string.takes_map fun text htext => ⟨by simp [writeChannelHistory], htext, rfl⟩

structure ChannelMetadata where
  seq : UInt64
  replyTo : Option UInt64
  forwardedFrom : Option String
  deriving DecidableEq

namespace ChannelMetadata

def of (entry : ChannelHistoryEntry) : ChannelMetadata :=
  { seq := entry.seq, replyTo := entry.replyTo, forwardedFrom := entry.forwardedFrom }

def place (entry : ChannelHistoryEntry) (metadata : ChannelMetadata) : ChannelHistoryEntry :=
  { entry with
    seq := metadata.seq
    replyTo := metadata.replyTo
    forwardedFrom := metadata.forwardedFrom }

def writeForwarded : Option String → Bytes
  | some origin => Writer.bool true ++ Writer.string origin
  | none => Writer.bool false

def readForwarded : Reader (Option String) := do
  if ← Reader.bool then
    return some (← Reader.string)
  else
    return none

/-- The number is written whether there is one or not. -/
def writeReply (replyTo : Option UInt64) : Bytes :=
  Writer.bool replyTo.isSome ++ Writer.u64 (replyTo.getD 0)

def readReply : Reader (Option UInt64) := do
  let present ← Reader.bool
  let answered ← Reader.u64
  return if present then some answered else none

def write (metadata : ChannelMetadata) : Bytes :=
  Writer.u64 metadata.seq ++ writeReply metadata.replyTo ++ writeForwarded metadata.forwardedFrom

def read : Reader ChannelMetadata := do
  let seq ← Reader.u64
  let replyTo ← readReply
  let forwardedFrom ← readForwarded
  return { seq := seq, replyTo := replyTo, forwardedFrom := forwardedFrom }

def Fits (metadata : ChannelMetadata) : Prop :=
  ∀ origin ∈ metadata.forwardedFrom, origin.utf8ByteSize < 2 ^ 32

theorem codec_forwarded : Codec readForwarded writeForwarded
    fun forwarded => ∀ origin ∈ forwarded, origin.utf8ByteSize < 2 ^ 32 where
  reads {forwarded} hfits := by
    cases forwarded with
    | none => exact codec_bool.reads_last trivial (.pure _)
    | some origin =>
      exact codec_bool.reads_bind trivial <| codec_string.reads_map (hfits origin rfl) _
  takes := by
    refine codec_bool.takes_bind fun present _ => ?_
    cases present with
    | false => exact .pure ⟨rfl, nofun⟩
    | true =>
      refine codec_string.takes_map fun origin horigin => ⟨by simp [writeForwarded], ?_⟩
      rintro _ ⟨⟩
      exact horigin

/-- A number that is absent is read whatever it is, so this is no inverse. -/
theorem restores_reply : Restores readReply writeReply fun _ => True where
  reads {replyTo} _ := by
    cases replyTo with
    | none => exact codec_bool.reads_bind trivial <| codec_u64.reads_map trivial _
    | some answered =>
      exact codec_bool.reads_bind trivial <| codec_u64.reads_map trivial _
  only {replyTo rest rest'} hok := by
    rw [writeReply, List.append_assoc] at hok
    obtain ⟨present, _, hpresent, hok⟩ := run_bind_ok hok
    obtain ⟨answered, _, hanswered, hok⟩ := run_bind_ok hok
    rw [reads_bool] at hpresent
    cases hpresent
    rw [reads_u64] at hanswered
    cases hanswered
    obtain ⟨-, rfl⟩ := Prod.mk.inj (Except.ok.inj hok)
    exact ⟨trivial, rfl⟩

theorem restores : Restores read write Fits where
  reads {metadata} hfits := by
    rw [write, List.append_assoc]
    exact codec_u64.reads_bind trivial <| (restores_reply.reads trivial).bind <|
      codec_forwarded.reads_map hfits _
  only {metadata rest rest'} hok := by
    simp only [write, List.append_assoc] at hok
    obtain ⟨seq, _, hseq, hok⟩ := run_bind_ok hok
    obtain ⟨replyTo, _, hreply, hok⟩ := run_bind_ok hok
    obtain ⟨forwardedFrom, _, hforwarded, hok⟩ := run_bind_ok hok
    cases hok
    obtain ⟨-, rfl⟩ := codec_u64.restores.only hseq
    obtain ⟨-, rfl⟩ := restores_reply.only hreply
    exact codec_forwarded.restores.only hforwarded

theorem write_pos (metadata : ChannelMetadata) : 0 < metadata.write.length := by
  simp [write]

end ChannelMetadata

end Dante.Core.Store
