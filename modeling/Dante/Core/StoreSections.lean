import Dante.Core.StoreFormat
import Dante.Library.Sections

/-!
The sections at the end of the store, in the order in which they were introduced. A store
that is older than a section ends before it.
-/

namespace Dante.Core.Store

open Crypto Dm Enc Parser Reader

structure StoredEdit where
  channelId : ChannelId
  seq : UInt64
  author : Hash
  text : String
  deleted : Bool
  deriving DecidableEq

namespace StoredEdit

def write (edit : StoredEdit) : Bytes :=
  Writer.fixed edit.channelId ++ Writer.u64 edit.seq ++ Writer.fixed edit.author ++
    Writer.string edit.text ++ Writer.bool edit.deleted

def read : Reader StoredEdit := do
  let channelId ← Reader.fixed 32
  let seq ← Reader.u64
  let author ← Reader.fixed 32
  let text ← Reader.string
  let deleted ← Reader.bool
  return { channelId := channelId, seq := seq, author := author, text := text, deleted := deleted }

theorem codec : Codec read write fun edit => edit.text.utf8ByteSize < 2 ^ 32 where
  reads {edit} htext := by
    simp only [write, List.append_assoc]
    exact (codec_fixed 32).reads_bind trivial <| codec_u64.reads_bind trivial <|
      (codec_fixed 32).reads_bind trivial <| codec_string.reads_bind htext <|
      codec_bool.reads_map trivial _
  takes :=
    (codec_fixed 32).takes_bind fun channelId _ => codec_u64.takes_bind fun seq _ =>
      (codec_fixed 32).takes_bind fun author _ =>
      codec_string.takes_bind fun text htext => codec_bool.takes_map fun deleted _ =>
      ⟨by simp [write], htext⟩

end StoredEdit

structure StoredDmEdit where
  peerIdk : Key
  msgId : MsgId
  text : String
  deleted : Bool
  deriving DecidableEq

namespace StoredDmEdit

def write (edit : StoredDmEdit) : Bytes :=
  Writer.fixed edit.peerIdk ++ Writer.fixed edit.msgId ++ Writer.string edit.text ++
    Writer.bool edit.deleted

def read : Reader StoredDmEdit := do
  let peerIdk ← Reader.fixed 32
  let msgId ← Reader.fixed 16
  let text ← Reader.string
  let deleted ← Reader.bool
  return { peerIdk := peerIdk, msgId := msgId, text := text, deleted := deleted }

theorem codec : Codec read write fun edit => edit.text.utf8ByteSize < 2 ^ 32 where
  reads {edit} htext := by
    simp only [write, List.append_assoc]
    exact (codec_fixed 32).reads_bind trivial <|
      (codec_fixed 16).reads_bind trivial <| codec_string.reads_bind htext <|
      codec_bool.reads_map trivial _
  takes :=
    (codec_fixed 32).takes_bind fun peerIdk _ =>
      (codec_fixed 16).takes_bind fun msgId _ =>
      codec_string.takes_bind fun text htext => codec_bool.takes_map fun deleted _ =>
      ⟨by simp [write], htext⟩

end StoredDmEdit

structure StoredPin where
  channelId : ChannelId
  seq : UInt64
  who : Hash
  atMs : UInt64
  deriving DecidableEq

namespace StoredPin

def write (pin : StoredPin) : Bytes :=
  Writer.fixed pin.channelId ++ Writer.u64 pin.seq ++ Writer.fixed pin.who ++ Writer.u64 pin.atMs

def read : Reader StoredPin := do
  let channelId ← Reader.fixed 32
  let seq ← Reader.u64
  let who ← Reader.fixed 32
  let atMs ← Reader.u64
  return { channelId := channelId, seq := seq, who := who, atMs := atMs }

theorem codec : Codec read write fun _ => True where
  reads {pin} _ := by
    simp only [write, List.append_assoc]
    exact (codec_fixed 32).reads_bind trivial <| codec_u64.reads_bind trivial <|
      (codec_fixed 32).reads_bind trivial <| codec_u64.reads_map trivial _
  takes :=
    (codec_fixed 32).takes_bind fun channelId _ => codec_u64.takes_bind fun seq _ =>
      (codec_fixed 32).takes_bind fun who _ => codec_u64.takes_map fun atMs _ =>
      ⟨by simp [write], trivial⟩

end StoredPin

structure StoredServerPow where
  root : Key
  mCostKib : UInt32
  tCost : UInt32
  difficulty : UInt8
  nonce : ByteArr 16
  deriving DecidableEq

namespace StoredServerPow

def write (pow : StoredServerPow) : Bytes :=
  Writer.fixed pow.root ++ Writer.u32 pow.mCostKib ++ Writer.u32 pow.tCost ++
    Writer.u8 pow.difficulty ++ Writer.fixed pow.nonce

def read : Reader StoredServerPow := do
  let root ← Reader.fixed 32
  let mCostKib ← Reader.u32
  let tCost ← Reader.u32
  let difficulty ← Reader.u8
  let nonce ← Reader.fixed 16
  return { root := root, mCostKib := mCostKib, tCost := tCost, difficulty := difficulty,
           nonce := nonce }

theorem codec : Codec read write fun _ => True where
  reads {pow} _ := by
    simp only [write, List.append_assoc]
    exact (codec_fixed 32).reads_bind trivial <| codec_u32.reads_bind trivial <|
      codec_u32.reads_bind trivial <| codec_u8.reads_bind trivial <|
      (codec_fixed 16).reads_map trivial _
  takes :=
    (codec_fixed 32).takes_bind fun root _ => codec_u32.takes_bind fun mCost _ =>
      codec_u32.takes_bind fun tCost _ => codec_u8.takes_bind fun difficulty _ =>
      (codec_fixed 16).takes_map fun nonce _ => ⟨by simp [write], trivial⟩

end StoredServerPow

structure StoredGroupCall where
  channelId : ChannelId
  mls : Bytes
  deriving DecidableEq

namespace StoredGroupCall

def write (call : StoredGroupCall) : Bytes :=
  Writer.fixed call.channelId ++ Writer.bytes call.mls

def read : Reader StoredGroupCall := do
  let channelId ← Reader.fixed 32
  let mls ← Reader.bytes
  return { channelId := channelId, mls := mls }

theorem codec : Codec read write fun call => call.mls.length < 2 ^ 32 where
  reads hmls := (codec_fixed 32).reads_bind trivial <| codec_bytes.reads_map hmls _
  takes :=
    (codec_fixed 32).takes_bind fun channelId _ => codec_bytes.takes_map fun mls hmls =>
      ⟨by simp [write], hmls⟩

end StoredGroupCall

/-- The sections, but for the last one, which completes the lines of the first. -/
inductive Section where
  | channelHistory
  | inviteUses
  | channelRemoved
  | serverAutokick
  | serverPolicies
  | serverJoinPw
  | channelReactions
  | verifiedPeers
  | contacts
  | blocked
  | channelEdits
  | channelPins
  | dmMsgIds
  | dmEdits
  | serverBans
  | serverRegisterPow
  | groupCalls
  deriving DecidableEq

namespace Section

def all : List Section :=
  [channelHistory, inviteUses, channelRemoved, serverAutokick, serverPolicies, serverJoinPw,
    channelReactions, verifiedPeers, contacts, blocked, channelEdits, channelPins, dmMsgIds,
    dmEdits, serverBans, serverRegisterPow, groupCalls]

abbrev Item : Section → Type
  | channelHistory => ChannelHistoryEntry
  | inviteUses => ByteArr 8 × UInt32
  | channelRemoved => ChannelId × Hash × UInt64
  | serverAutokick => Key × UInt64
  | serverPolicies => Bytes
  | serverJoinPw => Key × Hash
  | channelReactions => ChannelId × UInt64 × String × Hash
  | verifiedPeers => Hash × Key
  | contacts => Hash × String × UInt64
  | blocked => Hash
  | channelEdits => StoredEdit
  | channelPins => StoredPin
  | dmMsgIds => MsgId
  | dmEdits => StoredDmEdit
  | serverBans => Key × List Hash
  | serverRegisterPow => StoredServerPow
  | groupCalls => StoredGroupCall

def write : (sec : Section) → sec.Item → Bytes
  | channelHistory => writeChannelHistory
  | inviteUses => Writer.both Writer.fixed Writer.u32
  | channelRemoved => Writer.both Writer.fixed (Writer.both Writer.fixed Writer.u64)
  | serverAutokick => Writer.both Writer.fixed Writer.u64
  | serverPolicies => Writer.bytes
  | serverJoinPw => Writer.both Writer.fixed Writer.fixed
  | channelReactions =>
    Writer.both Writer.fixed (Writer.both Writer.u64 (Writer.both Writer.string Writer.fixed))
  | verifiedPeers => Writer.both Writer.fixed Writer.fixed
  | contacts => Writer.both Writer.fixed (Writer.both Writer.string Writer.u64)
  | blocked => Writer.fixed
  | channelEdits => StoredEdit.write
  | channelPins => StoredPin.write
  | dmMsgIds => Writer.fixed
  | dmEdits => StoredDmEdit.write
  | serverBans => Writer.both Writer.fixed (Writer.list Writer.fixed)
  | serverRegisterPow => StoredServerPow.write
  | groupCalls => StoredGroupCall.write

def read : (sec : Section) → Reader sec.Item
  | channelHistory => readChannelHistory
  | inviteUses => both (Reader.fixed 8) Reader.u32
  | channelRemoved => both (Reader.fixed 32) (both (Reader.fixed 32) Reader.u64)
  | serverAutokick => both (Reader.fixed 32) Reader.u64
  | serverPolicies => Reader.bytes
  | serverJoinPw => both (Reader.fixed 32) (Reader.fixed 32)
  | channelReactions =>
    both (Reader.fixed 32) (both Reader.u64 (both Reader.string (Reader.fixed 32)))
  | verifiedPeers => both (Reader.fixed 32) (Reader.fixed 32)
  | contacts => both (Reader.fixed 32) (both Reader.string Reader.u64)
  | blocked => Reader.fixed 32
  | channelEdits => StoredEdit.read
  | channelPins => StoredPin.read
  | dmMsgIds => Reader.fixed 16
  | dmEdits => StoredDmEdit.read
  | serverBans => both (Reader.fixed 32) (Reader.list (Reader.fixed 32))
  | serverRegisterPow => StoredServerPow.read
  | groupCalls => StoredGroupCall.read

/-- The entries whose lengths the length words hold. -/
def ItemFits : (sec : Section) → sec.Item → Prop
  | channelHistory => fun entry => entry.text.utf8ByteSize < 2 ^ 32 ∧ unplaced entry = entry
  | serverPolicies => fun policy => policy.length < 2 ^ 32
  | channelReactions => fun reaction => reaction.2.2.1.utf8ByteSize < 2 ^ 32
  | contacts => fun contact => contact.2.1.utf8ByteSize < 2 ^ 32
  | channelEdits => fun edit => edit.text.utf8ByteSize < 2 ^ 32
  | dmEdits => fun edit => edit.text.utf8ByteSize < 2 ^ 32
  | serverBans => fun ban => ban.2.length < 2 ^ 32
  | groupCalls => fun call => call.mls.length < 2 ^ 32
  | _ => fun _ => True

theorem codec (sec : Section) : Codec sec.read sec.write sec.ItemFits := by
  have hfixed {n : Nat} := codec_fixed n
  have hids := codec_arrays 32 (by decide)
  have hnumber := codec_u64
  have htext := codec_string
  cases sec with
  | channelHistory => exact codec_channelHistory
  | inviteUses =>
    exact (codec_both hfixed codec_u32).congr (fun _ => rfl) (by simp [ItemFits])
  | channelRemoved =>
    exact (codec_both hfixed (codec_both hfixed hnumber)).congr (fun _ => rfl)
      (by simp [ItemFits])
  | serverAutokick =>
    exact (codec_both hfixed hnumber).congr (fun _ => rfl) (by simp [ItemFits])
  | serverPolicies => exact codec_bytes
  | serverJoinPw =>
    exact (codec_both hfixed hfixed).congr (fun _ => rfl) (by simp [ItemFits])
  | channelReactions =>
    exact (codec_both hfixed (codec_both hnumber (codec_both htext
      hfixed))).congr (fun _ => rfl) (by simp [ItemFits])
  | verifiedPeers =>
    exact (codec_both hfixed hfixed).congr (fun _ => rfl) (by simp [ItemFits])
  | contacts =>
    exact (codec_both hfixed (codec_both htext hnumber)).congr (fun _ => rfl)
      (by simp [ItemFits])
  | blocked => exact hfixed
  | channelEdits => exact StoredEdit.codec
  | channelPins => exact StoredPin.codec
  | dmMsgIds => exact hfixed
  | dmEdits => exact StoredDmEdit.codec
  | serverBans =>
    exact (codec_both hfixed hids).congr (fun _ => rfl) (by simp [ItemFits])
  | serverRegisterPow => exact StoredServerPow.codec
  | groupCalls => exact StoredGroupCall.codec

theorem write_pos (sec : Section) (item : sec.Item) : 0 < (sec.write item).length := by
  cases sec
  all_goals simp [write, writeChannelHistory, StoredEdit.write, StoredPin.write, StoredDmEdit.write,
    StoredServerPow.write, StoredGroupCall.write]

/-- The length words hold the number of the entries and their lengths. -/
def Fits (sec : Section) (items : List sec.Item) : Prop :=
  items.length < 2 ^ 32 ∧ ∀ item ∈ items, sec.ItemFits item

theorem codec_list (sec : Section) :
    Codec (Reader.list sec.read) (Writer.list sec.write) sec.Fits :=
  Reader.codec_list sec.codec sec.write_pos

theorem mem_all (sec : Section) : sec ∈ all := by cases sec <;> decide

end Section

end Dante.Core.Store
