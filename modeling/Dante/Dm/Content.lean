import Dante.Proto.Enc

/-!
What a decrypted direct message or channel frame says. Every kind has a tag byte of
its own in front of its fields.
-/

namespace Dante.Dm

open Enc

structure FileManifest where
  fileKey : Key
  filename : String
  totalSize : UInt64
  chunkSize : UInt32
  chunkHashes : List Hash
  senderIdk : Key
  sig : Signature
  deriving DecidableEq

namespace FileManifest

def encode (manifest : FileManifest) : Bytes :=
  Writer.fixed manifest.fileKey ++ Writer.string manifest.filename ++
    Writer.u64 manifest.totalSize ++ Writer.u32 manifest.chunkSize ++
    Writer.u32 (UInt32.ofNat manifest.chunkHashes.length) ++
    (manifest.chunkHashes.map fun hash => Writer.fixed hash).flatten ++
    Writer.fixed manifest.senderIdk ++ Writer.fixed manifest.sig

/-- `for _ in 0..n` over hashes. -/
def readHashes : Nat → Reader (List Hash)
  | 0 => return []
  | n + 1 => return (← Reader.fixed 32) :: (← readHashes n)

def read : Reader FileManifest := do
  let fileKey ← Reader.fixed 32
  let filename ← Reader.string
  let totalSize ← Reader.u64
  let chunkSize ← Reader.u32
  let n := (← Reader.u32).toNat
  if n > (← Reader.remaining) then
    throw (.lengthTooLarge (UInt64.ofNat n))
  let chunkHashes ← readHashes n
  let senderIdk ← Reader.fixed 32
  let sig ← Reader.fixed 64
  return { fileKey := fileKey, filename := filename, totalSize := totalSize,
           chunkSize := chunkSize, chunkHashes := chunkHashes, senderIdk := senderIdk, sig := sig }

def decode (input : Bytes) : Except WireError FileManifest := Reader.decodeAll read input

end FileManifest

abbrev MsgId := ByteArr 16

abbrev ChannelId := ByteArr 32

inductive Content where
  | text (text : String)
  | file (manifest : FileManifest)
  | channel (blob : Bytes)
  | typing
  | reaction (targetSeq : UInt64) (emoji : String) (remove : Bool)
  | callOffer (sdp : String)
  | callAnswer (sdp : String)
  | callIce (candidate : String)
  | callEnd
  | groupCallWelcome (channelId : ChannelId) (blob : Bytes)
  | groupCallCommit (channelId : ChannelId) (blob : Bytes)
  | groupCallLeave (channelId : ChannelId)
  | edit (targetSeq : UInt64) (text : String)
  | delete (targetSeq : UInt64)
  | reply (targetSeq : UInt64) (text : String)
  | pin (targetSeq : UInt64) (unpin : Bool)
  | textId (text : String) (id : MsgId)
  | dmEdit (target : MsgId) (text : String)
  | dmDelete (target : MsgId)
  | forward (origin : String) (text : String)
  | groupCallJoinRequest (channelId : ChannelId)
  | voiceSignal (channelId : ChannelId) (kind : UInt8) (data : String)
  | callSignal (kind : UInt8) (data : String)
  deriving DecidableEq

namespace Content

def encode : Content → Bytes
  | text s => Writer.u8 1 ++ Writer.string s
  | file m => Writer.u8 2 ++ Writer.bytes m.encode
  | channel b => Writer.u8 3 ++ Writer.bytes b
  | typing => Writer.u8 4
  | reaction targetSeq emoji remove =>
    Writer.u8 5 ++ Writer.u64 targetSeq ++ Writer.string emoji ++ Writer.bool remove
  | callOffer s => Writer.u8 6 ++ Writer.string s
  | callAnswer s => Writer.u8 7 ++ Writer.string s
  | callIce s => Writer.u8 8 ++ Writer.string s
  | callEnd => Writer.u8 9
  | groupCallWelcome channelId blob => Writer.u8 10 ++ Writer.fixed channelId ++ Writer.bytes blob
  | groupCallCommit channelId blob => Writer.u8 11 ++ Writer.fixed channelId ++ Writer.bytes blob
  | groupCallLeave channelId => Writer.u8 12 ++ Writer.fixed channelId
  | edit targetSeq s => Writer.u8 13 ++ Writer.u64 targetSeq ++ Writer.string s
  | delete targetSeq => Writer.u8 14 ++ Writer.u64 targetSeq
  | reply targetSeq s => Writer.u8 15 ++ Writer.u64 targetSeq ++ Writer.string s
  | pin targetSeq unpin => Writer.u8 16 ++ Writer.u64 targetSeq ++ Writer.bool unpin
  | textId s id => Writer.u8 17 ++ Writer.string s ++ Writer.fixed id
  | dmEdit target s => Writer.u8 18 ++ Writer.fixed target ++ Writer.string s
  | dmDelete target => Writer.u8 19 ++ Writer.fixed target
  | forward origin s => Writer.u8 20 ++ Writer.string origin ++ Writer.string s
  | groupCallJoinRequest channelId => Writer.u8 21 ++ Writer.fixed channelId
  | voiceSignal channelId kind data =>
    Writer.u8 22 ++ Writer.fixed channelId ++ Writer.u8 kind ++ Writer.string data
  | callSignal kind data => Writer.u8 23 ++ Writer.u8 kind ++ Writer.string data

def read : Reader Content := do
  match ← Reader.u8 with
  | 1 => return text (← Reader.string)
  | 2 => return file (← Parser.ofExcept (FileManifest.decode (← Reader.bytes)))
  | 3 => return channel (← Reader.bytes)
  | 4 => return typing
  | 5 => return reaction (← Reader.u64) (← Reader.string) (← Reader.bool)
  | 6 => return callOffer (← Reader.string)
  | 7 => return callAnswer (← Reader.string)
  | 8 => return callIce (← Reader.string)
  | 9 => return callEnd
  | 10 => return groupCallWelcome (← Reader.fixed 32) (← Reader.bytes)
  | 11 => return groupCallCommit (← Reader.fixed 32) (← Reader.bytes)
  | 12 => return groupCallLeave (← Reader.fixed 32)
  | 13 => return edit (← Reader.u64) (← Reader.string)
  | 14 => return delete (← Reader.u64)
  | 15 => return reply (← Reader.u64) (← Reader.string)
  | 16 => return pin (← Reader.u64) (← Reader.bool)
  | 17 => return textId (← Reader.string) (← Reader.fixed 16)
  | 18 => return dmEdit (← Reader.fixed 16) (← Reader.string)
  | 19 => return dmDelete (← Reader.fixed 16)
  | 20 => return forward (← Reader.string) (← Reader.string)
  | 21 => return groupCallJoinRequest (← Reader.fixed 32)
  | 22 => return voiceSignal (← Reader.fixed 32) (← Reader.u8) (← Reader.string)
  | 23 => return callSignal (← Reader.u8) (← Reader.string)
  | other => throw (.badDiscriminant "dm::Content" other.toUInt64)

def decode (input : Bytes) : Except WireError Content := Reader.decodeAll read input

/-- Text and files, which a conversation shows and a block stops. -/
def isConversation : Content → Bool
  | text _ | textId _ _ | file _ => true
  | _ => false

end Content

end Dante.Dm
