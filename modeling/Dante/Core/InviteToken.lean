import Dante.Crypto.Suite
import Dante.Library.Method
import Dante.Proto.Enc

/-!
Invite links: a token signed by the server's root key that names a channel and the host
to ask. The link's text is the hexadecimal form of the encoded token and is not modelled.
-/

namespace Dante.Core

open Crypto Enc Except

def tokenVersion : UInt8 := 1

/-- `SIG_DOMAIN` -/
def tokenDomain : Bytes := "dante/invite-token/v1".toUTF8.toList

structure InviteToken where
  serverRoot : Key
  hostId : Hash
  channelId : ByteArr 32
  relayHint : String
  expiresMs : UInt64
  /-- Zero for any number of uses. -/
  maxUses : UInt32
  nonce : ByteArr 8
  sig : Signature
  deriving DecidableEq

inductive InviteError where
  | wire (error : WireError)
  | badServerKey
  | badSignature
  | expired
  deriving DecidableEq

namespace InviteToken

def body (token : InviteToken) : Bytes :=
  Writer.u8 tokenVersion ++ Writer.fixed token.serverRoot ++ Writer.fixed token.hostId ++
    Writer.fixed token.channelId ++ Writer.string token.relayHint ++ Writer.u64 token.expiresMs ++
    Writer.u32 token.maxUses ++ Writer.fixed token.nonce

def challenge (S : Suite) (body : Bytes) : Hash := S.sha256 (tokenDomain ++ body)

def verify (S : Suite) (token : InviteToken) : Except InviteError Unit := do
  let key ← (SignPublic.fromBytes S token.serverRoot).mapError fun _ => .badServerKey
  (key.verify (challenge S token.body).toList token.sig).mapError fun _ => .badSignature

def isExpired (token : InviteToken) (nowMs : UInt64) : Bool := token.expiresMs ≤ nowMs

def encode (token : InviteToken) : Bytes := Writer.bytes token.body ++ Writer.fixed token.sig

def readBody (sig : Signature) : Reader InviteToken := do
  let version ← Reader.u8
  if version ≠ tokenVersion then
    throw (.invalid "invite token version")
  let serverRoot ← Reader.fixed 32
  let hostId ← Reader.fixed 32
  let channelId ← Reader.fixed 32
  let relayHint ← Reader.string
  let expiresMs ← Reader.u64
  let maxUses ← Reader.u32
  let nonce ← Reader.fixed 8
  return { serverRoot, hostId, channelId, relayHint, expiresMs, maxUses, nonce, sig }

def decode (input : Bytes) : Except WireError InviteToken := do
  let outer : Reader (Bytes × Signature) := do
    let body ← Reader.bytes
    let sig ← Reader.fixed 64
    return (body, sig)
  let (body, sig) ← Reader.decodeAll outer input
  Reader.decodeAll (readBody sig) body

theorem reads_body {token : InviteToken} (hhint : token.relayHint.utf8ByteSize < 2 ^ 32) :
    Parser.Reads (readBody token.sig) token.body token := by
  simp only [body, List.append_assoc]
  exact Reader.codec_u8.reads_bind trivial <| (Reader.codec_fixed 32).reads_bind trivial <|
    (Reader.codec_fixed 32).reads_bind trivial <| (Reader.codec_fixed 32).reads_bind trivial <|
    Reader.codec_string.reads_bind hhint <| Reader.codec_u64.reads_bind trivial <|
    Reader.codec_u32.reads_bind trivial <| (Reader.codec_fixed 8).reads_map trivial _

theorem decode_encode {token : InviteToken} (hlen : token.body.length < 2 ^ 32)
    (hhint : token.relayHint.utf8ByteSize < 2 ^ 32) : decode token.encode = .ok token := by
  simp only [decode, bind_eq_ok]
  refine ⟨(token.body, token.sig), ?_, Reader.decodeAll_of_reads (reads_body hhint)⟩
  apply Reader.decodeAll_of_reads
  exact Reader.codec_bytes.reads_bind hlen <| (Reader.codec_fixed 64).reads_map trivial _

end InviteToken

end Dante.Core
