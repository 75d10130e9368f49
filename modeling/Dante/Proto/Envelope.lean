import Dante.Crypto.Suite
import Dante.Proto.Enc

/-!
The header of a stored-and-forwarded message. A recipient is named by a hint that
changes every day and is too short to tell who the recipient is; the sender's clock
at the deposit fixes both the day of the hint and the time of expiry.
-/

namespace Dante

open Crypto Enc

/-- `EPOCH_MS`, a day. -/
def epochMs : UInt64 := 86400000

def hintDomain : Bytes := "dante/recipient-hint/v1".toUTF8.toList

abbrev Hint := ByteArr 8

/-- The polling tag of `recipientId` on the day of `atMs`. -/
def recipientHint (S : Suite) (recipientId : Hash) (atMs : UInt64) : Hint :=
  let epoch := atMs / epochMs
  let full := sha256Parts S.sha256 [hintDomain, recipientId.toList, Writer.u64 epoch]
  .ofList (full.toList.take 8) (by simp)

structure Envelope where
  v : UInt16
  recipientHint : Hint
  payload : Bytes
  sizeClass : UInt16
  depositedMs : UInt64
  ttlMs : UInt32
  deriving DecidableEq

def Envelope.isExpired (env : Envelope) (nowMs : UInt64) : Bool :=
  saturatingSub nowMs env.depositedMs > env.ttlMs.toUInt64

namespace Envelope

def encode (env : Envelope) : Bytes :=
  Writer.u16 env.v ++ Writer.fixed env.recipientHint ++ Writer.bytes env.payload ++
    Writer.u16 env.sizeClass ++ Writer.u64 env.depositedMs ++ Writer.u32 env.ttlMs

def read : Reader Envelope := do
  let v ← Reader.u16
  let recipientHint ← Reader.fixed 8
  let payload ← Reader.bytes
  let sizeClass ← Reader.u16
  let depositedMs ← Reader.u64
  let ttlMs ← Reader.u32
  return { v := v, recipientHint := recipientHint, payload := payload, sizeClass := sizeClass,
           depositedMs := depositedMs, ttlMs := ttlMs }

def decode (input : Bytes) : Except WireError Envelope := Reader.decodeAll read input

/-- An envelope comes back from its encoding if the payload's length fits its length word, and
nothing else decodes to it. -/
theorem codec : Parser.Codec read encode fun env => env.payload.length < 2 ^ 32 where
  reads {env} h := by
    simp only [encode, List.append_assoc]
    exact Reader.codec_u16.reads_bind trivial <| (Reader.codec_fixed 8).reads_bind trivial <|
      Reader.codec_bytes.reads_bind h <| Reader.codec_u16.reads_bind trivial <|
      Reader.codec_u64.reads_bind trivial <| Reader.codec_u32.reads_map trivial _
  takes :=
    Reader.codec_u16.takes_bind fun _ _ => (Reader.codec_fixed 8).takes_bind fun _ _ =>
      Reader.codec_bytes.takes_bind fun _ h => Reader.codec_u16.takes_bind fun _ _ =>
      Reader.codec_u64.takes_bind fun _ _ => Reader.codec_u32.takes_map fun _ _ =>
      ⟨by simp [encode], h⟩

theorem decode_encode {env : Envelope} (hlen : env.payload.length < 2 ^ 32) :
    decode env.encode = .ok env :=
  (Reader.decodeAll_eq_ok_iff codec).mpr ⟨rfl, hlen⟩

theorem encode_of_decode {blob : Bytes} {env : Envelope} (h : decode blob = .ok env) :
    env.encode = blob :=
  ((Reader.decodeAll_eq_ok_iff codec).mp h).1.symm

end Envelope

/-- Two times with one hint are times of one day. -/
def HintsDistinct (S : Suite) (recipientId : Hash) (times : List UInt64) : Prop :=
  ∀ a ∈ times, ∀ b ∈ times, recipientHint S recipientId a = recipientHint S recipientId b →
    a / epochMs = b / epochMs

instance (S : Suite) (recipientId : Hash) (times : List UInt64) :
    Decidable (HintsDistinct S recipientId times) :=
  -- the instance for lists: a search through all of `UInt64` would be found first
  have (a : UInt64) : Decidable (∀ b ∈ times, recipientHint S recipientId a =
      recipientHint S recipientId b → a / epochMs = b / epochMs) :=
    List.decidableBAll _ times
  List.decidableBAll _ times

theorem recipientHint_congr (S : Suite) (recipientId : Hash) {a b : UInt64}
    (hday : a / epochMs = b / epochMs) :
    recipientHint S recipientId a = recipientHint S recipientId b := by
  simp only [recipientHint, hday]

/-- A computable suite whose hints depend on the day: the last bytes of the checksum
come first. -/
def sampleHintSuite : Suite :=
  { sampleSuite with
    sha256 := fun input => .ofList (polynomialHash input).toList.reverse (by simp) }

end Dante
