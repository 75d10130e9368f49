import Dante.Crypto.Suite
import Dante.Proto.Enc

/-!
The record envelope: a signed container whose body is opaque bytes. Its id is the
hash of its encoding, so what matters of the encoding is that two records never
share one, and that decoding gives the record back.
-/

namespace Dante

open Crypto Enc

inductive RecordKind where
  | identityAnnounce
  | livenessProof
  | keyRotation
  | serverRegister
  | serverDelist
  | tombstone
  | identityRevoke
  | identityProfile
  deriving DecidableEq, Repr

namespace RecordKind

def asU8 : RecordKind → UInt8
  | .identityAnnounce => 1
  | .livenessProof => 2
  | .keyRotation => 3
  | .serverRegister => 4
  | .serverDelist => 5
  | .tombstone => 6
  | .identityRevoke => 7
  | .identityProfile => 8

def fromU8 (v : UInt8) : Except WireError RecordKind :=
  match v with
  | 1 => .ok .identityAnnounce
  | 2 => .ok .livenessProof
  | 3 => .ok .keyRotation
  | 4 => .ok .serverRegister
  | 5 => .ok .serverDelist
  | 6 => .ok .tombstone
  | 7 => .ok .identityRevoke
  | 8 => .ok .identityProfile
  | other => .error (.badDiscriminant "RecordKind" other.toUInt64)

theorem fromU8_asU8 (kind : RecordKind) : fromU8 kind.asU8 = .ok kind := by
  cases kind <;> rfl

theorem asU8_of_fromU8 {byte : UInt8} {kind : RecordKind}
    (h : fromU8 byte = .ok kind) : kind.asU8 = byte := by
  unfold fromU8 at h
  split at h <;> cases h <;> rfl

end RecordKind

def recordVersion : UInt16 := 1

def clockSkewMs : UInt64 := 300000

abbrev RecordId := Hash

structure Record where
  v : UInt16
  kind : RecordKind
  body : Bytes
  author : Key
  createdMs : UInt64
  sig : Signature
  deriving DecidableEq

namespace Record

/-- The whole record except `sig`. -/
def signingBytes (record : Record) : Bytes :=
  Writer.u16 record.v ++ Writer.u8 record.kind.asU8 ++ Writer.bytes record.body ++
    Writer.fixed record.author ++ Writer.u64 record.createdMs

def encode (record : Record) : Bytes := record.signingBytes ++ Writer.fixed record.sig

def read : Reader Record := do
  let v ← Reader.u16
  let kind ← liftM (RecordKind.fromU8 (← Reader.u8))
  let body ← Reader.bytes
  let author ← Reader.fixed 32
  let createdMs ← Reader.u64
  let sig ← Reader.fixed 64
  return { v, kind, body, author, createdMs, sig }

def decode (bytes : Bytes) : Except WireError Record := Reader.decodeAll read bytes

variable (S : Suite)

def id (record : Record) : RecordId := S.sha256 record.encode

/-- The caller provides the signature over the signing bytes. -/
def sealWith (kind : RecordKind) (body : Bytes) (author : Key) (createdMs : UInt64)
    (sign : Bytes → Signature) : Record :=
  let unsigned : Record :=
    { v := recordVersion, kind, body, author, createdMs, sig := .fill 64 0 }
  { unsigned with sig := sign unsigned.signingBytes }

def verifySignature (record : Record) : Except CryptoError Unit := do
  let pk ← SignPublic.fromBytes S record.author
  pk.verify record.signingBytes record.sig

variable {S}

theorem verifies_of_verifySignature {record : Record}
    (hok : record.verifySignature S = .ok ()) :
    Verifies S record.author record.signingBytes record.sig := by
  unfold verifySignature at hok
  cases hkey : SignPublic.fromBytes S record.author with
  | error e => simp [hkey, bind, Except.bind] at hok
  | ok pk => exact verifies_of_ok hkey (by simpa [hkey, bind, Except.bind] using hok)

/-- The length of the encoding gives the length of the body, so two encodings that
are equal can be compared field by field. -/
theorem encode_length (record : Record) : record.encode.length = 111 + record.body.length := by
  simp [encode, signingBytes, Writer.u16, Writer.u8, Writer.bytes, Writer.u32, Writer.u64,
    Writer.fixed]
  omega

theorem encode_injective {left right : Record} (heq : left.encode = right.encode) :
    left = right := by
  have hlen : left.body.length = right.body.length := by
    have hsame := congrArg List.length heq
    simp only [encode_length] at hsame
    omega
  simp only [encode, signingBytes, Writer.bytes, List.append_assoc] at heq
  obtain ⟨hv, heq⟩ := List.append_inj heq (by simp [Writer.u16])
  obtain ⟨hkind, heq⟩ := List.append_inj heq (by simp [Writer.u8])
  obtain ⟨-, heq⟩ := List.append_inj heq (by simp [Writer.u32])
  obtain ⟨hbody, heq⟩ := List.append_inj heq hlen
  obtain ⟨hauthor, heq⟩ := List.append_inj heq (by simp [Writer.fixed])
  obtain ⟨hcreated, hsig⟩ := List.append_inj heq (by simp [Writer.u64])
  have hv : left.v = right.v :=
    UInt16.toNat_inj.mp (BigEndian.encode_injective left.v.toNat_lt right.v.toNat_lt hv)
  have hcreated : left.createdMs = right.createdMs :=
    UInt64.toNat_inj.mp
      (BigEndian.encode_injective left.createdMs.toNat_lt right.createdMs.toNat_lt hcreated)
  have hkind : left.kind = right.kind := by
    have hbyte : left.kind.asU8 = right.kind.asU8 := List.head_eq_of_cons_eq hkind
    have hsame := left.kind.fromU8_asU8
    rw [hbyte, right.kind.fromU8_asU8] at hsame
    exact (Except.ok.inj hsame).symm
  have hauthor : left.author = right.author := ByteArr.toList_injective hauthor
  have hsig : left.sig = right.sig := ByteArr.toList_injective hsig
  cases left
  cases right
  simp_all

/-- A record comes back from its encoding if the body's length fits its length word, and
nothing else decodes to it. -/
theorem codec : Parser.Codec read encode fun record => record.body.length < 2 ^ 32 where
  reads {record} h := by
    have hkind : Parser.Reads (liftM (RecordKind.fromU8 record.kind.asU8) : Reader RecordKind) []
        record.kind := Parser.Reads.ofExcept record.kind.fromU8_asU8
    simp only [encode, signingBytes, List.append_assoc]
    exact Reader.codec_u16.reads_bind trivial <| Reader.codec_u8.reads_bind trivial <| hkind.bind <|
      Reader.codec_bytes.reads_bind h <| (Reader.codec_fixed 32).reads_bind trivial <|
      Reader.codec_u64.reads_bind trivial <| (Reader.codec_fixed 64).reads_map trivial _
  takes := by
    have hkind (byte : UInt8) : Parser.Takes (liftM (RecordKind.fromU8 byte) : Reader RecordKind)
        fun kind xs => xs = [] ∧ RecordKind.fromU8 byte = .ok kind := Parser.Takes.ofExcept _
    refine Reader.codec_u16.takes_bind fun v _ => Reader.codec_u8.takes_bind fun byte _ => (hkind byte).bind ?_
    rintro kind _ ⟨rfl, hbyte⟩
    obtain rfl := RecordKind.asU8_of_fromU8 hbyte
    exact Reader.codec_bytes.takes_bind fun _ h => (Reader.codec_fixed 32).takes_bind fun _ _ =>
      Reader.codec_u64.takes_bind fun _ _ => (Reader.codec_fixed 64).takes_map fun _ _ =>
      ⟨by simp [encode, signingBytes], h⟩

theorem decode_encode {record : Record} (hlen : record.body.length < 2 ^ 32) :
    decode record.encode = .ok record :=
  (Reader.decodeAll_eq_ok_iff codec).mpr ⟨rfl, hlen⟩

end Record

end Dante
