import Dante.Crypto.Pow
import Dante.Library.Method
import Dante.Proto.Record

/-!
The bodies of the identity records: announcement, liveness proof, key rotation,
revocation and profile. Decoding is structural; `verify` holds what a body must
show on its own, without the ledger's state.
-/

namespace Dante.Identity

open Crypto Enc

inductive IdentityError where
  | wire (error : WireError)
  | wrongRecordKind
  | fieldTooLong
  | badSignature
  | badPow
  | badStatus
  deriving DecidableEq, Repr

def livenessBucketMs : UInt64 := 7 * 24 * 60 * 60 * 1000

def displayHintMax : Nat := 64

def statusMax : Nat := 256

/-- `char::is_control`: the general category `Cc`. -/
def isControl (c : Char) : Bool := c.val < 0x20 || (0x7f ≤ c.val && c.val ≤ 0x9f)

def validStatus (status : String) : Bool :=
  !status.isEmpty && status.utf8ByteSize ≤ statusMax && status.toList.all fun c => !isControl c

def announcePowDomain : Bytes := "dante/pow/identity-announce/v1".toUTF8.toList

def livenessPowDomain : Bytes := "dante/pow/liveness/v1".toUTF8.toList

def rotationLinkDomain : Bytes := "dante/key-rotation/link/v1".toUTF8.toList

variable (S : Suite)

structure IdentityAnnounce where
  ikPub : Key
  ikSig : Signature
  pow : Pow.PowProof
  displayHint : String
  deriving DecidableEq

namespace IdentityAnnounce

def challenge (idkPub ikPub : Key) : Hash :=
  sha256Parts S.sha256 [announcePowDomain, idkPub.toList, ikPub.toList]

/-- `idkPub` is the author of the record; the other arguments are the verifier's
floor on the puzzle. -/
def verify (body : IdentityAnnounce) (idkPub : SignPublic S) (minPowBits : UInt8)
    (minPowMCostKib minPowTCost : UInt32) : Except IdentityError Unit := do
  if body.displayHint.utf8ByteSize > displayHintMax then
    throw .fieldTooLong
  (idkPub.verify body.ikPub.toList body.ikSig).mapError fun _ => .badSignature
  (Pow.verify S (challenge S idkPub.toBytes body.ikPub) body.pow minPowBits minPowMCostKib
    minPowTCost).mapError fun _ => .badPow

def encode (body : IdentityAnnounce) : Bytes :=
  Writer.fixed body.ikPub ++ Writer.fixed body.ikSig ++ Pow.write body.pow ++
    Writer.string body.displayHint

def read : Reader IdentityAnnounce := do
  let ikPub ← Reader.fixed 32
  let ikSig ← Reader.fixed 64
  let pow ← Pow.read
  let displayHint ← Reader.string
  return { ikPub, ikSig, pow, displayHint }

def decode (bytes : Bytes) : Except IdentityError IdentityAnnounce :=
  (Reader.decodeAll read bytes).mapError .wire

theorem hint_of_verify {S : Suite} {body : IdentityAnnounce} {idkPub : SignPublic S}
    {minPowBits : UInt8} {minPowMCostKib minPowTCost : UInt32}
    (hok : body.verify S idkPub minPowBits minPowMCostKib minPowTCost = .ok ()) :
    body.displayHint.utf8ByteSize ≤ displayHintMax := by
  unfold verify at hok
  split at hok
  · cases hok
  · omega

end IdentityAnnounce

structure LivenessProof where
  pow : Pow.PowProof
  deriving DecidableEq

namespace LivenessProof

def challenge (idkPub : Key) (createdMs : UInt64) : Hash :=
  sha256Parts S.sha256
    [livenessPowDomain, idkPub.toList, Writer.u64 (createdMs / livenessBucketMs)]

def verify (body : LivenessProof) (idkPub : SignPublic S) (createdMs : UInt64)
    (minPowBits : UInt8) (minPowMCostKib minPowTCost : UInt32) : Except IdentityError Unit :=
  (Pow.verify S (challenge S idkPub.toBytes createdMs) body.pow minPowBits minPowMCostKib
    minPowTCost).mapError fun _ => .badPow

def encode (body : LivenessProof) : Bytes := Pow.write body.pow

def read : Reader LivenessProof := do
  return { pow := ← Pow.read }

def decode (bytes : Bytes) : Except IdentityError LivenessProof :=
  (Reader.decodeAll read bytes).mapError .wire

end LivenessProof

/-- Rotation to a new key pair. The record's author is the new key; `linkSig` is the
old key's endorsement. -/
structure KeyRotation where
  prevIdk : Key
  newIdk : Key
  newIk : Key
  newIkSig : Signature
  linkSig : Signature
  deriving DecidableEq

namespace KeyRotation

def linkChallenge (prevIdk newIdk newIk : Key) : Hash :=
  sha256Parts S.sha256 [rotationLinkDomain, prevIdk.toList, newIdk.toList, newIk.toList]

def verify (body : KeyRotation) : Except IdentityError Unit := do
  let newIdk ← (SignPublic.fromBytes S body.newIdk).mapError fun _ => .badSignature
  let prevIdk ← (SignPublic.fromBytes S body.prevIdk).mapError fun _ => .badSignature
  (newIdk.verify body.newIk.toList body.newIkSig).mapError fun _ => .badSignature
  (prevIdk.verify (linkChallenge S body.prevIdk body.newIdk body.newIk).toList
    body.linkSig).mapError fun _ => .badSignature

def encode (body : KeyRotation) : Bytes :=
  Writer.fixed body.prevIdk ++ Writer.fixed body.newIdk ++ Writer.fixed body.newIk ++
    Writer.fixed body.newIkSig ++ Writer.fixed body.linkSig

def read : Reader KeyRotation := do
  let prevIdk ← Reader.fixed 32
  let newIdk ← Reader.fixed 32
  let newIk ← Reader.fixed 32
  let newIkSig ← Reader.fixed 64
  let linkSig ← Reader.fixed 64
  return { prevIdk, newIdk, newIk, newIkSig, linkSig }

def decode (bytes : Bytes) : Except IdentityError KeyRotation :=
  (Reader.decodeAll read bytes).mapError .wire

/-- The previous key endorsed the new keys. -/
theorem link_of_verify {S : Suite} {body : KeyRotation} (hok : body.verify S = .ok ()) :
    Verifies S body.prevIdk (linkChallenge S body.prevIdk body.newIdk body.newIk).toList
      body.linkSig := by
  simp only [verify, Except.bind_eq_ok, Except.mapError_eq_ok] at hok
  obtain ⟨newIdk, -, prevIdk, hprev, _, -, hlink⟩ := hok
  exact verifies_of_ok hprev hlink

end KeyRotation

inductive RevokeReason where
  | unspecified
  | compromised
  | superseded
  | retired
  deriving DecidableEq, Repr

namespace RevokeReason

def asU8 : RevokeReason → UInt8
  | .unspecified => 0
  | .compromised => 1
  | .superseded => 2
  | .retired => 3

/-- Unknown values map to `unspecified`. -/
def fromU8 (v : UInt8) : RevokeReason :=
  match v with
  | 1 => .compromised
  | 2 => .superseded
  | 3 => .retired
  | _ => .unspecified

end RevokeReason

structure IdentityRevoke where
  revokedIdk : Key
  reason : RevokeReason
  deriving DecidableEq

namespace IdentityRevoke

/-- Nothing beyond a well-formed key; the envelope's signature authorises. -/
def verify (body : IdentityRevoke) : Except IdentityError Unit := do
  let _ ← (SignPublic.fromBytes S body.revokedIdk).mapError fun _ => .badSignature
  return ()

def encode (body : IdentityRevoke) : Bytes :=
  Writer.fixed body.revokedIdk ++ Writer.u8 body.reason.asU8

def read : Reader IdentityRevoke := do
  let revokedIdk ← Reader.fixed 32
  let reason := RevokeReason.fromU8 (← Reader.u8)
  return { revokedIdk, reason }

def decode (bytes : Bytes) : Except IdentityError IdentityRevoke :=
  (Reader.decodeAll read bytes).mapError .wire

end IdentityRevoke

structure IdentityProfile where
  avatarHash : Option Hash
  status : Option String
  deriving DecidableEq

namespace IdentityProfile

def encode (body : IdentityProfile) : Bytes :=
  (match body.avatarHash with
    | some h => Writer.bool true ++ Writer.fixed h
    | none => Writer.bool false) ++
  match body.status with
  | some s => Writer.string s
  | none => []

def readAvatar : Reader (Option Hash) := do
  if ← Reader.bool then
    return some (← Reader.fixed 32)
  else
    return none

/-- The status is there if bytes are left. -/
def readStatus : Reader (Option String) := do
  if (← Reader.remaining) > 0 then
    return some (← Reader.string)
  else
    return none

def read : Reader IdentityProfile := do
  let avatarHash ← readAvatar
  let status ← readStatus
  return { avatarHash, status }

/-- A bad status is reported before trailing bytes are. -/
def decode (bytes : Bytes) : Except IdentityError IdentityProfile := do
  let (body, rest) ← (read.run bytes).mapError .wire
  if body.status.any fun s => !validStatus s then
    throw .badStatus
  if rest.length ≠ 0 then
    throw (.wire (.trailing rest.length))
  return body

end IdentityProfile

inductive IdentityRecord where
  | announce (body : IdentityAnnounce)
  | liveness (body : LivenessProof)
  | keyRotation (body : KeyRotation)
  | revoke (body : IdentityRevoke)
  | profile (body : IdentityProfile)

def IdentityRecord.fromRecord (record : Record) : Except IdentityError IdentityRecord :=
  match record.kind with
  | .identityAnnounce => return .announce (← IdentityAnnounce.decode record.body)
  | .livenessProof => return .liveness (← LivenessProof.decode record.body)
  | .keyRotation => return .keyRotation (← KeyRotation.decode record.body)
  | .identityRevoke => return .revoke (← IdentityRevoke.decode record.body)
  | .identityProfile => return .profile (← IdentityProfile.decode record.body)
  | _ => throw .wrongRecordKind

end Dante.Identity
