import Dante.Crypto.Suite

/-!
An identity in memory: an Ed25519 key that signs and an X25519 key for key agreement.
The signing key pair is one whose signatures verify, so the proof is a field.
-/

namespace Dante

open Crypto

structure Identity (S : Suite) where
  /-- The public Ed25519 identity key. -/
  idk : Key
  sign : Bytes → Signature
  /-- The secret X25519 agreement key. -/
  ik : Key
  sign_verifies : ∀ msg, Verifies S idk msg (sign msg)

variable {S : Suite}

/-- `IdentityId::of` on the identity key. -/
def Identity.id (identity : Identity S) : Hash := S.sha256 identity.idk.toList

def Identity.agreePublic (P : Primitives) (identity : Identity S) : Key :=
  P.x25519Public identity.ik

def sampleIdentity (idk ik : Key) : Identity sampleSuite where
  idk := idk
  sign := sampleSign idk
  ik := ik
  sign_verifies := sampleSign_verifies idk

end Dante
