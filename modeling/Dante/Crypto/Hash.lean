import Dante.Bytes

/-!
SHA-256 is an external crate, so it is a function parameter. What the proofs
use of it is collision freedom on the inputs that are really hashed: on all
byte strings no function into 32 bytes is injective.
-/

namespace Dante.Crypto

variable (sha256 : Bytes → Hash)

/-- `sha256_parts`: feeding the parts one after the other hashes their
concatenation. -/
def sha256Parts (parts : List Bytes) : Hash := sha256 parts.flatten

/-- No two different inputs of the list have one hash. -/
def CollisionFree (inputs : List Bytes) : Prop :=
  ∀ x ∈ inputs, ∀ y ∈ inputs, sha256 x = sha256 y → x = y

instance (inputs : List Bytes) : Decidable (CollisionFree sha256 inputs) :=
  inferInstanceAs (Decidable (∀ x ∈ inputs, ∀ y ∈ inputs, sha256 x = sha256 y → x = y))

theorem CollisionFree.subset {small large : List Bytes} (hfree : CollisionFree sha256 large)
    (hsub : ∀ x ∈ small, x ∈ large) : CollisionFree sha256 small :=
  fun x hx y hy heq => hfree x (hsub x hx) y (hsub y hy) heq

/-- A computable stand-in for SHA-256, to evaluate the model on concrete inputs:
the bytes are the digits of a number to base 257. -/
def polynomialHash (input : Bytes) : Hash :=
  ⟨BigEndian.encode 32 (input.foldl (fun acc byte => acc * 257 + byte.toNat + 1) 0),
    BigEndian.encode_length 32 _⟩

end Dante.Crypto
