import Dante.Crypto.Primitives

/-!
What record validation calls in third-party crates: SHA-256, Ed25519 and
Argon2id. They are the fields of one record, and a public key carries the
proof that it parsed.
-/

namespace Dante.Crypto

structure Suite where
  sha256 : Bytes → Hash
  /-- Whether `VerifyingKey::from_bytes` accepts the bytes. -/
  validKey : Key → Bool
  /-- `VerifyingKey::verify_strict` on a key, a message and a signature. -/
  verifyStrict : Key → Bytes → Signature → Bool
  /-- Password, salt, memory cost in KiB, time cost and lanes. -/
  argon2id : Bytes → Bytes → UInt32 → UInt32 → UInt32 → Except CryptoError Hash

variable (S : Suite)

/-- An Ed25519 public key. A parsed key keeps the bytes it was parsed from. -/
structure SignPublic where
  toBytes : Key
  valid : S.validKey toBytes = true

variable {S}

namespace SignPublic

def fromBytes (S : Suite) (bytes : Key) : Except CryptoError (SignPublic S) :=
  if h : S.validKey bytes = true then .ok ⟨bytes, h⟩ else .error .invalidKey

def verify (key : SignPublic S) (msg : Bytes) (sig : Signature) : Except CryptoError Unit :=
  if S.verifyStrict key.toBytes msg sig then .ok () else .error .badSignature

theorem fromBytes_eq_ok {bytes : Key} {key : SignPublic S} :
    fromBytes S bytes = .ok key ↔ key.toBytes = bytes := by
  unfold fromBytes
  split
  · rename_i hvalid
    constructor
    · intro heq
      cases heq
      rfl
    · rintro rfl
      rfl
  · rename_i hinvalid
    constructor
    · intro heq
      cases heq
    · rintro rfl
      exact absurd key.valid hinvalid

theorem verify_eq_ok {key : SignPublic S} {msg : Bytes} {sig : Signature} :
    key.verify msg sig = .ok () ↔ S.verifyStrict key.toBytes msg sig = true := by
  unfold verify
  split <;> simp_all

end SignPublic

/-- The signature `sig` of the key `key` over `msg` passes both the parsing of the
key and the strict check. -/
def Verifies (S : Suite) (key : Key) (msg : Bytes) (sig : Signature) : Prop :=
  S.validKey key = true ∧ S.verifyStrict key msg sig = true

instance (key : Key) (msg : Bytes) (sig : Signature) : Decidable (Verifies S key msg sig) :=
  inferInstanceAs (Decidable (_ ∧ _))

/-- A key that parses and a check that passes, as the callers chain them. -/
theorem verifies_of_ok {bytes : Key} {key : SignPublic S} {msg : Bytes} {sig : Signature}
    (hkey : SignPublic.fromBytes S bytes = .ok key) (hsig : key.verify msg sig = .ok ()) :
    Verifies S bytes msg sig := by
  rw [SignPublic.fromBytes_eq_ok] at hkey
  rw [SignPublic.verify_eq_ok] at hsig
  subst hkey
  exact ⟨key.valid, hsig⟩

/-- An Ed25519 secret key, as far as it is used: the public key and the signatures. What it
signs verifies, so the proof is a field. -/
structure SignSecret (S : Suite) where
  publicBytes : Key
  sign : Bytes → Signature
  sign_verifies : ∀ msg, Verifies S publicBytes msg (sign msg)

/-- A checksum of key and message in place of a signature. -/
def sampleSign (key : Key) (msg : Bytes) : Signature :=
  .ofList (BigEndian.encode 64 (BigEndian.decode (polynomialHash (key.toList ++ msg)).toList))
    (BigEndian.encode_length 64 _)

/-- Every key parses, and every digest is zero, so that every difficulty is met. -/
def sampleSuite : Suite where
  sha256 := polynomialHash
  validKey _ := true
  verifyStrict key msg sig := decide (sig = sampleSign key msg)
  argon2id _ _ _ _ _ := .ok (.fill 32 0)

theorem sampleSign_verifies (key : Key) (msg : Bytes) :
    Verifies sampleSuite key msg (sampleSign key msg) := by
  simp [Verifies, sampleSuite]

def sampleSecret (key : Key) : SignSecret sampleSuite where
  publicBytes := key
  sign := sampleSign key
  sign_verifies := sampleSign_verifies key

end Dante.Crypto
