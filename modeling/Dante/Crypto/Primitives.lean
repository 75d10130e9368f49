import Dante.Crypto.Hash

/-!
The primitives of third-party crates that the direct-message session uses, as
one record of functions, and the thin wrappers of `dante-crypto` around them.
-/

namespace Dante.Crypto

inductive CryptoError where
  | invalidKey
  | badSignature
  | aeadFailure
  | degenerateAgreement
  | kdf
  | argon2 (reason : String)
  | powUnmetDifficulty
  deriving DecidableEq, Repr

/-- HMAC, HKDF, X25519 and XChaCha20-Poly1305. `expand` is total: the lengths that
are asked for are far below the limit of `255 * 32` bytes. -/
structure Primitives where
  hmacSha256 : Bytes → Bytes → Key
  extract : Bytes → Bytes → Key
  expand : Key → Bytes → (n : Nat) → ByteArr n
  /-- The public key of a secret scalar. -/
  x25519Public : Key → Key
  /-- A secret scalar times a public key. -/
  x25519 : Key → Key → Key
  /-- Key, nonce, plaintext and associated data. -/
  xchachaSeal : Key → ByteArr 24 → Bytes → Bytes → Bytes
  /-- Key, nonce, ciphertext and associated data; `none` is an authentication
  failure. -/
  xchachaOpen : Key → ByteArr 24 → Bytes → Bytes → Option Bytes

variable (P : Primitives)

/-- `AgreeSecret::agree`: refuses the all-zero output of a low-order point. -/
def agree (secret theirPublic : Key) : Except CryptoError Key :=
  let shared := P.x25519 secret theirPublic
  if shared = .fill 32 0 then .error .degenerateAgreement else .ok shared

/-- What the session relies on between two honest parties: Diffie-Hellman is
commutative, never degenerate for a key pair's own public key, and opening
inverts sealing. -/
structure Honest : Prop where
  agree_comm : ∀ a b, P.x25519 a (P.x25519Public b) = P.x25519 b (P.x25519Public a)
  agree_ne_zero : ∀ a b, P.x25519 a (P.x25519Public b) ≠ .fill 32 0
  open_seal : ∀ key nonce plaintext aad,
    P.xchachaOpen key nonce (P.xchachaSeal key nonce plaintext aad) aad = some plaintext

variable {P}

theorem Honest.agree_eq (hP : Honest P) (a b : Key) :
    agree P a (P.x25519Public b) = .ok (P.x25519 a (P.x25519Public b)) := by
  simp [agree, hP.agree_ne_zero a b]

/-- The sum of the two keys, made odd. -/
def sampleAgree (secret theirPublic : Key) : Key :=
  ⟨BigEndian.encode 32
      (2 * (BigEndian.decode secret.toList + BigEndian.decode theirPublic.toList) + 1),
    BigEndian.encode_length 32 _⟩

def sampleTag (key : Key) (nonce : ByteArr 24) (plaintext aad : Bytes) : Key :=
  polynomialHash (key.toList ++ nonce.toList ++ aad ++ plaintext)

def samplePrimitives : Primitives where
  hmacSha256 key msg := polynomialHash (key ++ msg)
  extract salt ikm := polynomialHash (salt ++ ikm)
  expand prk info n :=
    ⟨BigEndian.encode n (BigEndian.decode (prk.toList ++ info)), BigEndian.encode_length n _⟩
  x25519Public secret := secret
  x25519 := sampleAgree
  xchachaSeal key nonce plaintext aad := plaintext ++ (sampleTag key nonce plaintext aad).toList
  xchachaOpen key nonce ct aad :=
    let plaintext := ct.take (ct.length - 32)
    if ct = plaintext ++ (sampleTag key nonce plaintext aad).toList then some plaintext else none

theorem sampleAgree_ne_zero (a b : Key) : sampleAgree a b ≠ .fill 32 0 := by
  intro heq
  have hbytes := congrArg (fun key : Key => BigEndian.decode key.toList) heq
  have hzero : BigEndian.decode (ByteArr.fill 32 0).toList = 0 := by decide
  simp only [sampleAgree, hzero, List.Vector.toList_mk] at hbytes
  rw [BigEndian.decode_encode] at hbytes
  -- an odd number is not divisible by a power of 256
  omega

theorem samplePrimitives_honest : Honest samplePrimitives where
  agree_comm a b := by
    apply ByteArr.toList_injective
    simp only [samplePrimitives, sampleAgree, List.Vector.toList_mk]
    rw [Nat.add_comm (BigEndian.decode a.toList)]
  agree_ne_zero a b := sampleAgree_ne_zero a b
  open_seal key nonce plaintext aad := by
    simp [samplePrimitives]

end Dante.Crypto
