import Dante.Net.Mailbox
import Dante.Proto.Sealed

/-!
What a relay sees of a sealed envelope. The payload is padded to the size of a bucket before it is
encrypted, so two payloads of one bucket that go to one recipient at one time differ in ciphertext
only.
-/

namespace Dante.Net

open Crypto Enc Except

/-- What sealing relies on: Diffie-Hellman is commutative, opening inverts sealing, and a
ciphertext is its plaintext and a tag of a fixed length (16 bytes for Poly1305). -/
structure Sealing (P : Primitives) (tagLen : Nat) : Prop where
  agree_comm : ∀ a b, P.x25519 a (P.x25519Public b) = P.x25519 b (P.x25519Public a)
  open_seal : ∀ key nonce plaintext aad,
    P.xchachaOpen key nonce (P.xchachaSeal key nonce plaintext aad) aad = some plaintext
  length_seal : ∀ key nonce plaintext aad,
    (P.xchachaSeal key nonce plaintext aad).length = plaintext.length + tagLen

/-- The bucket of an inner payload. The sender's key and signature and the length of the
payload are padded with it. -/
def sealedBucket (inner : Bytes) : Option (UInt16 × Nat) := bucketFor (inner.length + 100)

section Sizes

variable {P : Primitives} {S : Suite} {tagLen : Nat}

/-- Everything about an envelope that does not depend on the ciphertext itself. -/
theorem shape_of_sealWith (hP : Sealing P tagLen) {recipientId : Hash} {ikPub senderIdk eph : Key}
    {inner : Bytes} {depositedMs : UInt64} {ttlMs : UInt32} {sign : Bytes → Signature}
    {env : Envelope}
    (hseal : Envelope.sealWith P S recipientId ikPub senderIdk inner depositedMs ttlMs sign eph =
      .ok env) :
    ∃ sizeClass bucket, sealedBucket inner = some (sizeClass, bucket) ∧
      env.payload.length = 32 + bucket + tagLen ∧
      env = { v := envelopeVersion, recipientHint := recipientHint S recipientId depositedMs
              payload := env.payload, sizeClass := sizeClass, depositedMs := depositedMs
              ttlMs := ttlMs } := by
  simp only [Envelope.sealWith, Envelope.sealContent, bind_eq_ok, okOr_eq_ok, pure_eq_ok] at hseal
  obtain ⟨⟨sizeClass, bucket⟩, hbucket, shared, hshared, rfl⟩ := hseal
  have hfits := (bucketFor_eq_some hbucket).1
  rw [SealedContent.length_encode] at hbucket
  refine ⟨sizeClass, bucket, hbucket, ?_, rfl⟩
  simp only [List.length_append, ByteArr.length_toList, hP.length_seal, length_pad hfits]
  omega

theorem envSize_of_sealWith (hP : Sealing P tagLen) (htag : tagLen ≤ 196) {recipientId : Hash}
    {ikPub senderIdk eph : Key} {inner : Bytes} {depositedMs : UInt64} {ttlMs : UInt32}
    {sign : Bytes → Signature} {env : Envelope}
    (hseal : Envelope.sealWith P S recipientId ikPub senderIdk inner depositedMs ttlMs sign eph =
      .ok env) :
    envSize env ≤ maxEnvelopeBytes := by
  obtain ⟨sizeClass, bucket, hbucket, hlength, -⟩ := shape_of_sealWith hP hseal
  have hmax := (bucketFor_eq_some hbucket).2
  rw [envSize, hlength, maxEnvelopeBytes]
  omega

end Sizes

/-- Whatever is sealed for a recipient opens with its key, to the sender and the payload, and
fits the mailbox; and the envelopes of two payloads of one bucket, sealed to one recipient with
one time and lifetime, are equally long and differ in their payload field at most. The slack of
the mailbox's limit covers a tag of up to 196 bytes. -/
theorem sealed_opens_and_hides_length (P : Primitives) (S : Suite) (tagLen : Nat)
    (hP : Sealing P tagLen) (htag : tagLen ≤ 196) (recipientId : Hash) (ik : Key)
    (depositedMs : UInt64) (ttlMs : UInt32) (sender : Identity S) (inner : Bytes) (eph : Key)
    (env : Envelope)
    (hseal : Envelope.sealWith P S recipientId (P.x25519Public ik) sender.idk inner depositedMs
      ttlMs sender.sign eph = .ok env) :
    (∃ content, env.openSealed P S ik = .ok content ∧ content.senderIdk = sender.idk ∧
        content.inner = inner) ∧
      envSize env ≤ maxEnvelopeBytes ∧
      ∀ (sender' : Identity S) (inner' : Bytes) (eph' : Key) (env' : Envelope),
        sealedBucket inner' = sealedBucket inner →
        Envelope.sealWith P S recipientId (P.x25519Public ik) sender'.idk inner' depositedMs ttlMs
          sender'.sign eph' = .ok env' →
        env'.encode.length = env.encode.length ∧ { env' with payload := env.payload } = env := by
  refine ⟨?_, envSize_of_sealWith hP htag hseal, ?_⟩
  · apply Envelope.openSealed_of_decryptContent sender hseal
    exact Envelope.decryptContent_of_sealContent hP.agree_comm hP.open_seal hseal
  · intro sender' inner' eph' env' hsame hseal'
    obtain ⟨sizeClass, bucket, hbucket, hlength, henv⟩ := shape_of_sealWith hP hseal
    obtain ⟨sizeClass', bucket', hbucket', hlength', henv'⟩ := shape_of_sealWith hP hseal'
    rw [hsame, hbucket] at hbucket'
    cases hbucket'
    refine ⟨?_, ?_⟩
    · simp only [Envelope.encode, List.length_append, Writer.length_u16, Writer.length_fixed,
        Writer.length_bytes, Writer.length_u64, Writer.length_u32, hlength, hlength']
    · rw [henv']
      exact henv.symm

theorem samplePrimitives_sealing : Sealing samplePrimitives 32 where
  agree_comm := samplePrimitives_honest.agree_comm
  open_seal := samplePrimitives_honest.open_seal
  length_seal key nonce plaintext aad := by
    simp [samplePrimitives, (sampleTag key nonce plaintext aad).length_toList]

/-- Two payloads of the smallest bucket. -/
theorem sealed_opens_and_hides_length_sample :
    let sender := sampleIdentity (.fill 32 1) (.fill 32 11)
    let sealed (inner : Bytes) := Envelope.sealWith samplePrimitives sampleSuite (.fill 32 2)
      (samplePrimitives.x25519Public (.fill 32 3)) sender.idk inner 1000 60000 sender.sign
      (.fill 32 4)
    ∃ env ∈ (sealed [1]).toOption, ∃ env' ∈ (sealed [1, 2, 3]).toOption,
      envSize env ≤ maxEnvelopeBytes ∧ env'.encode.length = env.encode.length := by
  intro sender sealed
  have hsealed : ∃ env ∈ (sealed [1]).toOption, ∃ env' ∈ (sealed [1, 2, 3]).toOption, True := by
    decide +kernel
  obtain ⟨env, henv, env', henv', -⟩ := hsealed
  obtain ⟨-, hsize, hsame⟩ := sealed_opens_and_hides_length samplePrimitives sampleSuite 32
    samplePrimitives_sealing (by decide) (.fill 32 2) (.fill 32 3) 1000 60000 sender [1]
    (.fill 32 4) env (toOption_eq_some.mp henv)
  exact ⟨env, henv, env', henv', hsize,
    (hsame sender [1, 2, 3] (.fill 32 4) env' rfl (toOption_eq_some.mp henv')).1⟩

end Dante.Net
