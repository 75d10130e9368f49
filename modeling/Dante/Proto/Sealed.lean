import Dante.Identity.Identity
import Dante.Library.Method
import Dante.Proto.Envelope

/-!
The sealed-sender payload of an envelope. The sender signs the inner payload together
with the recipient's hint, and the whole is padded and encrypted to the recipient's
long-term key under an ephemeral one. The header is associated data of the encryption.
-/

namespace Dante

open Crypto Enc Except

def envelopeVersion : UInt16 := 1

def sealKdfInfo : Bytes := "dante/sealed-sender/v1".toUTF8.toList

def contentSigDomain : Bytes := "dante/sealed-sender-content/v1".toUTF8.toList

def sizeBuckets : List Nat := [256, 1024, 4096, 16384, 65536, 262144, 1048576]

structure SealedContent where
  senderIdk : Key
  senderSig : Signature
  inner : Bytes
  deriving DecidableEq

namespace SealedContent

/-- What the sender signs. -/
def sigChallenge (S : Suite) (hint : Hint) (inner : Bytes) : Hash :=
  sha256Parts S.sha256 [contentSigDomain, hint.toList, inner]

def encode (content : SealedContent) : Bytes :=
  Writer.fixed content.senderIdk ++ Writer.fixed content.senderSig ++ Writer.bytes content.inner

theorem length_encode (content : SealedContent) :
    content.encode.length = content.inner.length + 100 := by
  simp only [encode, List.length_append, Writer.length_fixed, Writer.length_bytes]
  omega

theorem inner_length_le (content : SealedContent) :
    content.inner.length ≤ content.encode.length := by
  rw [length_encode]
  omega

def read : Reader SealedContent := do
  let senderIdk ← Reader.fixed 32
  let senderSig ← Reader.fixed 64
  let inner ← Reader.bytes
  return { senderIdk := senderIdk, senderSig := senderSig, inner := inner }

def decode (input : Bytes) : Except WireError SealedContent := Reader.decodeAll read input

theorem decode_encode {content : SealedContent} (hlen : content.inner.length < 2 ^ 32) :
    decode content.encode = .ok content := by
  apply Reader.decodeAll_of_reads
  rw [encode, List.append_assoc, ← List.append_nil (Writer.bytes _)]
  exact (Reader.reads_fixed _).bind <| (Reader.reads_fixed _).bind <|
    (Reader.reads_bytes hlen).bind <| .pure _

end SealedContent

/-- The first size that holds the plaintext with its length, and its place in the table. -/
def bucketFor (len : Nat) : Option (UInt16 × Nat) := do
  let i ← sizeBuckets.findIdx? fun bucket => len + 4 ≤ bucket
  let bucket ← sizeBuckets[i]?
  return (UInt16.ofNat i, bucket)

/-- The length, the plaintext, and zeros up to the size of the bucket. -/
def pad (plain : Bytes) (bucket : Nat) : Bytes :=
  let framed := Writer.u32 (UInt32.ofNat plain.length) ++ plain
  framed ++ List.replicate (bucket - framed.length) 0

def unpad (padded : Bytes) : Except CryptoError Bytes := do
  refuseIf (padded.length < 4) .aeadFailure
  let realLen := BigEndian.decode (padded.take 4)
  refuseIf (4 + realLen > padded.length) .aeadFailure
  return (padded.drop 4).take realLen

def headerAad (v : UInt16) (hint : Hint) (sizeClass : UInt16) (depositedMs : UInt64)
    (ttlMs : UInt32) : Bytes :=
  Writer.u16 v ++ Writer.fixed hint ++ Writer.u16 sizeClass ++ Writer.u64 depositedMs ++
    Writer.u32 ttlMs

/-- The ephemeral key in front of a payload, and the ciphertext. -/
def splitPayload (payload : Bytes) : Except CryptoError (Key × Bytes) :=
  if h : payload.length < 32 then
    .error .aeadFailure
  else
    .ok (.ofList (payload.take 32) (by rw [List.length_take]; omega), payload.drop 32)

section Seal

variable (P : Primitives) (S : Suite)

def deriveSeal (shared ephPub recipientIkPub : Key) : Key × ByteArr 24 :=
  let prk := P.extract (ephPub.toList ++ recipientIkPub.toList) shared.toList
  let key := P.expand prk (sealKdfInfo ++ "/key".toUTF8.toList) 32
  let nonce := P.expand prk (sealKdfInfo ++ "/nonce".toUTF8.toList) 24
  (key, nonce)

namespace Envelope

/-- The part of `seal_with` after the signature: pad and encrypt the content under the
header with this hint. `eph` is what `AgreeSecret::generate` returns. -/
def sealContent (recipientIkPub : Key) (content : SealedContent) (hint : Hint)
    (depositedMs : UInt64) (ttlMs : UInt32) (eph : Key) : Except CryptoError Envelope := do
  let plain := content.encode
  let (sizeClass, bucket) ← okOr (bucketFor plain.length) .invalidKey
  let ephPub := P.x25519Public eph
  let shared ← agree P eph recipientIkPub
  let (key, nonce) := deriveSeal P shared ephPub recipientIkPub
  let aad := headerAad envelopeVersion hint sizeClass depositedMs ttlMs
  let ct := P.xchachaSeal key nonce (pad plain bucket) aad
  return { v := envelopeVersion, recipientHint := hint, payload := ephPub.toList ++ ct,
           sizeClass := sizeClass, depositedMs := depositedMs, ttlMs := ttlMs }

def sealWith (recipientId : Hash) (recipientIkPub senderIdkPub : Key) (inner : Bytes)
    (depositedMs : UInt64) (ttlMs : UInt32) (sign : Bytes → Signature) (eph : Key) :
    Except CryptoError Envelope :=
  let hint := Dante.recipientHint S recipientId depositedMs
  let content : SealedContent :=
    { senderIdk := senderIdkPub
      senderSig := sign (SealedContent.sigChallenge S hint inner).toList
      inner := inner }
  sealContent P recipientIkPub content hint depositedMs ttlMs eph

/-- The content of a payload, before the check of its signature. -/
def decryptContent (env : Envelope) (recipientIk : Key) : Except CryptoError SealedContent := do
  refuseIf (env.v ≠ envelopeVersion) .aeadFailure
  let (ephPub, ct) ← splitPayload env.payload
  let shared ← agree P recipientIk ephPub
  let (key, nonce) := deriveSeal P shared ephPub (P.x25519Public recipientIk)
  let aad := headerAad env.v env.recipientHint env.sizeClass env.depositedMs env.ttlMs
  let padded ← okOr (P.xchachaOpen key nonce ct aad) .aeadFailure
  let plain ← unpad padded
  (SealedContent.decode plain).mapError fun _ => .aeadFailure

/-- The method `open`. -/
def openSealed (env : Envelope) (recipientIk : Key) : Except CryptoError SealedContent := do
  let content ← env.decryptContent P recipientIk
  let signer ← SignPublic.fromBytes S content.senderIdk
  signer.verify (SealedContent.sigChallenge S env.recipientHint content.inner).toList
    content.senderSig
  return content

end Envelope

end Seal

theorem bucketFor_eq_some {len bucket : Nat} {sizeClass : UInt16}
    (h : bucketFor len = some (sizeClass, bucket)) : len + 4 ≤ bucket ∧ bucket ≤ 1048576 := by
  rw [bucketFor, Option.bind_eq_bind, Option.bind_eq_some_iff] at h
  obtain ⟨i, hi, h⟩ := h
  rw [Option.bind_eq_some_iff] at h
  obtain ⟨found, hfound, h⟩ := h
  cases h
  obtain ⟨hlt, hfits, -⟩ := List.findIdx?_eq_some_iff_getElem.mp hi
  obtain ⟨-, rfl⟩ := List.getElem?_eq_some_iff.mp hfound
  refine ⟨of_decide_eq_true hfits, ?_⟩
  have hall : ∀ bucket ∈ sizeBuckets, bucket ≤ 1048576 := by decide
  exact hall _ (List.getElem_mem hlt)

theorem length_pad {plain : Bytes} {bucket : Nat} (hfits : plain.length + 4 ≤ bucket) :
    (pad plain bucket).length = bucket := by
  simp only [pad, List.length_append, List.length_replicate, Writer.length_u32]
  omega

theorem unpad_pad {plain : Bytes} {bucket : Nat} (hfits : plain.length + 4 ≤ bucket)
    (hlen : plain.length < 2 ^ 32) : unpad (pad plain bucket) = .ok plain := by
  have hword : (Writer.u32 (UInt32.ofNat plain.length)).length = 4 := Writer.length_u32 _
  have hfront : (pad plain bucket).take 4 = Writer.u32 (UInt32.ofNat plain.length) := by
    rw [pad, List.append_assoc, ← hword]
    exact List.take_left
  have hback : (pad plain bucket).drop 4 =
      plain ++ List.replicate (bucket - (4 + plain.length)) 0 := by
    rw [pad, List.append_assoc, List.length_append, hword]
    nth_rewrite 1 [← hword]
    exact List.drop_left
  have hreal : BigEndian.decode (Writer.u32 (UInt32.ofNat plain.length)) = plain.length := by
    rw [Writer.u32, BigEndian.decode_encode_of_lt (UInt32.toNat_lt _), UInt32.toNat_ofNat']
    exact Nat.mod_eq_of_lt hlen
  simp only [unpad, bind_eq_ok, refuseIf_eq_ok, pure_eq_ok, hfront, hreal, hback, length_pad hfits]
  exact ⟨(), by omega, (), by omega, List.take_left⟩

namespace Envelope

variable {P : Primitives} {S : Suite}
variable {depositedMs : UInt64} {content : SealedContent} {env : Envelope} {ttlMs : UInt32}
    {hint : Hint}

theorem splitPayload_append (ephPub : Key) (ct : Bytes) :
    splitPayload (ephPub.toList ++ ct) = .ok (ephPub, ct) := by
  have hlen : ¬ (ephPub.toList ++ ct).length < 32 := by simp
  rw [splitPayload, dif_neg hlen]
  congr 2
  · apply ByteArr.toList_injective
    simp
  · simp

theorem header_of_sealContent {recipientIkPub eph : Key}
    (hseal : sealContent P recipientIkPub content hint depositedMs ttlMs eph = .ok env) :
    env.recipientHint = hint ∧ env.depositedMs = depositedMs ∧ env.ttlMs = ttlMs := by
  simp only [sealContent, bind_eq_ok, okOr_eq_ok, pure_eq_ok] at hseal
  obtain ⟨-, -, -, -, rfl⟩ := hseal
  exact ⟨rfl, rfl, rfl⟩

theorem inner_length_of_sealContent {recipientIkPub eph : Key}
    (hseal : sealContent P recipientIkPub content hint depositedMs ttlMs eph = .ok env) :
    content.inner.length < 2 ^ 32 := by
  simp only [sealContent, bind_eq_ok, okOr_eq_ok, pure_eq_ok] at hseal
  obtain ⟨⟨sizeClass, bucket⟩, hbucket, -⟩ := hseal
  obtain ⟨hfits, hmax⟩ := bucketFor_eq_some hbucket
  have hlen := content.inner_length_le
  omega

/-- The recipient decrypts what was encrypted to it, whoever sealed it and under whatever
hint. That the agreement is not degenerate for the recipient follows from its success for the
sender. -/
theorem decryptContent_of_sealContent
    (hcomm : ∀ a b, P.x25519 a (P.x25519Public b) = P.x25519 b (P.x25519Public a))
    (hopen : ∀ key nonce plaintext aad,
      P.xchachaOpen key nonce (P.xchachaSeal key nonce plaintext aad) aad = some plaintext)
    {ik eph : Key}
    (hseal : sealContent P (P.x25519Public ik) content hint depositedMs ttlMs eph = .ok env) :
    env.decryptContent P ik = .ok content := by
  simp only [sealContent, bind_eq_ok, okOr_eq_ok, pure_eq_ok] at hseal
  obtain ⟨⟨sizeClass, bucket⟩, hbucket, shared, hshared, rfl⟩ := hseal
  obtain ⟨hfits, hmax⟩ := bucketFor_eq_some hbucket
  have hlen := content.inner_length_le
  -- both sides agree on the shared secret, and so on the key
  rw [agree, hcomm] at hshared
  simp only [decryptContent, bind_eq_ok, refuseIf_eq_ok, okOr_eq_ok, mapError_eq_ok]
  refine ⟨(), not_not.mpr rfl, (P.x25519Public eph, _), splitPayload_append _ _, shared, hshared,
    pad content.encode bucket, hopen _ _ _ _, content.encode, ?_, ?_⟩
  · exact unpad_pad hfits (by omega)
  · exact SealedContent.decode_encode (by omega)

theorem decryptContent_sealContent (hP : Honest P) {ik eph : Key}
    (hseal : sealContent P (P.x25519Public ik) content hint depositedMs ttlMs eph = .ok env) :
    env.decryptContent P ik = .ok content :=
  decryptContent_of_sealContent hP.agree_comm hP.open_seal hseal

/-- What `open` accepts: a payload for this key with a signature of the sender it names. -/
theorem openSealed_eq_ok {ik : Key} :
    env.openSealed P S ik = .ok content ↔
      env.decryptContent P ik = .ok content ∧
        Verifies S content.senderIdk
          (SealedContent.sigChallenge S env.recipientHint content.inner).toList
          content.senderSig := by
  simp only [openSealed, bind_eq_ok, pure_eq_ok]
  constructor
  · rintro ⟨found, hfound, signer, hsigner, _, hverify, rfl⟩
    exact ⟨hfound, verifies_of_ok hsigner hverify⟩
  · rintro ⟨hfound, hvalid, hverify⟩
    exact ⟨content, hfound, ⟨content.senderIdk, hvalid⟩, SignPublic.fromBytes_eq_ok.mpr rfl, (),
      SignPublic.verify_eq_ok.mpr hverify, rfl⟩

theorem openSealed_of_decryptContent (sender : Identity S) {recipientId : Hash} {ikPub ik eph : Key}
    {inner : Bytes}
    (hseal : sealWith P S recipientId ikPub sender.idk inner depositedMs ttlMs sender.sign eph =
      .ok env)
    (hdecrypt : env.decryptContent P ik = .ok
      { senderIdk := sender.idk
        senderSig := sender.sign (SealedContent.sigChallenge S
          (Dante.recipientHint S recipientId depositedMs) inner).toList
        inner := inner }) :
    ∃ content, env.openSealed P S ik = .ok content ∧ content.senderIdk = sender.idk ∧
      content.inner = inner := by
  refine ⟨_, openSealed_eq_ok.mpr ⟨hdecrypt, ?_⟩, rfl, rfl⟩
  rw [(header_of_sealContent hseal).1]
  exact sender.sign_verifies _

theorem openSealed_sealWith (hP : Honest P) (sender : Identity S) {recipientId : Hash}
    {ik eph : Key} {inner : Bytes}
    (hseal : sealWith P S recipientId (P.x25519Public ik) sender.idk inner depositedMs ttlMs
      sender.sign eph = .ok env) :
    ∃ content, env.openSealed P S ik = .ok content ∧ content.senderIdk = sender.idk ∧
      content.inner = inner :=
  openSealed_of_decryptContent sender hseal (decryptContent_sealContent hP hseal)

end Envelope

end Dante
