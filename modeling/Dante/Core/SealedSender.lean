import Dante.Core.Messenger

/-!
Who an envelope was meant for. The signature inside an envelope covers the hint of its header; but
nothing compares that hint with the hint of the identity that opens the envelope. So whoever can
open a signed content can encrypt it again, under the old hint, to somebody else.
-/

namespace Dante.Core

open Crypto Dm Net

variable {P : Primitives} {S : Suite}

/-- Signatures are unforgeable: what verifies under a key, its owner has signed. -/
def Unforgeable (S : Suite) (signed : Key → Bytes → Prop) : Prop :=
  ∀ key msg sig, Verifies S key msg sig → signed key msg

/-- What opening an envelope establishes about the sender. -/
theorem Client.openEnvelope_eq_ok {client : Client S} {env : Envelope} {sender : Key}
    {packet : Packet} :
    client.openEnvelope P env = .ok (sender, packet) ↔
      ∃ sealed, env.openSealed P S client.identity.ik = .ok sealed ∧ sealed.senderIdk = sender ∧
        Packet.decode sealed.inner = .ok packet ∧ idkToId S sender ∉ client.blocked := by
  simp only [openEnvelope, Except.bind_eq_ok, Except.mapError_eq_ok, Except.refuseIf_eq_ok,
    Except.pure_eq_ok, Prod.mk.injEq]
  constructor
  · rintro ⟨sealed, hsealed, packet', hpacket, _, hallowed, rfl, rfl⟩
    exact ⟨sealed, hsealed, rfl, hpacket, hallowed⟩
  · rintro ⟨sealed, hsealed, rfl, hpacket, hallowed⟩
    exact ⟨sealed, hsealed, packet, hpacket, (), hallowed, rfl, rfl⟩

theorem Client.openEnvelope_sealWith (hP : Honest P) {client peer : Client S} {packet : Packet}
    {nowMs : UInt64} {ttlMs : UInt32} {eph : Key} {env : Envelope}
    (hunblocked : idkToId S client.identity.idk ∉ peer.blocked)
    (hseal : Envelope.sealWith P S peer.identity.id (peer.identity.agreePublic P)
      client.identity.idk packet.encode nowMs ttlMs client.identity.sign eph = .ok env) :
    peer.openEnvelope P env = .ok (client.identity.idk, packet) := by
  have hlen : packet.encode.length < 2 ^ 32 := Envelope.inner_length_of_sealContent hseal
  obtain ⟨content, hopen, hsender, hinner⟩ := Envelope.openSealed_sealWith hP _ hseal
  refine Client.openEnvelope_eq_ok.mpr ⟨content, hopen, hsender, ?_, hunblocked⟩
  rw [hinner]
  exact Packet.decode_encode hlen

/-- The envelope carries the client's own hint of the day of the deposit, and the sender signed
the payload inside for that hint. -/
def SignedFor (P : Primitives) (signed : Key → Bytes → Prop) (client : Client S) (env : Envelope)
    (sender : Key) : Prop :=
  env.recipientHint = recipientHint S client.identity.id env.depositedMs ∧
    ∃ content, env.openSealed P S client.identity.ik = .ok content ∧ content.senderIdk = sender ∧
      signed sender (SealedContent.sigChallenge S
        (recipientHint S client.identity.id env.depositedMs) content.inner).toList

def sampleClient (idk ik : Key) : Client sampleSuite where
  identity := sampleIdentity idk ik
  prekeys := { spk := .fill 32 50, otps := [] }
  sessions := ∅
  blocked := ∅
  seen := .new

def samplePacket : Packet :=
  .message { header := { dh := .fill 32 9, pn := 0, n := 0 }, ciphertext := [1, 2, 3] }

/-- The result of a sealing that succeeds. -/
def sealedOr (result : Except CryptoError Envelope) : Envelope :=
  result.toOption.getD
    { v := 0, recipientHint := .fill 8 0, payload := [], sizeClass := 0, depositedMs := 0,
      ttlMs := 0 }

/-- The sender with key `1` seals a packet for the identity with key `2`. -/
def sealedForSecond : Envelope :=
  let sender := sampleIdentity (.fill 32 1) (.fill 32 11)
  let recipient := sampleIdentity (.fill 32 2) (.fill 32 12)
  sealedOr (Envelope.sealWith samplePrimitives sampleSuite recipient.id
    (recipient.agreePublic samplePrimitives) sender.idk samplePacket.encode (10 * epochMs) 1000
    sender.sign (.fill 32 60))

/-- The identity with key `2` opens it and encrypts the content, under the same header, to the
identity with key `3`. -/
def resealedForThird : Envelope :=
  let third := sampleIdentity (.fill 32 3) (.fill 32 13)
  sealedOr do
    let content ← sealedForSecond.openSealed samplePrimitives sampleSuite (.fill 32 12)
    Envelope.sealContent samplePrimitives (third.agreePublic samplePrimitives) content
      sealedForSecond.recipientHint sealedForSecond.depositedMs sealedForSecond.ttlMs (.fill 32 61)

end Dante.Core
