import Dante.Dm.X3dh

/-!
A conversation: the handshake and the ratchet tied together, and the packets that
travel between the two sides. The first packet of a conversation carries the handshake
and the initiator's first message.
-/

namespace Dante.Dm

open Crypto Enc Except Method

def Header.read : Reader Header := do
  let dh ← Reader.fixed 32
  let pn ← Reader.u32
  let n ← Reader.u32
  return { dh := dh, pn := pn, n := n }

theorem Header.reads (header : Header) : Parser.Reads Header.read header.encode header := by
  simp only [encode, List.append_assoc]
  rw [← List.append_nil (Writer.u32 _)]
  exact (Reader.reads_fixed _).bind <| (Reader.reads_u32 _).bind <| (Reader.reads_u32 _).bind <|
    .pure _

structure DmMessage where
  header : Header
  ciphertext : Bytes
  deriving DecidableEq

namespace DmMessage

def encode (msg : DmMessage) : Bytes := msg.header.encode ++ Writer.bytes msg.ciphertext

def read : Reader DmMessage := do
  let header ← Header.read
  let ciphertext ← Reader.bytes
  return { header := header, ciphertext := ciphertext }

def decode (input : Bytes) : Except WireError DmMessage := Reader.decodeAll read input

theorem decode_encode {msg : DmMessage} (hlen : msg.encode.length < 2 ^ 32) :
    decode msg.encode = .ok msg := by
  apply Reader.decodeAll_of_reads
  have hct : msg.ciphertext.length < 2 ^ 32 := by
    rw [encode, Writer.bytes, List.length_append, List.length_append] at hlen
    omega
  rw [encode, ← List.append_nil (Writer.bytes _)]
  exact msg.header.reads.bind <| (Reader.reads_bytes hct).bind <| .pure _

end DmMessage

structure InitMessage where
  ikAPub : Key
  ekAPub : Key
  usedOtp : Option Key
  first : DmMessage
  deriving DecidableEq

namespace InitMessage

def encodeOtp (usedOtp : Option Key) : Bytes :=
  match usedOtp with
  | some otp => Writer.bool true ++ Writer.fixed otp
  | none => Writer.bool false

def encode (init : InitMessage) : Bytes :=
  Writer.fixed init.ikAPub ++ Writer.fixed init.ekAPub ++ encodeOtp init.usedOtp ++
    Writer.bytes init.first.encode

def readOtp : Reader (Option Key) := do
  if ← Reader.bool then
    return some (← Reader.fixed 32)
  else
    return none

def read : Reader InitMessage := do
  let ikAPub ← Reader.fixed 32
  let ekAPub ← Reader.fixed 32
  let usedOtp ← readOtp
  let first ← Parser.ofExcept (DmMessage.decode (← Reader.bytes))
  return { ikAPub := ikAPub, ekAPub := ekAPub, usedOtp := usedOtp, first := first }

def decode (input : Bytes) : Except WireError InitMessage := Reader.decodeAll read input

theorem reads_otp (usedOtp : Option Key) :
    Parser.Reads readOtp (encodeOtp usedOtp) usedOtp := by
  cases usedOtp with
  | none =>
    rw [encodeOtp, ← List.append_nil (Writer.bool _)]
    exact (Reader.reads_bool false).bind <| .pure _
  | some otp =>
    rw [encodeOtp, ← List.append_nil (Writer.fixed _)]
    exact (Reader.reads_bool true).bind <| (Reader.reads_fixed _).bind <| .pure _

theorem decode_encode {init : InitMessage} (hlen : init.encode.length < 2 ^ 32) :
    decode init.encode = .ok init := by
  apply Reader.decodeAll_of_reads
  have hfirst : init.first.encode.length < 2 ^ 32 := by
    rw [encode, Writer.bytes] at hlen
    simp only [List.length_append] at hlen
    omega
  simp only [encode, List.append_assoc]
  rw [← List.append_nil (Writer.bytes _)]
  exact (Reader.reads_fixed _).bind <| (Reader.reads_fixed _).bind <| (reads_otp _).bind <|
    (Reader.reads_bytes hfirst).bind <|
    (Parser.Reads.ofExcept (DmMessage.decode_encode hfirst)).bind <| .pure _

end InitMessage

inductive Packet where
  | init (init : InitMessage)
  | message (msg : DmMessage)
  deriving DecidableEq

namespace Packet

def encode : Packet → Bytes
  | init m => Writer.u8 1 ++ Writer.bytes m.encode
  | message m => Writer.u8 2 ++ Writer.bytes m.encode

def read : Reader Packet := do
  match ← Reader.u8 with
  | 1 => return init (← Parser.ofExcept (InitMessage.decode (← Reader.bytes)))
  | 2 => return message (← Parser.ofExcept (DmMessage.decode (← Reader.bytes)))
  | other => throw (.badDiscriminant "dm::Packet" other.toUInt64)

def decode (input : Bytes) : Except WireError Packet := Reader.decodeAll read input

theorem decode_encode {packet : Packet} (hlen : packet.encode.length < 2 ^ 32) :
    decode packet.encode = .ok packet := by
  apply Reader.decodeAll_of_reads
  have hinner (inner : Bytes) (hlen : (Writer.bytes inner).length < 2 ^ 32) :
      inner.length < 2 ^ 32 := by
    rw [Writer.bytes, List.length_append] at hlen
    omega
  cases packet with
  | init init =>
    rw [encode, List.length_append] at hlen
    have hbytes := hinner init.encode (by omega)
    rw [encode, ← List.append_nil (Writer.bytes _)]
    exact (Reader.reads_u8 1).bind <| (Reader.reads_bytes hbytes).bind <|
      (Parser.Reads.ofExcept (InitMessage.decode_encode hbytes)).bind <| .pure _
  | message msg =>
    rw [encode, List.length_append] at hlen
    have hbytes := hinner msg.encode (by omega)
    rw [encode, ← List.append_nil (Writer.bytes _)]
    exact (Reader.reads_u8 2).bind <| (Reader.reads_bytes hbytes).bind <|
      (Parser.Reads.ofExcept (DmMessage.decode_encode hbytes)).bind <| .pure _

end Packet

structure Session where
  ratchet : Ratchet
  ad : Bytes
  deriving DecidableEq

namespace Session

variable (P : Primitives) {S : Suite}

/-- Begin a conversation, with the secrets of the handshake and of the ratchet. -/
def initiate (me : Identity S) (bundle : PreKeyBundle) (firstPlaintext : Bytes) (ek dhs : Key) :
    Except DmError (Session × InitMessage) := do
  let hs ← x3dhInitiator P me bundle ek
  let ratchet ← Ratchet.initAlice P hs.result.sk bundle.spkPub dhs
  let (result, ratchet) := (Ratchet.encrypt P firstPlaintext hs.result.ad).call ratchet
  let (header, ciphertext) ← result
  return ({ ratchet := ratchet, ad := hs.result.ad },
    { ikAPub := me.agreePublic P, ekAPub := hs.ephemeralPub, usedOtp := hs.usedOtp,
      first := { header := header, ciphertext := ciphertext } })

/-- Accept a first message; `fresh` is the secret that the ratchet draws. -/
def accept (me : Identity S) (init : InitMessage) (fresh : Key) :
    Method PreKeySecrets DmError (Session × Bytes) := do
  let (res, spkSecret) ← x3dhResponder P me init.ekAPub init.ikAPub init.usedOtp
  let ratchet := Ratchet.initBob res.sk spkSecret
  let (result, ratchet) :=
    (Ratchet.decrypt P fresh init.first.header init.first.ciphertext res.ad).call ratchet
  let plaintext ← lift result
  return ({ ratchet := ratchet, ad := res.ad }, plaintext)

def encrypt (plaintext : Bytes) : Method Session DmError DmMessage := do
  let self ← get
  let (result, ratchet) := (Ratchet.encrypt P plaintext self.ad).call self.ratchet
  set { self with ratchet := ratchet }
  let (header, ciphertext) ← lift result
  return { header := header, ciphertext := ciphertext }

def decrypt (msg : DmMessage) (fresh : Key) : Method Session DmError Bytes := do
  let self ← get
  let (result, ratchet) :=
    (Ratchet.decrypt P fresh msg.header msg.ciphertext self.ad).call self.ratchet
  set { self with ratchet := ratchet }
  lift result

variable {P}

theorem call_encrypt_eq_ok {session session' : Session} {plaintext : Bytes} {msg : DmMessage}
    (hcall : (encrypt P plaintext).call session = (.ok msg, session')) :
    (Ratchet.encrypt P plaintext session.ad).call session.ratchet =
        (.ok (msg.header, msg.ciphertext), session'.ratchet) ∧
      session'.ad = session.ad := by
  rcases hratchet : (Ratchet.encrypt P plaintext session.ad).call session.ratchet with
    ⟨result, ratchet⟩
  rw [encrypt, call_bind_ok (call_get session)] at hcall
  simp only [hratchet] at hcall
  rw [call_bind_ok (call_set _ _)] at hcall
  cases result with
  | error e => cases hcall
  | ok pair =>
    obtain ⟨hmsg, rfl⟩ := Prod.mk.inj hcall
    cases hmsg
    exact ⟨rfl, rfl⟩

theorem call_decrypt {session : Session} {msg : DmMessage} {fresh : Key} {ratchet : Ratchet}
    {result : Except DmError Bytes}
    (hcall : (Ratchet.decrypt P fresh msg.header msg.ciphertext session.ad).call session.ratchet =
      (result, ratchet)) :
    (decrypt P msg fresh).call session = (result, { session with ratchet := ratchet }) := by
  rw [decrypt, call_bind_ok (call_get session)]
  simp only [hcall]
  rw [call_bind_ok (call_set _ _), call_lift]

theorem initiate_eq_ok {me : Identity S} {bundle : PreKeyBundle} {first : Bytes} {ek dhs : Key}
    {session : Session} {init : InitMessage}
    (hok : initiate P me bundle first ek dhs = .ok (session, init)) :
    ∃ hs ratchet, x3dhInitiator P me bundle ek = .ok hs ∧
      Ratchet.initAlice P hs.result.sk bundle.spkPub dhs = .ok ratchet ∧
      (Ratchet.encrypt P first session.ad).call ratchet =
        (.ok (init.first.header, init.first.ciphertext), session.ratchet) ∧
      session.ad = hs.result.ad ∧ init.ikAPub = me.agreePublic P ∧
      init.ekAPub = hs.ephemeralPub ∧ init.usedOtp = hs.usedOtp := by
  simp only [initiate, bind_eq_ok, pure_eq_ok, Prod.mk.injEq] at hok
  obtain ⟨hs, hinit, ratchet, halice, ⟨header, ct⟩, hencrypt, rfl, rfl⟩ := hok
  refine ⟨hs, ratchet, hinit, halice, ?_, rfl, rfl, rfl, rfl⟩
  rw [← hencrypt]

theorem call_accept {me : Identity S} {init : InitMessage} {fresh spk : Key}
    {prekeys rest : PreKeySecrets} {res : X3dhResult} {plaintext : Bytes} {ratchet : Ratchet}
    (hresponder : (x3dhResponder P me init.ekAPub init.ikAPub init.usedOtp).call prekeys =
      (.ok (res, spk), rest))
    (hdecrypt : (Ratchet.decrypt P fresh init.first.header init.first.ciphertext res.ad).call
      (Ratchet.initBob res.sk spk) = (.ok plaintext, ratchet)) :
    (accept P me init fresh).call prekeys =
      (.ok ({ ratchet := ratchet, ad := res.ad }, plaintext), rest) := by
  rw [accept, call_bind_ok hresponder]
  simp only [hdecrypt]
  rfl

theorem accept_spk (me : Identity S) (init : InitMessage) (fresh : Key)
    (prekeys : PreKeySecrets) :
    ((accept P me init fresh).call prekeys).2.spk = prekeys.spk := by
  have hresponder := x3dhResponder_spk (P := P) me init.ekAPub init.ikAPub init.usedOtp prekeys
  let kept (rest : PreKeySecrets) : Prop := rest.spk = prekeys.spk
  rw [accept]
  apply call_bind_state (motive := kept) hresponder
  intro found rest hcall
  rw [hcall] at hresponder
  exact call_bind_lift_state (motive := kept) hresponder fun _ => hresponder

end Session

def Packet.dm : Packet → DmMessage
  | .init msg => msg.first
  | .message msg => msg

/-- The handshake of a first message leads to `res`, for a responder with this signed prekey. -/
def InitMessage.LeadsTo (P : Primitives) {S : Suite} (alice bob : Identity S) (spk : Key)
    (res : X3dhResult) (init : InitMessage) : Prop :=
  ∃ bundle ek hs, bundle.Genuine P bob spk ∧ x3dhInitiator P alice bundle ek = .ok hs ∧
    hs.result = res ∧ init.ikAPub = alice.agreePublic P ∧ init.ekAPub = hs.ephemeralPub ∧
    init.usedOtp = hs.usedOtp

section Accept

variable {P : Primitives} {S : Suite}

theorem InitMessage.LeadsTo.call_accept (hP : Honest P) {alice bob : Identity S} {fresh : Key}
    {prekeys : PreKeySecrets} {res : X3dhResult} {init : InitMessage} {plaintext : Bytes}
    {ratchet : Ratchet} (hleads : init.LeadsTo P alice bob prekeys.spk res)
    (hheld : prekeys.Holds P init.usedOtp)
    (hdecrypt : (Ratchet.decrypt P fresh init.first.header init.first.ciphertext res.ad).call
      (Ratchet.initBob res.sk prekeys.spk) = (.ok plaintext, ratchet)) :
    ∃ rest, (Session.accept P bob init fresh).call prekeys =
      (.ok ({ ratchet := ratchet, ad := res.ad }, plaintext), rest) := by
  obtain ⟨bundle, ek, hs, hgenuine, hinit, rfl, hik, hek, hotp⟩ := hleads
  rw [hotp] at hheld
  obtain ⟨rest, -, hresponder⟩ := call_x3dhResponder hP hgenuine hinit hheld
  rw [← hik, ← hek, ← hotp] at hresponder
  exact ⟨rest, Session.call_accept hresponder hdecrypt⟩

end Accept

end Dante.Dm
