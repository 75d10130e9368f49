import Dante.Dm.X3dh

/-!
A prekey bundle on the wire. The relay stores the encoded bundle, cuts it down to
fewer one-time prekeys and encodes it again, so what it hands out has to decode to
what it cut, and has to verify as long as the owner's bundle did.
-/

namespace Dante.Dm

open Crypto Enc Except

namespace PreKeyBundle

variable {S : Suite}
variable {bundle : PreKeyBundle}

def encode (bundle : PreKeyBundle) : Bytes :=
  Writer.fixed bundle.identityId ++ (Writer.fixed bundle.idkPub ++ (Writer.fixed bundle.ikPub ++
    (Writer.fixed bundle.spkPub ++ (Writer.fixed bundle.spkSig ++
      (Writer.u32 (UInt32.ofNat bundle.otps.length) ++
        bundle.otps.flatMap fun otp => Writer.fixed otp.1 ++ Writer.fixed otp.2)))))

def readOtp : Reader (Key × Signature) := do
  let otp ← Reader.fixed 32
  let sig ← Reader.fixed 64
  return (otp, sig)

def readOtps : Reader (List (Key × Signature)) := do
  let n := (← Reader.u32).toNat
  if n > (← Reader.remaining) then
    throw (.lengthTooLarge (UInt64.ofNat n))
  Parser.times readOtp n

def reader : Reader PreKeyBundle := do
  let identityId ← Reader.fixed 32
  let idkPub ← Reader.fixed 32
  let ikPub ← Reader.fixed 32
  let spkPub ← Reader.fixed 32
  let spkSig ← Reader.fixed 64
  let otps ← readOtps
  return { identityId, idkPub, ikPub, spkPub, spkSig, otps }

def decode (input : Bytes) : Except WireError PreKeyBundle := Reader.decodeAll reader input

theorem length_encodedOtps (otps : List (Key × Signature)) :
    (otps.flatMap fun otp => Writer.fixed otp.1 ++ Writer.fixed otp.2).length =
      96 * otps.length := by
  induction otps with
  | nil => rfl
  | cons otp rest ih =>
    rw [List.flatMap_cons, List.length_append, ih, List.length_append, Writer.fixed, Writer.fixed,
      ByteArr.length_toList, ByteArr.length_toList, List.length_cons]
    omega

theorem length_encode (bundle : PreKeyBundle) :
    bundle.encode.length = 196 + 96 * bundle.otps.length := by
  have hword : (Writer.u32 (UInt32.ofNat bundle.otps.length)).length = 4 :=
    BigEndian.encode_length 4 _
  have hotps := length_encodedOtps bundle.otps
  simp only [encode, List.length_append, hword, hotps]
  simp only [Writer.fixed, ByteArr.length_toList]
  omega

theorem codec_otps : Parser.Codec readOtps
    (Writer.list fun otp : Key × Signature => Writer.fixed otp.1 ++ Writer.fixed otp.2)
    fun otps => otps.length < 2 ^ 32 := by
  have hotp : Parser.Codec readOtp
      (fun otp : Key × Signature => Writer.fixed otp.1 ++ Writer.fixed otp.2) fun _ => True :=
    (Reader.codec_both (Reader.codec_fixed 32) (Reader.codec_fixed 64)).congr (fun _ => rfl)
      fun _ => by simp
  exact (Reader.codec_list hotp fun otp => by simp).congr (fun _ => rfl) fun otps => by simp

theorem codec : Parser.Codec reader encode fun bundle => bundle.otps.length < 2 ^ 32 where
  reads h :=
    (Reader.codec_fixed 32).reads_bind trivial <| (Reader.codec_fixed 32).reads_bind trivial <|
      (Reader.codec_fixed 32).reads_bind trivial <| (Reader.codec_fixed 32).reads_bind trivial <|
      (Reader.codec_fixed 64).reads_bind trivial <| codec_otps.reads_map h _
  takes :=
    (Reader.codec_fixed 32).takes_bind fun _ _ => (Reader.codec_fixed 32).takes_bind fun _ _ =>
      (Reader.codec_fixed 32).takes_bind fun _ _ => (Reader.codec_fixed 32).takes_bind fun _ _ =>
      (Reader.codec_fixed 64).takes_bind fun _ _ => codec_otps.takes_map fun _ h =>
      ⟨by simp [encode, Writer.list], h⟩

theorem decode_encode (hlen : bundle.otps.length < 2 ^ 32) : decode bundle.encode = .ok bundle :=
  (Reader.decodeAll_eq_ok_iff codec).mpr ⟨rfl, hlen⟩

theorem encode_of_decode {input : Bytes} (hok : decode input = .ok bundle) :
    input = bundle.encode :=
  ((Reader.decodeAll_eq_ok_iff codec).mp hok).1

/-- The number of one-time prekeys of a decoded bundle was one word. -/
theorem otps_length_of_decode {input : Bytes} (hok : decode input = .ok bundle) :
    bundle.otps.length < 2 ^ 32 :=
  ((Reader.decodeAll_eq_ok_iff codec).mp hok).2

/-- A bundle verifies if its key parses and every signature in it does. -/
theorem verify_eq_ok :
    bundle.verify S = .ok () ↔
      Verifies S bundle.idkPub (spkSigChallenge S bundle.spkPub).toList bundle.spkSig ∧
      ∀ otp ∈ bundle.otps,
        Verifies S bundle.idkPub (otpSigChallenge S bundle.spkPub otp.1).toList otp.2 := by
  simp only [verify, bind_eq_ok, mapError_eq_ok, forM_eq_ok]
  constructor
  · rintro ⟨idk, hidk, ⟨⟩, hspk, hotps⟩
    exact ⟨verifies_of_ok hidk hspk, fun otp hotp => verifies_of_ok hidk (hotps otp hotp)⟩
  · rintro ⟨⟨hvalid, hspk⟩, hotps⟩
    refine ⟨⟨bundle.idkPub, hvalid⟩, SignPublic.fromBytes_eq_ok.mpr rfl, ⟨⟩,
      SignPublic.verify_eq_ok.mpr hspk, ?_⟩
    intro otp hotp
    exact SignPublic.verify_eq_ok.mpr (hotps otp hotp).2

theorem verify_of_subset {otps : List (Key × Signature)} (hverify : bundle.verify S = .ok ())
    (hsub : ∀ otp ∈ otps, otp ∈ bundle.otps) :
    ({ bundle with otps } : PreKeyBundle).verify S = .ok () := by
  obtain ⟨hspk, hotps⟩ := verify_eq_ok.mp hverify
  exact verify_eq_ok.mpr ⟨hspk, fun otp hotp => hotps otp (hsub otp hotp)⟩

end PreKeyBundle

end Dante.Dm
