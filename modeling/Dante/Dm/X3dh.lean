import Dante.Dm.Ratchet
import Dante.Identity.Identity

/-!
X3DH, the handshake in front of a ratchet. The owner publishes a signed prekey and
one-time prekeys; the initiator combines them with its own keys, and the responder
computes the same secret from the other halves. The secrets that `generate` returns
are arguments.
-/

namespace Dante.Dm

open Crypto Except Method

def spkSigDomain : Bytes := "dante/x3dh/signed-prekey/v1".toUTF8.toList

def otpSigDomain : Bytes := "dante/x3dh/signed-otp/v1".toUTF8.toList

def x3dhInfo : Bytes := "dante/x3dh/v1".toUTF8.toList

def maxOtps : Nat := 100

structure PreKeyBundle where
  identityId : Hash
  idkPub : Key
  ikPub : Key
  spkPub : Key
  spkSig : Signature
  otps : List (Key × Signature)
  deriving DecidableEq

namespace PreKeyBundle

variable (S : Suite)

def spkSigChallenge (spkPub : Key) : Hash := sha256Parts S.sha256 [spkSigDomain, spkPub.toList]

def otpSigChallenge (spkPub otp : Key) : Hash :=
  sha256Parts S.sha256 [otpSigDomain, spkPub.toList, otp.toList]

def verify (bundle : PreKeyBundle) : Except DmError Unit := do
  let idk ← (SignPublic.fromBytes S bundle.idkPub).mapError fun _ => .badPrekeySignature
  (idk.verify (spkSigChallenge S bundle.spkPub).toList bundle.spkSig).mapError
    fun _ => .badPrekeySignature
  bundle.otps.forM fun otp =>
    (idk.verify (otpSigChallenge S bundle.spkPub otp.1).toList otp.2).mapError
      fun _ => .badPrekeySignature

end PreKeyBundle

structure PreKeySecrets where
  spk : Key
  otps : List Key
  deriving DecidableEq

namespace PreKeySecrets

variable (P : Primitives) {S : Suite}

def bundle (prekeys : PreKeySecrets) (identity : Identity S) : PreKeyBundle :=
  let spkPub := P.x25519Public prekeys.spk
  { identityId := identity.id
    idkPub := identity.idk
    ikPub := identity.agreePublic P
    spkPub := spkPub
    spkSig := identity.sign (PreKeyBundle.spkSigChallenge S spkPub).toList
    otps := prekeys.otps.map fun otp =>
      (P.x25519Public otp,
        identity.sign (PreKeyBundle.otpSigChallenge S spkPub (P.x25519Public otp)).toList) }

/-- `take_otp`: the one-time prekey with this public value, and the rest. -/
def takeOtp (prekeys : PreKeySecrets) (otpPub : Key) : Option (Key × PreKeySecrets) := do
  let index ← prekeys.otps.findIdx? fun otp => P.x25519Public otp = otpPub
  let otp ← prekeys.otps[index]?
  return (otp, { prekeys with otps := prekeys.otps.eraseIdx index })

/-- `replenish`, with the secrets that `generate` returns one after the other. -/
def replenish (prekeys : PreKeySecrets) (generated : List Key) (target : Nat) : PreKeySecrets :=
  { prekeys with
    otps := prekeys.otps ++ generated.take (min target maxOtps - prekeys.otps.length) }

end PreKeySecrets

structure X3dhResult where
  sk : Key
  ad : Bytes
  deriving DecidableEq

structure InitiatorHandshake where
  result : X3dhResult
  ephemeralPub : Key
  usedOtp : Option Key
  deriving DecidableEq

section Handshake

variable (P : Primitives) {S : Suite}

def deriveSk (dhs : List Key) : Key :=
  let ikm := (ByteArr.fill 32 0xFF).toList ++ (dhs.map (·.toList)).flatten
  let prk := P.extract (ByteArr.fill 32 0).toList ikm
  P.expand prk x3dhInfo 32

def adOf (initiatorIk responderIk : Key) : Bytes := initiatorIk.toList ++ responderIk.toList

/-- The fourth agreement, between a secret and a public key, if there is a one-time prekey. -/
def agreeOtp (keys : Option (Key × Key)) : Except CryptoError (List Key) :=
  match keys with
  | some keys => do return [← agree P keys.1 keys.2]
  | none => .ok []

/-- `x3dh::initiator`, with the ephemeral secret. -/
def x3dhInitiator (me : Identity S) (bundle : PreKeyBundle) (ek : Key) :
    Except DmError InitiatorHandshake := do
  bundle.verify S
  let dh1 ← (agree P me.ik bundle.spkPub).mapError .crypto
  let dh2 ← (agree P ek bundle.ikPub).mapError .crypto
  let dh3 ← (agree P ek bundle.spkPub).mapError .crypto
  let usedOtp := bundle.otps.head?.map (·.1)
  let dh4 ← (agreeOtp P (usedOtp.map fun otp => (ek, otp))).mapError .crypto
  return {
    result :=
      { sk := deriveSk P ([dh1, dh2, dh3] ++ dh4), ad := adOf (me.agreePublic P) bundle.ikPub }
    ephemeralPub := P.x25519Public ek
    usedOtp := usedOtp }

/-- Consume the one-time prekey that the initiator names, if it names one. -/
def consumeOtp (usedOtp : Option Key) : Method PreKeySecrets DmError (Option Key) :=
  match usedOtp with
  | some otpPub => do
    let (otp, rest) ← lift (okOr ((← get).takeOtp P otpPub) .unknownOneTimePrekey)
    set rest
    return some otp
  | none => return none

/-- `x3dh::responder`, which also returns the secret of the signed prekey. -/
def x3dhResponder (me : Identity S) (ekAPub ikAPub : Key) (usedOtp : Option Key) :
    Method PreKeySecrets DmError (X3dhResult × Key) := do
  let spk := (← get).spk
  let dh1 ← lift ((agree P spk ikAPub).mapError .crypto)
  let dh2 ← lift ((agree P me.ik ekAPub).mapError .crypto)
  let dh3 ← lift ((agree P spk ekAPub).mapError .crypto)
  let otp ← consumeOtp P usedOtp
  let dh4 ← lift ((agreeOtp P (otp.map fun otp => (otp, ekAPub))).mapError .crypto)
  return ({ sk := deriveSk P ([dh1, dh2, dh3] ++ dh4), ad := adOf ikAPub (me.agreePublic P) },
    spk)

end Handshake

/-- A bundle that its owner signed, for the signed prekey `spk`. -/
structure PreKeyBundle.Genuine (P : Primitives) {S : Suite} (owner : Identity S) (spk : Key)
    (bundle : PreKeyBundle) : Prop where
  verified : bundle.verify S = .ok ()
  ikPub : bundle.ikPub = owner.agreePublic P
  spkPub : bundle.spkPub = P.x25519Public spk
  otp : ∀ otp ∈ bundle.otps.head?, ∃ secret, otp.1 = P.x25519Public secret

/-- The one-time prekey that an initiator names is still there, if it names one. -/
def PreKeySecrets.Holds (P : Primitives) (prekeys : PreKeySecrets) (usedOtp : Option Key) : Prop :=
  ∀ otpPub ∈ usedOtp, ∃ otp ∈ prekeys.otps, P.x25519Public otp = otpPub

instance (P : Primitives) (prekeys : PreKeySecrets) (usedOtp : Option Key) :
    Decidable (prekeys.Holds P usedOtp) :=
  match usedOtp with
  | none => isTrue nofun
  | some otpPub =>
    decidable_of_iff (∃ otp ∈ prekeys.otps, P.x25519Public otp = otpPub)
      ⟨fun h _ hsome => Option.some.inj hsome ▸ h, fun h => h otpPub rfl⟩

/-- `rest` is `prekeys` without the one-time prekey that an initiator names, and with all
else. -/
def PreKeySecrets.Consumes (P : Primitives) (prekeys : PreKeySecrets) (usedOtp : Option Key)
    (rest : PreKeySecrets) : Prop :=
  match usedOtp with
  | some otpPub => ∃ before otp after, prekeys.otps = before ++ otp :: after ∧
      P.x25519Public otp = otpPub ∧ rest = { prekeys with otps := before ++ after }
  | none => rest = prekeys

section Agreement

variable {P : Primitives} {S : Suite}
variable {prekeys : PreKeySecrets}

theorem PreKeySecrets.takeOtp_of_mem {otpPub : Key}
    (hheld : ∃ otp ∈ prekeys.otps, P.x25519Public otp = otpPub) :
    ∃ otp rest, prekeys.takeOtp P otpPub = some (otp, rest) ∧ P.x25519Public otp = otpPub ∧
      prekeys.Consumes P (some otpPub) rest := by
  obtain ⟨held, hmem, hpub⟩ := hheld
  cases hfind : prekeys.otps.findIdx? fun otp => decide (P.x25519Public otp = otpPub) with
  | none =>
    rw [List.findIdx?_eq_none_iff] at hfind
    exact absurd (hfind held hmem) (by simp [hpub])
  | some index =>
    obtain ⟨hlt, hfound, -⟩ := List.findIdx?_eq_some_iff_getElem.mp hfind
    refine ⟨prekeys.otps[index], { prekeys with otps := prekeys.otps.eraseIdx index }, ?_,
      of_decide_eq_true hfound, prekeys.otps.take index, prekeys.otps[index],
      prekeys.otps.drop (index + 1), ?_, of_decide_eq_true hfound, ?_⟩
    · rw [takeOtp, hfind, Option.bind_eq_bind, Option.bind_some, List.getElem?_eq_getElem hlt]
      rfl
    · rw [List.getElem_cons_drop, List.take_append_drop]
    · rw [List.eraseIdx_eq_take_drop_succ]

theorem PreKeySecrets.takeOtp_of_not_mem {otpPub : Key}
    (hmissing : ¬ ∃ otp ∈ prekeys.otps, P.x25519Public otp = otpPub) :
    prekeys.takeOtp P otpPub = none := by
  have hfind : (prekeys.otps.findIdx? fun otp => decide (P.x25519Public otp = otpPub)) = none := by
    rw [List.findIdx?_eq_none_iff]
    intro otp hmem
    exact decide_eq_false fun hpub => hmissing ⟨otp, hmem, hpub⟩
  rw [takeOtp, hfind]
  rfl

theorem x3dhInitiator_eq (hP : Honest P) (me : Identity S) {owner : Identity S} {spk : Key}
    {bundle : PreKeyBundle} (hbundle : bundle.Genuine P owner spk) (ek : Key) :
    ∃ dh4, agreeOtp P ((bundle.otps.head?.map (·.1)).map fun otp => (ek, otp)) = .ok dh4 ∧
      x3dhInitiator P me bundle ek = .ok
        { result :=
            { sk := deriveSk P ([P.x25519 me.ik (P.x25519Public spk),
                P.x25519 ek (owner.agreePublic P), P.x25519 ek (P.x25519Public spk)] ++ dh4)
              ad := adOf (me.agreePublic P) (owner.agreePublic P) }
          ephemeralPub := P.x25519Public ek
          usedOtp := bundle.otps.head?.map (·.1) } := by
  have hdh4 : ∃ dh4, agreeOtp P ((bundle.otps.head?.map (·.1)).map fun otp => (ek, otp)) =
      .ok dh4 := by
    cases hotp : bundle.otps.head? with
    | none => exact ⟨[], rfl⟩
    | some otp =>
      obtain ⟨secret, hsecret⟩ := hbundle.otp otp hotp
      refine ⟨[P.x25519 ek otp.1], ?_⟩
      rw [Option.map_some, Option.map_some, agreeOtp, hsecret, hP.agree_eq]
      rfl
  obtain ⟨dh4, hdh4⟩ := hdh4
  refine ⟨dh4, hdh4, ?_⟩
  dsimp only [x3dhInitiator]
  rw [hbundle.verified, hbundle.ikPub, hbundle.spkPub, hdh4]
  simp only [Identity.agreePublic, hP.agree_eq]
  rfl

theorem call_consumeOtp (hP : Honest P) {usedOtp : Option Key} (hheld : prekeys.Holds P usedOtp)
    (ek : Key) :
    ∃ otp rest, (consumeOtp P usedOtp).call prekeys = (.ok otp, rest) ∧
      prekeys.Consumes P usedOtp rest ∧
      agreeOtp P (otp.map fun otp => (otp, P.x25519Public ek)) =
        agreeOtp P (usedOtp.map fun otp => (ek, otp)) := by
  cases usedOtp with
  | none => exact ⟨none, prekeys, rfl, rfl, rfl⟩
  | some otpPub =>
    obtain ⟨otp, rest, htake, hpub, hrest⟩ := PreKeySecrets.takeOtp_of_mem (hheld otpPub rfl)
    refine ⟨some otp, rest, ?_, hrest, ?_⟩
    · rw [consumeOtp, call_bind_ok (call_get prekeys), htake]
      rfl
    · rw [← hpub, Option.map_some, Option.map_some, agreeOtp, agreeOtp, agree, agree,
        hP.agree_comm]

theorem PreKeySecrets.takeOtp_spk {prekeys rest : PreKeySecrets} {otpPub otp : Key}
    (htake : prekeys.takeOtp P otpPub = some (otp, rest)) : rest.spk = prekeys.spk := by
  simp only [PreKeySecrets.takeOtp, Option.bind_eq_bind, Option.bind_eq_some_iff] at htake
  obtain ⟨index, -, found, -, hrest⟩ := htake
  cases hrest
  rfl

theorem x3dhResponder_spk (me : Identity S) (ekAPub ikAPub : Key) (usedOtp : Option Key)
    (prekeys : PreKeySecrets) :
    ((x3dhResponder P me ekAPub ikAPub usedOtp).call prekeys).2.spk = prekeys.spk := by
  have hconsume : ((consumeOtp P usedOtp).call prekeys).2.spk = prekeys.spk := by
    cases usedOtp with
    | none => rfl
    | some otpPub =>
      rw [consumeOtp, call_bind_ok (call_get prekeys)]
      cases htake : prekeys.takeOtp P otpPub with
      | none => rfl
      | some found => exact PreKeySecrets.takeOtp_spk htake
  let kept (rest : PreKeySecrets) : Prop := rest.spk = prekeys.spk
  rw [x3dhResponder, call_bind_ok (call_get prekeys)]
  dsimp only
  apply call_bind_lift_state (motive := kept) rfl
  intro dh1
  apply call_bind_lift_state (motive := kept) rfl
  intro dh2
  apply call_bind_lift_state (motive := kept) rfl
  intro dh3
  apply call_bind_state (motive := kept) hconsume
  intro otp rest hcall
  rw [hcall] at hconsume
  exact call_bind_lift_state (motive := kept) hconsume fun _ => hconsume

/-- A responder that still holds the one-time prekey arrives at the initiator's result. -/
theorem call_x3dhResponder (hP : Honest P) {alice bob : Identity S} {bundle : PreKeyBundle}
    {ek : Key} {hs : InitiatorHandshake} (hbundle : bundle.Genuine P bob prekeys.spk)
    (hinit : x3dhInitiator P alice bundle ek = .ok hs) (hheld : prekeys.Holds P hs.usedOtp) :
    ∃ rest, prekeys.Consumes P hs.usedOtp rest ∧
      (x3dhResponder P bob hs.ephemeralPub (alice.agreePublic P) hs.usedOtp).call prekeys =
        (.ok (hs.result, prekeys.spk), rest) := by
  obtain ⟨dh4, hdh4, heq⟩ := x3dhInitiator_eq hP alice hbundle ek
  obtain rfl := Except.ok.inj (hinit.symm.trans heq)
  obtain ⟨otp, rest, hconsume, hrest, hagree⟩ := call_consumeOtp hP hheld ek
  refine ⟨rest, hrest, ?_⟩
  rw [x3dhResponder, call_bind_ok (call_get prekeys)]
  simp only [Identity.agreePublic, hP.agree_eq, mapError_ok]
  rw [call_bind_ok (call_lift _ _), call_bind_ok (call_lift _ _), call_bind_ok (call_lift _ _),
    call_bind_ok hconsume, hagree, hdh4, mapError_ok, call_bind_ok (call_lift _ _),
    hP.agree_comm prekeys.spk, hP.agree_comm bob.ik, hP.agree_comm prekeys.spk ek]
  rfl

end Agreement

end Dante.Dm
