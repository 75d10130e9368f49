import Dante.Dm.DeliveryRun
import Dante.Dm.Session

/-!
What a failed call leaves behind. Only two refusals of `decrypt`, of a skip that is too long and of
a message without a receiving chain, happen before the first write. `accept` writes once, when it
takes the one-time prekey, and can still fail after that.
-/

namespace Dante.Dm

open Crypto Ratchet

/-- The header is refused before anything is written: there is no stored key, and the
first check of the counters fails or there is no chain to receive on. -/
def RefusedEarly (r : Ratchet) (header : Header) : Prop :=
  r.skipped.lookup (header.dh, header.n) = none ∧
    if r.dhr = some header.dh then
      r.ckr = none ∨ r.nr + maxSkip < header.n
    else
      r.ckr ≠ none ∧ r.nr + maxSkip < header.pn

section Frame

variable (P : Primitives)

/-- The counter moves whenever the receiving chain is used. -/
theorem skipTo_add_one_ne {nr n : UInt32} (hnear : ¬ nr + maxSkip < n) :
    skipTo nr n + 1 ≠ nr := by
  intro heq
  have hskip : maxSkip.toNat = 1000 := rfl
  have hnr := nr.toNat_lt
  have hn := n.toNat_lt
  have hnat := congrArg UInt32.toNat heq
  rw [UInt32.toNat_add, UInt32.toNat_one, skipTo_toNat] at hnat
  rw [UInt32.lt_iff_toNat_lt, UInt32.toNat_add] at hnear
  omega

theorem call_receive_dhr (self : Ratchet) (header : Header) (ct ad : Bytes) :
    ((receive P header ct ad).call self).2.dhr = self.dhr := by
  cases hckr : self.ckr with
  | none => rw [call_receive_none P hckr]
  | some ck =>
    by_cases hfar : self.nr + maxSkip < header.n
    · rw [call_receive_refused P hckr hfar]
    · rw [call_receive_ok P hckr hfar]
      rfl

/-- Once the rest of the old chain is skipped, the peer key is the header's, however
the call ends. -/
theorem call_newChain_dhr (self : Ratchet) (fresh : Key) (header : Header) (ct ad : Bytes) :
    ((do dhRatchet P fresh header
         receive P header ct ad : RatchetM Bytes).call self).2.dhr = some header.dh := by
  have hdhr := (call_dhRatchet_frame P self fresh header).2.2
  rw [Method.call_bind]
  generalize (dhRatchet P fresh header).call self = outcome at hdhr
  match outcome, hdhr with
  | (.ok (), self'), hdhr => exact (call_receive_dhr P self' header ct ad).trans hdhr
  | (.error e, self'), hdhr => exact hdhr

end Frame

/-- A failed `decrypt` call leaves the ratchet as it was exactly when the header is
refused early. -/
theorem decrypt_error_unchanged_iff (P : Primitives) (r r' : Ratchet) (header : Header)
    (ct ad : Bytes) (fresh : Key) (e : DmError)
    (herror : (decrypt P fresh header ct ad).call r = (.error e, r')) :
    r' = r ↔ RefusedEarly r header := by
  have hstate : r' = ((decrypt P fresh header ct ad).call r).2 := by rw [herror]
  cases hlookup : r.skipped.lookup (header.dh, header.n) with
  | some msgKey =>
    rw [call_decrypt_stored P hlookup] at hstate
    refine ⟨fun heq => ?_, fun hrefused => ?_⟩
    · rw [heq] at hstate
      have hgone := congrArg (fun self => self.skipped.lookup (header.dh, header.n)) hstate
      simp [hlookup] at hgone
    · rw [hrefused.1] at hlookup
      cases hlookup
  | none =>
    by_cases hdhr : r.dhr = some header.dh
    · rw [call_decrypt_current P hlookup hdhr] at hstate
      rw [RefusedEarly, if_pos hdhr]
      cases hckr : r.ckr with
      | none =>
        rw [call_receive_none P hckr] at hstate
        exact ⟨fun _ => ⟨hlookup, Or.inl rfl⟩, fun _ => hstate⟩
      | some ck =>
        by_cases hfar : r.nr + maxSkip < header.n
        · rw [call_receive_refused P hckr hfar] at hstate
          exact ⟨fun _ => ⟨hlookup, Or.inr hfar⟩, fun _ => hstate⟩
        · rw [call_receive_ok P hckr hfar] at hstate
          refine ⟨fun heq => ?_, fun hrefused => ?_⟩
          · rw [heq] at hstate
            exact absurd (congrArg Ratchet.nr hstate).symm (skipTo_add_one_ne hfar)
          · rcases hrefused.2 with hnone | hfar'
            · cases hnone
            · exact absurd hfar' hfar
    · rw [call_decrypt_newChain P hlookup hdhr] at hstate
      rw [RefusedEarly, if_neg hdhr]
      -- past the first check the peer key has changed
      have hchanged (self : Ratchet)
          (hskip : (skipMessageKeys P header.pn).call r = (.ok (), self)) : r' ≠ r := by
        intro heq
        rw [Method.call_bind_ok hskip] at hstate
        have hnew := call_newChain_dhr P self fresh header ct ad
        rw [← hstate, heq] at hnew
        exact hdhr hnew
      cases hckr : r.ckr with
      | none =>
        have hne := hchanged r (call_skipMessageKeys_none P hckr header.pn)
        exact ⟨fun heq => absurd heq hne, fun hrefused => absurd rfl hrefused.2.1⟩
      | some ck =>
        by_cases hfar : r.nr + maxSkip < header.pn
        · rw [Method.call_bind_error (call_skipMessageKeys_refused P hckr hfar)] at hstate
          exact ⟨fun _ => ⟨hlookup, Option.some_ne_none ck, hfar⟩, fun _ => hstate⟩
        · have hne := hchanged _ (call_skipMessageKeys_ok P hckr hfar)
          exact ⟨fun heq => absurd heq hne, fun hrefused => absurd hrefused.2.2 hfar⟩

/-- A message on the signed prekey itself reaches an initiator that has no receiving
chain yet. -/
theorem decrypt_error_unchanged_initiator :
    RefusedEarly (initiator samplePrimitives (.fill 32 42) (.fill 32 1) (.fill 32 2))
      { dh := .fill 32 1, pn := 0, n := 0 } :=
  (decrypt_error_unchanged_iff samplePrimitives
    (initiator samplePrimitives (.fill 32 42) (.fill 32 1) (.fill 32 2)) _
    { dh := .fill 32 1, pn := 0, n := 0 } [] [] (.fill 32 3) (.notReady "receive")
    ((call_decrypt_current samplePrimitives rfl rfl _ _ _).trans
      (call_receive_none samplePrimitives rfl _ _))).mp rfl

/-- Bob has accepted Alice's first message. A replay of it is refused and uses up the
key of the second message, which was still in flight and would have been accepted. -/
theorem replay_loses_next_message :
    let sent := Steps.exec (World.step samplePrimitives [])
      (World.initial samplePrimitives (.fill 32 42) (.fill 32 1) (.fill 32 2))
      [.send .alice [1], .send .alice [2]]
    let bob := (sent.step samplePrimitives [] (.deliver 0 (.fill 32 3))).ratchet .bob
    ∃ first ∈ sent.inFlight, ∃ second ∈ sent.inFlight,
      let replay := (decrypt samplePrimitives (.fill 32 4) first.header first.ct []).call bob
      replay.1 = .error .decrypt ∧ replay.2.nr ≠ bob.nr ∧
        ((decrypt samplePrimitives (.fill 32 4) second.header second.ct []).call bob).1 =
          .ok [2] ∧
        ((decrypt samplePrimitives (.fill 32 4) second.header second.ct []).call replay.2).1 =
          .error .decrypt := by
  decide +kernel

/-- The responder gets as far as the one-time prekey that the message names: it holds it, and
none of the three agreements before it is degenerate. -/
def InitMessage.ReachesOtp (P : Primitives) {S : Suite} (me : Identity S)
    (prekeys : PreKeySecrets) (init : InitMessage) : Prop :=
  (∃ otpPub ∈ init.usedOtp, ∃ otp ∈ prekeys.otps, P.x25519Public otp = otpPub) ∧
    P.x25519 prekeys.spk init.ikAPub ≠ .fill 32 0 ∧ P.x25519 me.ik init.ekAPub ≠ .fill 32 0 ∧
    P.x25519 prekeys.spk init.ekAPub ≠ .fill 32 0

section Accept

variable (P : Primitives) {S : Suite}
variable {prekeys : PreKeySecrets}

theorem call_consumeOtp_missing {usedOtp : Option Key}
    (hnone : ¬ ∃ otpPub ∈ usedOtp, ∃ otp ∈ prekeys.otps, P.x25519Public otp = otpPub) :
    ((consumeOtp P usedOtp).call prekeys).2 = prekeys := by
  cases usedOtp with
  | none => rfl
  | some otpPub =>
    have htake : prekeys.takeOtp P otpPub = none :=
      PreKeySecrets.takeOtp_of_not_mem fun hheld => hnone ⟨otpPub, rfl, hheld⟩
    rw [consumeOtp, Method.call_bind_ok (Method.call_get prekeys), htake]
    rfl

theorem call_consumeOtp_held {usedOtp : Option Key}
    (hheld : ∃ otpPub ∈ usedOtp, ∃ otp ∈ prekeys.otps, P.x25519Public otp = otpPub) :
    ∃ otp rest, (consumeOtp P usedOtp).call prekeys = (.ok otp, rest) ∧
      rest.otps.length + 1 = prekeys.otps.length := by
  obtain ⟨otpPub, hused, hotp⟩ := hheld
  obtain rfl : usedOtp = some otpPub := hused
  obtain ⟨otp, rest, htake, -, before, taken, after, hotps, -, hrest⟩ :=
    PreKeySecrets.takeOtp_of_mem hotp
  refine ⟨some otp, rest, ?_, ?_⟩
  · rw [consumeOtp, Method.call_bind_ok (Method.call_get prekeys), htake]
    rfl
  · simp only [hrest, hotps, List.length_append, List.length_cons]
    omega

/-- After the handshake nothing is written any more. -/
theorem call_accept_state (me : Identity S) (init : InitMessage) (fresh : Key)
    (prekeys : PreKeySecrets) :
    ((Session.accept P me init fresh).call prekeys).2 =
      ((x3dhResponder P me init.ekAPub init.ikAPub init.usedOtp).call prekeys).2 := by
  let same (rest : PreKeySecrets) : Prop :=
    rest = ((x3dhResponder P me init.ekAPub init.ikAPub init.usedOtp).call prekeys).2
  rw [Session.accept]
  apply Method.call_bind_state (motive := same) rfl
  intro found rest hcall
  have hrest : same rest := (congrArg Prod.snd hcall).symm
  exact Method.call_bind_lift_state (motive := same) hrest fun _ => hrest

/-- A degenerate agreement ends the call before the prekeys are touched. -/
theorem call_agree_degenerate {α : Type} {secret theirPublic : Key}
    (next : Key → Method PreKeySecrets DmError α) (hzero : P.x25519 secret theirPublic = .fill 32 0) :
    (Method.lift ((agree P secret theirPublic).mapError .crypto) >>= next).call prekeys =
      (.error (.crypto .degenerateAgreement), prekeys) := by
  apply Method.call_bind_error
  simp [agree, hzero, Except.mapError]

theorem call_agree_ok {α : Type} {secret theirPublic : Key}
    (next : Key → Method PreKeySecrets DmError α) (hzero : P.x25519 secret theirPublic ≠ .fill 32 0) :
    (Method.lift ((agree P secret theirPublic).mapError .crypto) >>= next).call prekeys =
      (next (P.x25519 secret theirPublic)).call prekeys := by
  apply Method.call_bind_ok
  simp [agree, hzero, Except.mapError]

/-- The handshake changes the prekeys exactly when it reaches the one-time prekey. -/
theorem call_x3dhResponder_state (me : Identity S) (init : InitMessage)
    (prekeys : PreKeySecrets) :
    ((x3dhResponder P me init.ekAPub init.ikAPub init.usedOtp).call prekeys).2 = prekeys ↔
      ¬ init.ReachesOtp P me prekeys := by
  rw [x3dhResponder, Method.call_bind_ok (Method.call_get prekeys)]
  dsimp only
  by_cases hdh1 : P.x25519 prekeys.spk init.ikAPub = .fill 32 0
  · rw [call_agree_degenerate P _ hdh1]
    exact iff_of_true rfl fun hreaches => hreaches.2.1 hdh1
  rw [call_agree_ok P _ hdh1]
  by_cases hdh2 : P.x25519 me.ik init.ekAPub = .fill 32 0
  · rw [call_agree_degenerate P _ hdh2]
    exact iff_of_true rfl fun hreaches => hreaches.2.2.1 hdh2
  rw [call_agree_ok P _ hdh2]
  by_cases hdh3 : P.x25519 prekeys.spk init.ekAPub = .fill 32 0
  · rw [call_agree_degenerate P _ hdh3]
    exact iff_of_true rfl fun hreaches => hreaches.2.2.2 hdh3
  rw [call_agree_ok P _ hdh3]
  by_cases hheld : ∃ otpPub ∈ init.usedOtp, ∃ otp ∈ prekeys.otps, P.x25519Public otp = otpPub
  · obtain ⟨otp, rest, hconsume, hlength⟩ := call_consumeOtp_held P hheld
    refine iff_of_false ?_ (not_not.mpr ⟨hheld, hdh1, hdh2, hdh3⟩)
    -- whatever the last agreement gives, the prekey is gone
    have hchanged : rest ≠ prekeys := by
      rintro rfl
      omega
    rw [Method.call_bind_ok hconsume]
    exact Method.call_bind_lift_state (motive := (· ≠ prekeys)) hchanged fun _ => hchanged
  · refine iff_of_true ?_ fun hreaches => hheld hreaches.1
    have hkept := call_consumeOtp_missing P hheld
    apply Method.call_bind_state (motive := (· = prekeys)) hkept
    intro otp rest hconsume
    rw [hconsume] at hkept
    exact Method.call_bind_lift_state (motive := (· = prekeys)) hkept fun _ => hkept

end Accept

/-- A failed `accept` keeps the prekeys exactly when it has not come to the one-time prekey. -/
theorem accept_error_unchanged_iff (P : Primitives) {S : Suite} (me : Identity S)
    (prekeys rest : PreKeySecrets) (init : InitMessage) (fresh : Key) (e : DmError)
    (herror : (Session.accept P me init fresh).call prekeys = (.error e, rest)) :
    rest = prekeys ↔ ¬ init.ReachesOtp P me prekeys := by
  rw [← call_x3dhResponder_state, ← call_accept_state P me init fresh, herror]

/-- A first message that names a one-time prekey of which the responder knows nothing. -/
theorem accept_error_unchanged_unknown :
    let me := sampleIdentity (.fill 32 1) (.fill 32 11)
    let prekeys : PreKeySecrets := { spk := .fill 32 3, otps := [] }
    ¬ InitMessage.ReachesOtp samplePrimitives me prekeys
      { ikAPub := .fill 32 4, ekAPub := .fill 32 5, usedOtp := some (.fill 32 6),
        first := { header := { dh := .fill 32 7, pn := 0, n := 0 }, ciphertext := [] } } :=
  (accept_error_unchanged_iff samplePrimitives _ _ _ _ (.fill 32 8) .unknownOneTimePrekey
    (by decide +kernel)).mp rfl

/-- Anyone who was served the bundle can name its one-time prekey in a message that does not
decrypt. The prekey is gone, and the initiator that it was meant for is refused. -/
theorem accept_error_consumes_prekey :
    let me := sampleIdentity (.fill 32 1) (.fill 32 11)
    let alice := sampleIdentity (.fill 32 2) (.fill 32 12)
    let prekeys : PreKeySecrets := { spk := .fill 32 3, otps := [.fill 32 4] }
    let garbage : InitMessage :=
      { ikAPub := .fill 32 5, ekAPub := .fill 32 6
        usedOtp := some (samplePrimitives.x25519Public (.fill 32 4))
        first := { header := { dh := .fill 32 7, pn := 0, n := 0 }, ciphertext := [] } }
    let failed := (Session.accept samplePrimitives me garbage (.fill 32 8)).call prekeys
    ∃ started ∈ (Session.initiate samplePrimitives alice (prekeys.bundle samplePrimitives me) [1]
        (.fill 32 9) (.fill 32 10)).toOption,
      ((Session.accept samplePrimitives me started.2 (.fill 32 13)).call prekeys).1.map Prod.snd =
        .ok [1] ∧
      failed = (.error .decrypt, { prekeys with otps := [] }) ∧
      (Session.accept samplePrimitives me started.2 (.fill 32 13)).call failed.2 =
        (.error .unknownOneTimePrekey, failed.2) := by
  decide +kernel

end Dante.Dm
