import Dante.Dm.RatchetSpec
import Dante.Relay.Prekeys

/-!
A handshake through a relay. The owner's bundle lies encoded in the relay's directory, every fetch
cuts it down by one one-time prekey and encodes it again. As long as the owner holds the one that
was handed out, both sides arrive at the same secret.
-/

namespace Dante.Dm

open Crypto Except Method

variable {P : Primitives} {S : Suite}

theorem PreKeySecrets.verify_bundle (published : PreKeySecrets) (owner : Identity S) :
    (published.bundle P owner).verify S = .ok () := by
  rw [PreKeyBundle.verify_eq_ok]
  refine ⟨owner.sign_verifies _, ?_⟩
  intro otp hotp
  obtain ⟨secret, -, rfl⟩ := List.mem_map.mp hotp
  exact owner.sign_verifies _

theorem PreKeySecrets.genuine_cut (published : PreKeySecrets) (owner : Identity S)
    {otps : List (Key × Signature)}
    (hsub : ∀ otp ∈ otps, otp ∈ (published.bundle P owner).otps) :
    ({ published.bundle P owner with otps } : PreKeyBundle).Genuine P owner published.spk where
  verified := PreKeyBundle.verify_of_subset (published.verify_bundle owner) hsub
  ikPub := rfl
  spkPub := rfl
  otp otp hotp := by
    obtain ⟨secret, -, rfl⟩ := List.mem_map.mp (hsub otp (List.mem_of_mem_head? hotp))
    exact ⟨secret, rfl⟩

/-- What a handshake between honest parties achieves: both sides compute one secret and one
associated data, the responder reads the first plaintext, and of its prekeys only the one
that the initiator names is gone. -/
def Agrees (P : Primitives) (alice bob : Identity S) (prekeys : PreKeySecrets)
    (bundle : PreKeyBundle) (firstPlaintext : Bytes) (ek dhs fresh : Key) : Prop :=
  ∃ hs session init session' rest,
    x3dhInitiator P alice bundle ek = .ok hs ∧
    Session.initiate P alice bundle firstPlaintext ek dhs = .ok (session, init) ∧
    init.usedOtp = bundle.otps.head?.map (·.1) ∧
    (x3dhResponder P bob init.ekAPub init.ikAPub init.usedOtp).call prekeys =
      (.ok (hs.result, prekeys.spk), rest) ∧
    (Session.accept P bob init fresh).call prekeys = (.ok (session', firstPlaintext), rest) ∧
    session.ad = session'.ad ∧
    prekeys.Consumes P init.usedOtp rest

theorem agrees_of_genuine (hP : Honest P) (alice : Identity S) {bob : Identity S}
    {prekeys : PreKeySecrets} {bundle : PreKeyBundle} (hbundle : bundle.Genuine P bob prekeys.spk)
    (hheld : prekeys.Holds P (bundle.otps.head?.map (·.1))) (firstPlaintext : Bytes)
    (ek dhs fresh : Key) : Agrees P alice bob prekeys bundle firstPlaintext ek dhs fresh := by
  obtain ⟨dh4, -, hinit⟩ := x3dhInitiator_eq hP alice hbundle ek
  obtain ⟨rest, hrest, hresponder⟩ := call_x3dhResponder hP hbundle hinit hheld
  generalize hresult : ({ sk := _, ad := _ } : X3dhResult) = res at hinit hresponder
  obtain ⟨header, ct, ratchetA, ratchetB, hencrypt, hdecrypt⟩ :=
    Ratchet.first_message_opens hP res.sk prekeys.spk dhs fresh firstPlaintext res.ad
  have hinitiate : Session.initiate P alice bundle firstPlaintext ek dhs =
      .ok ({ ratchet := ratchetA, ad := res.ad },
        { ikAPub := alice.agreePublic P, ekAPub := P.x25519Public ek,
          usedOtp := bundle.otps.head?.map (·.1),
          first := { header := header, ciphertext := ct } }) := by
    rw [Session.initiate, hinit, hbundle.spkPub]
    simp only [Except.bind, bind, Ratchet.initAlice_eq hP, hencrypt, pure, Except.pure]
  exact ⟨_, _, _, _, rest, hinit, hinitiate, rfl, hresponder,
    Session.call_accept hresponder hdecrypt, rfl, hrest⟩

end Dante.Dm

namespace Dante.Relay

open Crypto Dm Method Except PrekeyStore

/-- The directory holds a part of the bundle under its id. -/
def PrekeyStore.HoldsPart (bundle : PreKeyBundle) (store : PrekeyStore) : Prop :=
  ∃ otps, otps <:+ bundle.otps ∧
    store.prekeys.lookup bundle.identityId = some (PreKeyBundle.encode { bundle with otps })

variable {bundle : PreKeyBundle} {store : PrekeyStore}

theorem sliced_part {otps : List (Key × Signature)} (hcount : otps.length < 2 ^ 32) :
    sliced (PreKeyBundle.encode { bundle with otps }) =
      otps.head?.map fun handed => (PreKeyBundle.encode { bundle with otps := otps.tail },
        PreKeyBundle.encode { bundle with otps := [handed] }) := by
  have hdecode : PreKeyBundle.decode (PreKeyBundle.encode { bundle with otps }) =
      .ok { bundle with otps } := PreKeyBundle.decode_encode hcount
  rw [sliced, hdecode]
  cases otps with
  | nil => rfl
  | cons handed rest => rfl

/-- A fetch hands out a bundle with at most one one-time prekey, and leaves the rest. -/
theorem PrekeyStore.HoldsPart.fetch (h : store.HoldsPart bundle)
    (hcount : bundle.otps.length < 2 ^ 32) :
    ∃ otps store', otps.length ≤ 1 ∧ (∀ otp ∈ otps, otp ∈ bundle.otps) ∧
      (getPrekeys false bundle.identityId).call store =
        (.ok (some (PreKeyBundle.encode { bundle with otps })), store') ∧
      store'.HoldsPart bundle := by
  obtain ⟨otps, hsuffix, hlookup⟩ := h
  have hlen := hsuffix.length_le
  rw [call_getPrekeys, hlookup]
  simp only [sliced_part (Nat.lt_of_le_of_lt hlen hcount)]
  cases otps with
  | nil => exact ⟨[], store, by simp, nofun, rfl, [], hsuffix, hlookup⟩
  | cons handed rest =>
    refine ⟨[handed], _, by simp, ?_, rfl, rest, (List.suffix_cons handed rest).trans hsuffix,
      ?_⟩
    · intro otp hotp
      rw [List.mem_singleton.mp hotp]
      exact hsuffix.subset List.mem_cons_self
    · rw [withBundle, AssocMap.lookup_insert, if_pos rfl, List.tail_cons]

/-- Whoever fetches which bundle, a part stays. -/
theorem PrekeyStore.HoldsPart.get (h : store.HoldsPart bundle)
    (hcount : bundle.otps.length < 2 ^ 32) (limited : Bool) (id : Hash) :
    (store.step (.get limited id)).HoldsPart bundle := by
  cases limited with
  | true => exact h
  | false =>
    by_cases hid : id = bundle.identityId
    · obtain ⟨_, store', -, -, hcall, hpart⟩ := h.fetch hcount
      rw [hid, step, hcall]
      exact hpart
    · obtain ⟨otps, hsuffix, hlookup⟩ := h
      refine ⟨otps, hsuffix, ?_⟩
      rw [step, call_getPrekeys]
      cases hother : store.prekeys.lookup id with
      | none => exact hlookup
      | some stored =>
        dsimp only
        cases hsliced : sliced stored with
        | none => exact hlookup
        | some cut =>
          change (store.prekeys.insert id cut.1).lookup bundle.identityId = _
          rw [AssocMap.lookup_insert, if_neg (Ne.symm hid), hlookup]

theorem holdsPart_exec (hcount : bundle.otps.length < 2 ^ 32) (h : store.HoldsPart bundle)
    (fetches : List (Bool × Hash)) :
    (Steps.exec PrekeyStore.step store (fetches.map fun f => .get f.1 f.2)).HoldsPart bundle := by
  induction fetches generalizing store with
  | nil => exact h
  | cons f fetches ih => exact ih (h.get hcount f.1 f.2)

/-- With every bundle that a relay can cut from the published one, the handshake succeeds if the
owner still holds the one-time prekey in it. And such a bundle is what the relay hands out,
whatever has been fetched before; only a list of `2 ^ 32` one-time prekeys could not be
published, and `generate` and `replenish` stop at `MAX_OTPS`. -/
theorem handshake_through_relay {P : Primitives} {S : Suite} (hP : Honest P)
    (owner initiator : Identity S) (published : PreKeySecrets) (left : List Key)
    (firstPlaintext : Bytes) (ek dhs fresh : Key) :
    let offered := published.bundle P owner
    let prekeys : PreKeySecrets := { published with otps := left }
    (∀ otps, otps.length ≤ 1 → (∀ otp ∈ otps, otp ∈ offered.otps) →
      PreKeyBundle.decode (PreKeyBundle.encode { offered with otps }) = .ok { offered with otps } ∧
      (prekeys.Holds P (otps.head?.map (·.1)) →
        Agrees P initiator owner prekeys { offered with otps } firstPlaintext ek dhs fresh)) ∧
    (offered.otps.length < 2 ^ 32 → ∀ (store : PrekeyStore) (fetches : List (Bool × Hash)),
      store.prekeys.lookup owner.id = some offered.encode →
      ∃ otps, otps.length ≤ 1 ∧ (∀ otp ∈ otps, otp ∈ offered.otps) ∧
        ((getPrekeys false owner.id).call
          (Steps.exec PrekeyStore.step store (fetches.map fun f => .get f.1 f.2))).1 =
            .ok (some (PreKeyBundle.encode { offered with otps }))) := by
  refine ⟨?_, ?_⟩
  · intro otps hone hsub
    refine ⟨PreKeyBundle.decode_encode (by dsimp only; omega), ?_⟩
    intro hheld
    -- The signed prekey is the published one, whichever one-time prekeys are left.
    have hgenuine : PreKeyBundle.Genuine P owner (PreKeySecrets.spk { published with otps := left })
        { published.bundle P owner with otps } := published.genuine_cut owner hsub
    exact agrees_of_genuine hP initiator hgenuine hheld firstPlaintext ek dhs fresh
  · intro hcount store fetches hstored
    have hstart : store.HoldsPart (published.bundle P owner) := ⟨_, List.suffix_rfl, hstored⟩
    obtain ⟨otps, store', hone, hsub, hcall, -⟩ :=
      (holdsPart_exec hcount hstart fetches).fetch hcount
    exact ⟨otps, hone, hsub, congrArg Prod.fst hcall⟩

/-- An owner with two one-time prekeys, of which the second is handed out and still held. -/
theorem handshake_through_relay_sample :
    let owner := sampleIdentity (.fill 32 1) (.fill 32 2)
    let alice := sampleIdentity (.fill 32 3) (.fill 32 4)
    let published : PreKeySecrets := { spk := .fill 32 5, otps := [.fill 32 6, .fill 32 7] }
    let offered := published.bundle samplePrimitives owner
    Agrees samplePrimitives alice owner { published with otps := [.fill 32 7] }
      { offered with otps := offered.otps.drop 1 } [1, 2] (.fill 32 8) (.fill 32 9)
      (.fill 32 10) := by
  intro owner alice published offered
  obtain ⟨hagrees, -⟩ := handshake_through_relay samplePrimitives_honest owner alice published
    [.fill 32 7] [1, 2] (.fill 32 8) (.fill 32 9) (.fill 32 10)
  refine (hagrees (offered.otps.drop 1) (by simp [offered, published, PreKeySecrets.bundle])
    (fun otp hotp => List.mem_of_mem_drop hotp)).2 ?_
  decide +kernel

end Dante.Relay
