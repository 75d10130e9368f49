import Dante.Dm.DeliveryRun
import Dante.Dm.Session

/-!
How a session opens. The first message is in flight before the responder has a ratchet
at all, so that the world of the two ratchets begins with the one that the responder
will compute from the handshake.
-/

namespace Dante.Dm

open Crypto Ratchet

/-- The two ratchets when only the first message is in flight: the initiator is Alice, and has
drawn `dhs`; the signed prekey of the responder is `spk`. -/
structure Opening (P : Primitives) (res : X3dhResult) (spk dhs : Key) (init : InitMessage)
    (first : Bytes) (session : Session) (w : World) : Prop where
  inv : ∃ g idx, SessionInv P res.sk res.ad g idx w
  alice : session = { ratchet := w.ratchet .alice, ad := res.ad }
  bob : w.ratchet .bob = initBob res.sk spk
  inFlight : w.inFlight =
    [{ recipient := .bob, header := init.first.header, ct := init.first.ciphertext
       plaintext := first }]
  drawn : w.drawn = [P.x25519Public spk, P.x25519Public dhs]
  /-- It is the first message of its chain. -/
  pn : init.first.header.pn = 0
  n : init.first.header.n = 0

variable {P : Primitives} {S : Suite}

theorem Session.initiate_opens (hP : Honest P) {me peer : Identity S} {bundle : PreKeyBundle}
    {spk ek dhs : Key} {first : Bytes} {session : Session} {init : InitMessage}
    (hgenuine : bundle.Genuine P peer spk)
    (hdistinct : P.x25519Public spk ≠ P.x25519Public dhs)
    (hok : Session.initiate P me bundle first ek dhs = .ok (session, init)) :
    ∃ res w, init.LeadsTo P me peer spk res ∧ init.usedOtp = bundle.otps.head?.map (·.1) ∧
      Opening P res spk dhs init first session w := by
  obtain ⟨hs, ratchet, hhandshake, hratchet, hencrypt, had, hik, hek, hotp⟩ :=
    Session.initiate_eq_ok hok
  have hused : hs.usedOtp = bundle.otps.head?.map (·.1) := by
    obtain ⟨dh4, -, heq⟩ := x3dhInitiator_eq hP me hgenuine ek
    rw [Except.ok.inj (hhandshake.symm.trans heq)]
  have hinitiator : ratchet = initiator P hs.result.sk spk dhs := by
    rw [hgenuine.spkPub, initAlice_eq hP] at hratchet
    exact (Except.ok.inj hratchet).symm
  let start := World.initial P hs.result.sk spk dhs
  obtain ⟨cks, hcks⟩ : ∃ cks, (start.ratchet .alice).cks = some cks := ⟨_, rfl⟩
  have hcall : (Ratchet.encrypt P first hs.result.ad).call (start.ratchet .alice) =
      (.ok (init.first.header, init.first.ciphertext), session.ratchet) := by
    rw [← had, ← hencrypt, hinitiator]
    rfl
  have hheader : init.first.header = nextHeader P (start.ratchet .alice) := by
    rw [call_encrypt_some P hcks, Prod.mk.injEq, Except.ok.injEq, Prod.mk.injEq] at hcall
    exact hcall.1.1.symm
  have hstep := World.step_send hcall
  refine ⟨hs.result, start.step P hs.result.ad (.send .alice first),
    ⟨bundle, ek, hs, hgenuine, hhandshake, rfl, hik, hek, hotp⟩, hotp.trans hused, ?_⟩
  constructor
  case inv =>
    have hready : (start.ratchet .alice).cks ≠ none := hcks ▸ Option.some_ne_none cks
    have hfit : (start.ratchet .alice).ns.toNat + 1 < 2 ^ 32 := by
      change (0 : UInt32).toNat + 1 < 2 ^ 32
      decide
    exact ⟨_, _, (sessionInv_start hP hs.result.ad hdistinct).step_send hready hfit⟩
  case alice =>
    rw [hstep]
    dsimp only
    rw [Function.update_self, ← had]
  case bob =>
    have hne : Party.bob ≠ Party.alice := by decide
    rw [hstep]
    dsimp only
    rw [Function.update_of_ne hne]
    rfl
  case inFlight => rw [hstep]; rfl
  case drawn => rw [hstep]; rfl
  case pn => rw [hheader]; rfl
  case n => rw [hheader]; rfl

end Dante.Dm
