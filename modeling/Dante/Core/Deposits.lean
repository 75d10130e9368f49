import Dante.Core.Polling
import Dante.Core.SealedSender
import Dante.Dm.Bundle
import Dante.Dm.Opening

/-!
Two clients write to each other through a relay that may refuse a deposit. `send_content` advances
the session before it deposits, and returns the relay's error without going back, so that the peer
never sees some of the messages of a ratchet. Alice writes first.
-/

namespace Dante.Core

open Crypto Dm Net

section People

variable {P : Primitives} {S : Suite}

/-- What neither sending nor receiving changes about a client. -/
structure Client.SamePerson (client client' : Client S) : Prop where
  identity : client'.identity = client.identity
  blocked : client'.blocked = client.blocked
  spk : client'.prekeys.spk = client.prekeys.spk

namespace Client

theorem SamePerson.refl (client : Client S) : client.SamePerson client := ⟨rfl, rfl, rfl⟩

theorem SamePerson.openEnvelope {client client' : Client S} (h : client.SamePerson client')
    (env : Envelope) : client'.openEnvelope P env = client.openEnvelope P env := by
  rw [Client.openEnvelope, Client.openEnvelope, h.identity, h.blocked]

theorem SameButSessions.samePerson {client client' : Client S}
    (h : client.SameButSessions client') : client.SamePerson client' := by
  obtain ⟨sessions, rfl⟩ := h
  exact ⟨rfl, rfl, rfl⟩

theorem SamePerson.update {clients : Party → Client S} {p : Party} {client : Client S}
    (h : (clients p).SamePerson client) (q : Party) :
    (clients q).SamePerson (Function.update clients p client q) := by
  rcases Party.eq_or_other p q with rfl | rfl
  · rwa [Function.update_self]
  · rw [Function.update_of_ne (Party.other_ne p)]
    exact .refl _

theorem receiveEnvelope_samePerson (client : Client S) (env : Envelope) (fresh : Key) :
    client.SamePerson (client.receiveEnvelope P env fresh).2 := by
  obtain ⟨prekeys, sessions, hframe, hspk, -⟩ := client.receiveEnvelope_frame (P := P) env fresh
  rw [hframe]
  exact ⟨rfl, rfl, hspk⟩

end Client

end People

/-- Both clients, for each the envelopes that wait for it with their plaintexts, what became of
those that were returned, and the public keys of all ratchet secrets drawn so far. -/
structure Line (S : Suite) where
  client : Party → Client S
  mailbox : Party → List (Envelope × Bytes)
  log : List (Party × Bytes × Receipt)
  drawn : List Key

namespace Line

inductive Op where
  /-- The relay's answer to the deposit is `answer`. -/
  | send (sender : Party) (content : Content) (bundle : PreKeyBundle) (nowMs : UInt64)
      (secrets : SendSecrets) (answer : Except NetError Unit)
  /-- A poll returns the next envelope. -/
  | deliver (recipient : Party) (fresh : Key)
  /-- The next envelope is never returned. -/
  | lose (recipient : Party)

section Steps

variable (P : Primitives) {S : Suite} (line : Line S)

def peerIdk (p : Party) : Key := (line.client p.other).identity.idk

def session (p : Party) : Option Session := (line.client p).sessions.lookup (line.peerIdk p)

def packet (p : Party) (env : Envelope) : Option Packet :=
  ((line.client p).openEnvelope P env).toOption.map (·.2)

def isInit (p : Party) (env : Envelope) : Bool :=
  match line.packet P p env with
  | some (.init _) => true
  | _ => false

/-- `send_content` to the other party, which is in the ledger. -/
def sendContent (sender : Party) (content : Content) (bundle : PreKeyBundle) (nowMs : UInt64)
    (secrets : SendSecrets) (answer : Except NetError Unit) :
    Except CoreError Envelope × Client S :=
  let peer := (line.client sender.other).identity
  (Client.sendContent P (fun _ => some { idk := peer.idk, ik := peer.agreePublic P })
    (fun _ => .ok bundle) (fun _ => answer) peer.id content nowMs dmTtlMs secrets).call
    (line.client sender)

def step : Op → Line S
  | .send sender content bundle nowMs secrets answer =>
    let (result, client) := line.sendContent P sender content bundle nowMs secrets answer
    { line with
      client := Function.update line.client sender client
      mailbox := Function.update line.mailbox sender.other (line.mailbox sender.other ++
        (result.toOption.map fun env => (env, content.encode)).toList)
      drawn := P.x25519Public secrets.dhs :: line.drawn }
  | .deliver p fresh =>
    match line.mailbox p with
    | [] => line
    | (env, plaintext) :: rest =>
      let (receipt, client) := (line.client p).receiveEnvelope P env fresh
      { client := Function.update line.client p client
        mailbox := Function.update line.mailbox p rest
        log := line.log ++ [(p, plaintext, receipt)]
        drawn := P.x25519Public fresh :: line.drawn }
  | .lose p => { line with mailbox := Function.update line.mailbox p (line.mailbox p).tail }

/-- Bob published the bundle, and has the one-time prekey at its front. -/
def Serves (bundle : PreKeyBundle) : Prop :=
  let bob := line.client .bob
  bundle.verify S = .ok () ∧ bundle.ikPub = bob.identity.agreePublic P ∧
    bundle.spkPub = P.x25519Public bob.prekeys.spk ∧
    bob.prekeys.Holds P (bundle.otps.head?.map (·.1))

instance (bundle : PreKeyBundle) : Decidable (line.Serves P bundle) :=
  inferInstanceAs (Decidable (_ ∧ _ ∧ _ ∧ PreKeySecrets.Holds P _ _))

/-- The runs in question. But for the deposit, `send_content` returns `Ok`. The first contact is
Alice's, with a bundle that Bob published. What `generate` returns is new, and so is every envelope
to the duplicate filter. -/
def Fair : Op → Prop
  | .send sender content bundle nowMs secrets _ =>
    (line.sendContent P sender content bundle nowMs secrets (.ok ())).1.isOk = true ∧
      (line.session sender = none → sender = .alice ∧ line.Serves P bundle ∧
        P.x25519Public secrets.dhs ∉ line.drawn)
  | .deliver p fresh =>
    P.x25519Public fresh ∉ line.drawn ∧
      ∀ mail ∈ (line.mailbox p).head?, envelopeTag S mail.1 ∉ (line.client p).seen.seen
  | .lose _ => True

instance (op : Op) : Decidable (line.Fair P op) :=
  match op with
  | .send _ _ _ _ _ _ => inferInstanceAs (Decidable (_ ∧ (_ → _ ∧ line.Serves P _ ∧ _)))
  | .deliver p _ =>
    inferInstanceAs (Decidable (_ ∧ ∀ mail ∈ (line.mailbox p).head?, _ ∉ _))
  | .lose _ => isTrue trivial

/-- The deposit of the first contact succeeds and the first contact is returned; and where a
session is there, no more than `MAX_SKIP` messages are missing before the one that is returned,
and no `u32` counter overflows. -/
def Unbroken : Op → Prop
  | .send sender _ _ _ _ answer =>
    (line.session sender = none → answer = .ok ()) ∧
      ∀ session ∈ line.session sender, session.ratchet.ns.toNat + 1 < 2 ^ 32
  | .deliver p _ =>
    ∀ mail ∈ (line.mailbox p).head?, ∀ packet ∈ line.packet P p mail.1,
      ∀ session ∈ line.session p, WithinSkip session.ratchet packet.dm.header ∧
        session.ratchet.nr.toNat + maxSkip.toNat < 2 ^ 32
  | .lose p => ∀ mail ∈ (line.mailbox p).head?, line.isInit P p mail.1 = false

instance (op : Op) : Decidable (line.Unbroken P op) :=
  match op with
  | .send sender _ _ _ _ _ =>
    inferInstanceAs (Decidable (_ ∧ ∀ session ∈ line.session sender, _ < _))
  | .deliver p _ =>
    inferInstanceAs (Decidable (∀ mail ∈ (line.mailbox p).head?, ∀ packet ∈ line.packet P p mail.1,
      ∀ session ∈ line.session p, _ ∧ _))
  | .lose p => inferInstanceAs (Decidable (∀ mail ∈ (line.mailbox p).head?, _ = _))

/-- The two have not been in contact, and neither blocks the other. -/
structure Strangers : Prop where
  session : ∀ p, line.session p = none
  mailbox : ∀ p, line.mailbox p = []
  log : line.log = []
  unblocked : ∀ p, idkToId S (line.peerIdk p) ∉ (line.client p).blocked
  spk : P.x25519Public (line.client .bob).prekeys.spk ∈ line.drawn

def message (p : Party) (mail : Envelope × Bytes) : Message :=
  let msg := ((line.packet P p mail.1).map Packet.dm).getD
    { header := { dh := .fill 32 0, pn := 0, n := 0 }, ciphertext := [] }
  { recipient := p, header := msg.header, ct := msg.ciphertext, plaintext := mail.2 }

end Steps

section Frame

variable {P : Primitives} {S : Suite} {line : Line S}

def SamePeople (line line' : Line S) : Prop :=
  ∀ p, (line.client p).SamePerson (line'.client p)

theorem sendContent_frame (line : Line S) (sender : Party) (content : Content)
    (bundle : PreKeyBundle) (nowMs : UInt64) (secrets : SendSecrets)
    (answer : Except NetError Unit) :
    (line.client sender).SameButSessions
      (line.sendContent P sender content bundle nowMs secrets answer).2 :=
  Client.sendContent_frame _ _ _ _ _ _ _ _ _

theorem step_send {sender : Party} {content : Content} {bundle : PreKeyBundle} {nowMs : UInt64}
    {secrets : SendSecrets} {env : Envelope} {client : Client S}
    (hsend : line.sendContent P sender content bundle nowMs secrets (.ok ()) = (.ok env, client))
    (answer : Except NetError Unit) :
    line.step P (.send sender content bundle nowMs secrets answer) =
      { line with
        client := Function.update line.client sender client
        mailbox := Function.update line.mailbox sender.other (line.mailbox sender.other ++
          (answer.toOption.map fun _ => (env, content.encode)).toList)
        drawn := P.x25519Public secrets.dhs :: line.drawn } := by
  have hcall : line.sendContent P sender content bundle nowMs secrets answer =
      ((answer.mapError .net).map fun _ => env, client) :=
    Client.call_sendContent_deposit hsend fun _ => answer
  simp only [step, hcall]
  cases answer <;> rfl

theorem step_deliver_nil {p : Party} {fresh : Key} (hnil : line.mailbox p = []) :
    line.step P (.deliver p fresh) = line := by
  simp only [step, hnil]

theorem step_deliver {p : Party} {fresh : Key} {mail : Envelope × Bytes}
    {rest : List (Envelope × Bytes)} {receipt : Receipt} {client : Client S}
    (hmail : line.mailbox p = mail :: rest)
    (hreceive : (line.client p).receiveEnvelope P mail.1 fresh = (receipt, client)) :
    line.step P (.deliver p fresh) =
      { client := Function.update line.client p client
        mailbox := Function.update line.mailbox p rest
        log := line.log ++ [(p, mail.2, receipt)]
        drawn := P.x25519Public fresh :: line.drawn } := by
  simp only [step, hmail, hreceive]

theorem step_samePeople (line : Line S) (op : Op) : line.SamePeople (line.step P op) := by
  cases op with
  | send sender content bundle nowMs secrets answer =>
    exact (line.sendContent_frame sender content bundle nowMs secrets answer).samePerson.update
  | deliver p fresh =>
    cases hmail : line.mailbox p with
    | nil =>
      rw [step_deliver_nil hmail]
      exact fun _ => .refl _
    | cons mail rest =>
      rw [step_deliver hmail rfl]
      exact (Client.receiveEnvelope_samePerson _ _ _).update
  | lose p => exact fun _ => .refl _

namespace SamePeople

variable {line' : Line S} (h : line.SamePeople line')
include h

theorem peerIdk (p : Party) : line'.peerIdk p = line.peerIdk p := by
  rw [Line.peerIdk, Line.peerIdk, (h p.other).identity]

theorem packet (p : Party) (env : Envelope) : line'.packet P p env = line.packet P p env := by
  rw [Line.packet, Line.packet, (h p).openEnvelope]

theorem isInit (p : Party) (env : Envelope) : line'.isInit P p env = line.isInit P p env := by
  rw [Line.isInit, Line.isInit, h.packet]

theorem message (p : Party) : line'.message P p = line.message P p := by
  funext mail
  rw [Line.message, Line.message, h.packet]

theorem session {p : Party} (hclient : line'.client p = line.client p) :
    line'.session p = line.session p := by
  rw [Line.session, Line.session, h.peerIdk, hclient]

end SamePeople

theorem message_of_packet {p : Party} {env : Envelope} {packet : Packet}
    (h : line.packet P p env = some packet) (plaintext : Bytes) :
    line.message P p (env, plaintext) =
      { recipient := p, header := packet.dm.header, ct := packet.dm.ciphertext,
        plaintext := plaintext } := by
  rw [message, h]
  rfl

end Frame

/-- The clients are in step with two ratchets that talk to each other: Alice's is one of them, and
what waits for a party is among the messages in flight, in the same order. -/
structure Exchange (P : Primitives) {S : Suite} (line : Line S) (res : X3dhResult) (w : World) :
    Prop where
  unblocked : ∀ p, idkToId S (line.peerIdk p) ∉ (line.client p).blocked
  inv : ∃ g idx, SessionInv P res.sk res.ad g idx w
  drawn : ∀ key ∈ w.drawn, key ∈ line.drawn
  alice : line.session .alice = some { ratchet := w.ratchet .alice, ad := res.ad }
  opens : ∀ p, ∀ mail ∈ line.mailbox p, ∃ packet,
    (line.client p).openEnvelope P mail.1 = .ok (line.peerIdk p, packet)
  flight : ∀ p, ((line.mailbox p).map (line.message P p)).Sublist w.inFlight

/-- The first contact is the next envelope for Bob, who has no ratchet yet. -/
structure Awaiting (P : Primitives) {S : Suite} (line : Line S) (res : X3dhResult) (w : World) :
    Prop extends Exchange P line res w where
  none : line.session .bob = none
  ratchet : w.ratchet .bob = Ratchet.initBob res.sk (line.client .bob).prekeys.spk
  empty : line.mailbox .alice = []
  first : ∃ mail rest init, line.mailbox .bob = mail :: rest ∧
    line.packet P .bob mail.1 = some (.init init) ∧
    init.LeadsTo P (line.client .alice).identity (line.client .bob).identity
      (line.client .bob).prekeys.spk res ∧
    (line.client .bob).prekeys.Holds P init.usedOtp ∧
    init.first.header.pn = 0 ∧ init.first.header.n = 0 ∧
    ∀ other ∈ rest, line.isInit P .bob other.1 = false

/-- Both have their ratchet, and nothing but messages waits for them. -/
structure Established (P : Primitives) {S : Suite} (line : Line S) (res : X3dhResult)
    (w : World) : Prop extends Exchange P line res w where
  bob : line.session .bob = some { ratchet := w.ratchet .bob, ad := res.ad }
  messages : ∀ p, ∀ mail ∈ line.mailbox p, line.isInit P p mail.1 = false

section Send

variable {P : Primitives} {S : Suite} {line : Line S} {sender : Party} {content : Content}
  {bundle : PreKeyBundle} {nowMs : UInt64} {secrets : SendSecrets} {env : Envelope}
  {client : Client S}
variable {res : X3dhResult}

theorem sendContent_eq_ok (hP : Honest P)
    (hunblocked : ∀ p, idkToId S (line.peerIdk p) ∉ (line.client p).blocked)
    (hsend : line.sendContent P sender content bundle nowMs secrets (.ok ()) = (.ok env, client)) :
    ∃ packet,
      (Client.preparePacket P (line.client sender.other).identity.id
          { idk := line.peerIdk sender, ik := (line.client sender.other).identity.agreePublic P }
          (.ok bundle) content.encode secrets).call (line.client sender) = (.ok packet, client) ∧
      (line.client sender.other).openEnvelope P env =
        .ok (line.peerIdk sender.other, packet) := by
  obtain ⟨peer, packet, hpeer, hprepare, hseal⟩ := Client.sendContent_eq_ok hsend
  obtain rfl := Option.some.inj hpeer
  refine ⟨packet, hprepare, ?_⟩
  have hidk : line.peerIdk sender.other = (line.client sender).identity.idk := by
    rw [peerIdk, Party.other_other]
  have hpeer := hunblocked sender.other
  rw [hidk] at hpeer ⊢
  exact Client.openEnvelope_sealWith hP hpeer hseal

theorem Established.session {w : World} (h : line.Established P res w) (p : Party) :
    line.session p = some { ratchet := w.ratchet p, ad := res.ad } := by
  cases p with
  | alice => exact h.alice
  | bob => exact h.bob

variable (answer : Except NetError Unit)

theorem client_send_other :
    (line.step P (.send sender content bundle nowMs secrets answer)).client sender.other =
      line.client sender.other :=
  Function.update_of_ne (Party.other_ne _) _ _

theorem session_send_other :
    (line.step P (.send sender content bundle nowMs secrets answer)).session sender.other =
      line.session sender.other :=
  (line.step_samePeople _).session (client_send_other answer)

variable
  (hsend : line.sendContent P sender content bundle nowMs secrets (.ok ()) = (.ok env, client))

include hsend

theorem session_send_self :
    (line.step P (.send sender content bundle nowMs secrets answer)).session sender =
      client.sessions.lookup (line.peerIdk sender) := by
  rw [session, (line.step_samePeople _).peerIdk, step_send hsend]
  dsimp only
  rw [Function.update_self]

theorem mailbox_send_self :
    (line.step P (.send sender content bundle nowMs secrets answer)).mailbox sender =
      line.mailbox sender := by
  rw [step_send hsend]
  exact Function.update_of_ne (Party.other_ne sender).symm _ _

theorem mailbox_send_other :
    (line.step P (.send sender content bundle nowMs secrets answer)).mailbox sender.other =
      line.mailbox sender.other ++
        (answer.toOption.map fun _ => (env, content.encode)).toList := by
  rw [step_send hsend]
  exact Function.update_self _ _ _

theorem Exchange.send {w : World} (h : line.Exchange P res w) (hP : Honest P)
    (hsession : line.session sender = some { ratchet := w.ratchet sender, ad := res.ad })
    (hfit : (w.ratchet sender).ns.toNat + 1 < 2 ^ 32) :
    ∃ w', (line.step P (.send sender content bundle nowMs secrets answer)).Exchange P res w' ∧
      (line.step P (.send sender content bundle nowMs secrets answer)).session sender =
        some { ratchet := w'.ratchet sender, ad := res.ad } ∧
      w'.ratchet sender.other = w.ratchet sender.other ∧
      line.isInit P sender.other env = false := by
  obtain ⟨packet, hprepare, hopen⟩ := sendContent_eq_ok hP h.unblocked hsend
  obtain ⟨msg, session, hencrypt, rfl, rfl⟩ :=
    Client.preparePacket_session (by exact hsession) hprepare
  obtain ⟨hcall, had⟩ := Session.call_encrypt_eq_ok hencrypt
  dsimp only at hcall had
  have hready : (w.ratchet sender).cks ≠ none := by
    intro hnone
    rw [Ratchet.call_encrypt_none P hnone] at hcall
    cases hcall
  have hpacket : line.packet P sender.other env = some (.message msg) := by
    rw [packet, hopen]
    rfl
  have hworld := World.step_send hcall
  have hself : (w.step P res.ad (.send sender content.encode)).ratchet sender = session.ratchet := by
    rw [hworld]
    exact Function.update_self _ _ _
  have hother : (w.step P res.ad (.send sender content.encode)).ratchet sender.other =
      w.ratchet sender.other := by
    rw [hworld]
    exact Function.update_of_ne (Party.other_ne _) _ _
  have hsession' : (line.step P (.send sender content bundle nowMs secrets answer)).session sender =
      some { ratchet := (w.step P res.ad (.send sender content.encode)).ratchet sender
             ad := res.ad } := by
    rw [session_send_self answer hsend, AList.lookup_insert, hself, ← had]
  have hpeople := line.step_samePeople (P := P) (.send sender content bundle nowMs secrets answer)
  refine ⟨w.step P res.ad (.send sender content.encode), ?_, hsession', hother,
    by rw [isInit, hpacket]⟩
  constructor
  case unblocked =>
    intro p
    rw [hpeople.peerIdk, (hpeople p).blocked]
    exact h.unblocked p
  case inv =>
    obtain ⟨g, idx, hinv⟩ := h.inv
    exact ⟨_, idx, hinv.step_send hready hfit⟩
  case drawn =>
    intro key hkey
    rw [hworld] at hkey
    rw [step_send hsend]
    exact List.mem_cons_of_mem _ (h.drawn key hkey)
  case alice =>
    rcases Party.eq_or_other sender .alice with halice | halice
    · rw [halice]
      exact hsession'
    · rw [halice, session_send_other, hother, ← halice]
      exact h.alice
  case opens =>
    intro p mail hmail
    rw [(hpeople p).openEnvelope, hpeople.peerIdk]
    rcases Party.eq_or_other sender p with rfl | rfl
    · rw [mailbox_send_self answer hsend] at hmail
      exact h.opens p mail hmail
    · rw [mailbox_send_other answer hsend] at hmail
      rcases List.mem_append.mp hmail with hold | hnew
      · exact h.opens _ mail hold
      · obtain ⟨-, -, rfl⟩ := Option.map_eq_some_iff.mp (Option.mem_toList.mp hnew)
        exact ⟨_, hopen⟩
  case flight =>
    intro p
    rw [hpeople.message, hworld]
    rcases Party.eq_or_other sender p with rfl | rfl
    · rw [mailbox_send_self answer hsend]
      exact (h.flight p).trans (List.sublist_append_left _ _)
    · rw [mailbox_send_other answer hsend, List.map_append]
      apply (h.flight _).append
      cases answer with
      | error e => exact List.nil_sublist _
      | ok accepted =>
        simp [Except.toOption, message_of_packet hpacket, Packet.dm]

theorem Established.send {w : World} (h : line.Established P res w) (hP : Honest P)
    (hfit : (w.ratchet sender).ns.toNat + 1 < 2 ^ 32) :
    ∃ w', (line.step P (.send sender content bundle nowMs secrets answer)).Established P res w' := by
  obtain ⟨w', hexchange, hself, hother, hmessage⟩ :=
    h.toExchange.send answer hsend hP (h.session sender) hfit
  have hpeople := line.step_samePeople (P := P) (.send sender content bundle nowMs secrets answer)
  refine ⟨w', hexchange, ?_, ?_⟩
  · rcases Party.eq_or_other sender .bob with hbob | hbob
    · rw [hbob]
      exact hself
    · rw [hbob, session_send_other, hother]
      exact h.session _
  · intro p mail hmail
    rw [hpeople.isInit]
    rcases Party.eq_or_other sender p with rfl | rfl
    · rw [mailbox_send_self answer hsend] at hmail
      exact h.messages p mail hmail
    · rw [mailbox_send_other answer hsend] at hmail
      rcases List.mem_append.mp hmail with hold | hnew
      · exact h.messages _ mail hold
      · obtain ⟨-, -, rfl⟩ := Option.map_eq_some_iff.mp (Option.mem_toList.mp hnew)
        exact hmessage

omit hsend

theorem Awaiting.send {w : World} (h : line.Awaiting P res w) (hP : Honest P)
    (hsend : line.sendContent P .alice content bundle nowMs secrets (.ok ()) = (.ok env, client))
    (hfit : (w.ratchet .alice).ns.toNat + 1 < 2 ^ 32) (answer : Except NetError Unit) :
    ∃ w', (line.step P (.send .alice content bundle nowMs secrets answer)).Awaiting P res w' := by
  obtain ⟨w', hexchange, -, hother, hmessage⟩ := h.toExchange.send answer hsend hP h.alice hfit
  have hpeople := line.step_samePeople (P := P) (.send .alice content bundle nowMs secrets answer)
  refine ⟨w', hexchange, (session_send_other answer).trans h.none, ?_,
    (mailbox_send_self answer hsend).trans h.empty, ?_⟩
  · rw [(hpeople .bob).spk]
    exact hother.trans h.ratchet
  · obtain ⟨mail, rest, init, hmail, hpacket, hleads, hheld, hpn, hn, hrest⟩ := h.first
    have hclient : (line.step P (.send .alice content bundle nowMs secrets answer)).client .bob =
      line.client .bob := client_send_other answer
    refine ⟨mail, rest ++ (answer.toOption.map fun _ => (env, content.encode)).toList, init, ?_, ?_,
      ?_, ?_, hpn, hn, ?_⟩
    · rw [show Party.bob = Party.alice.other from rfl, mailbox_send_other answer hsend]
      exact congrArg (· ++ _) hmail
    · rw [hpeople.packet, hpacket]
    · rw [(hpeople .alice).identity, (hpeople .bob).identity, (hpeople .bob).spk]
      exact hleads
    · rw [hclient]
      exact hheld
    · intro other hmem
      rw [hpeople.isInit]
      rcases List.mem_append.mp hmem with hold | hnew
      · exact hrest other hold
      · obtain ⟨-, -, rfl⟩ := Option.map_eq_some_iff.mp (Option.mem_toList.mp hnew)
        exact hmessage

end Send

theorem Serves.genuine {P : Primitives} {S : Suite} {line : Line S} {bundle : PreKeyBundle}
    (h : line.Serves P bundle) :
    bundle.Genuine P (line.client .bob).identity (line.client .bob).prekeys.spk := by
  obtain ⟨hverified, hik, hspk, hheld⟩ := h
  refine ⟨hverified, hik, hspk, ?_⟩
  intro otp hotp
  obtain ⟨secret, -, hsecret⟩ := hheld otp.1 (by rw [hotp]; rfl)
  exact ⟨secret, hsecret.symm⟩

theorem Strangers.contact {P : Primitives} {S : Suite} {line : Line S} {content : Content}
    {bundle : PreKeyBundle} {nowMs : UInt64} {secrets : SendSecrets} {env : Envelope}
    {client : Client S} (h : line.Strangers P) (hP : Honest P)
    (hsend : line.sendContent P .alice content bundle nowMs secrets (.ok ()) = (.ok env, client))
    (hserves : line.Serves P bundle) (hfresh : P.x25519Public secrets.dhs ∉ line.drawn) :
    ∃ res w, (line.step P (.send .alice content bundle nowMs secrets (.ok ()))).Awaiting P res w := by
  obtain ⟨packet, hprepare, hopen⟩ := sendContent_eq_ok hP h.unblocked hsend
  obtain ⟨session, init, hinit, rfl, rfl⟩ :=
    Client.preparePacket_first (by exact h.session .alice) hprepare
  have hdistinct : P.x25519Public (line.client .bob).prekeys.spk ≠ P.x25519Public secrets.dhs :=
    fun heq => hfresh (heq ▸ h.spk)
  obtain ⟨res, w, hleads, hused, hopening⟩ := Session.initiate_opens hP hserves.genuine hdistinct hinit
  have hpeople := line.step_samePeople (P := P) (.send .alice content bundle nowMs secrets (.ok ()))
  have hpacket : line.packet P .bob env = some (.init init) := by
    rw [packet]
    exact congrArg (fun result => (Except.toOption result).map _) hopen
  have halice : (line.step P (.send .alice content bundle nowMs secrets (.ok ()))).mailbox .alice =
      [] := (mailbox_send_self _ hsend).trans (h.mailbox .alice)
  have hbob : (line.step P (.send .alice content bundle nowMs secrets (.ok ()))).mailbox .bob =
      [(env, content.encode)] := by
    rw [show Party.bob = Party.alice.other from rfl, mailbox_send_other _ hsend, h.mailbox]
    rfl
  have hclient : (line.step P (.send .alice content bundle nowMs secrets (.ok ()))).client .bob =
    line.client .bob := client_send_other _
  refine ⟨res, w, ?_, (session_send_other _).trans (h.session .bob), ?_, halice, ?_⟩
  · constructor
    case unblocked =>
      intro p
      rw [hpeople.peerIdk, (hpeople p).blocked]
      exact h.unblocked p
    case inv => exact hopening.inv
    case drawn =>
      intro key hkey
      rw [hopening.drawn] at hkey
      rw [step_send hsend]
      rcases List.mem_cons.mp hkey with rfl | hkey
      · exact List.mem_cons_of_mem _ h.spk
      · rw [List.mem_singleton.mp hkey]
        exact List.mem_cons_self
    case alice =>
      rw [session_send_self _ hsend, AList.lookup_insert, hopening.alice]
    case opens =>
      intro p mail hmail
      cases p with
      | alice =>
        rw [halice] at hmail
        cases hmail
      | bob =>
        rw [hbob] at hmail
        rw [List.mem_singleton.mp hmail, (hpeople .bob).openEnvelope, hpeople.peerIdk]
        exact ⟨_, hopen⟩
    case flight =>
      intro p
      cases p with
      | alice =>
        rw [halice]
        exact List.nil_sublist _
      | bob =>
        rw [hbob, hpeople.message, hopening.inFlight, List.map_singleton,
          message_of_packet hpacket]
        exact List.Sublist.refl _
  · rw [(hpeople .bob).spk]
    exact hopening.bob
  · refine ⟨_, [], init, hbob, ?_, ?_, ?_, hopening.pn, hopening.n, by simp⟩
    · rw [hpeople.packet, hpacket]
    · rw [(hpeople .alice).identity, (hpeople .bob).identity, (hpeople .bob).spk]
      exact hleads
    · rw [hclient, hused]
      exact hserves.2.2.2

end Line

end Dante.Core
