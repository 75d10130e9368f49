import Dante.Core.Deposits

/-!
Deposits that fail. A message that is missing costs the peer one skipped key. But if it is
the first contact that is missing, the next message is one of a session that the peer has
never heard of.
-/

namespace Dante.Core.Line

open Crypto Dm Net

section Deliver

variable {P : Primitives} {S : Suite} {line : Line S} {res : X3dhResult} {w : World} {p : Party}
  {env : Envelope} {plaintext : Bytes} {rest : List (Envelope × Bytes)} {packet : Packet}
  {fresh : Key}

theorem nodup_inFlight {sk : Key} {ad : Bytes} {g : Ghost} {idx : Party → Nat}
    (hinv : SessionInv P sk ad g idx w) : w.inFlight.Nodup :=
  hinv.nodup.of_map _

theorem Exchange.decrypt (h : line.Exchange P res w) (hP : Honest P)
    (hmail : line.mailbox p = (env, plaintext) :: rest)
    (hpacket : line.packet P p env = some packet)
    (hwithin : WithinSkip (w.ratchet p) packet.dm.header)
    (hfit : (w.ratchet p).nr.toNat + maxSkip.toNat < 2 ^ 32)
    (hfresh : P.x25519Public fresh ∉ line.drawn) :
    ∃ ratchet w',
      (Ratchet.decrypt P fresh packet.dm.header packet.dm.ciphertext res.ad).call (w.ratchet p) =
        (.ok plaintext, ratchet) ∧
      w'.ratchet = Function.update w.ratchet p ratchet ∧
      (∃ g idx, SessionInv P res.sk res.ad g idx w') ∧
      (∀ key ∈ w'.drawn, key = P.x25519Public fresh ∨ key ∈ w.drawn) ∧
      ∀ q, ((Function.update line.mailbox p rest q).map (line.message P q)).Sublist w'.inFlight := by
  obtain ⟨g, idx, hinv⟩ := h.inv
  let m : Message :=
    { recipient := p, header := packet.dm.header, ct := packet.dm.ciphertext
      plaintext := plaintext }
  have hflight := h.flight p
  rw [hmail, List.map_cons, message_of_packet hpacket] at hflight
  obtain ⟨index, hindex⟩ := List.mem_iff_getElem?.mp (hflight.subset List.mem_cons_self)
  have hallowed : w.Allowed P (.deliver index fresh) := by
    intro m' hm'
    obtain rfl := Option.some.inj (hindex.symm.trans hm')
    exact ⟨hwithin, fun hdrawn => hfresh (h.drawn _ hdrawn)⟩
  have hfits : w.CountersFit (.deliver index fresh) := by
    intro m' hm'
    obtain rfl := Option.some.inj (hindex.symm.trans hm')
    exact Or.inr hfit
  obtain ⟨-, g', j', ratchet, -, -, hcall, -, hinv'⟩ := hinv.delivered hP hallowed hfits hindex
  have hstep := World.step_deliver hindex hcall
  refine ⟨ratchet, _, hcall, by rw [hstep], ⟨g', _, hinv'⟩, ?_, ?_⟩
  · intro key hkey
    rw [hstep] at hkey
    dsimp only at hkey
    split at hkey
    · exact List.mem_cons.mp hkey
    · exact Or.inr hkey
  · -- the message is taken out of the ones in flight, where it stood once
    intro q
    obtain ⟨hlt, hget⟩ := List.getElem?_eq_some_iff.mp hindex
    have herase : w.inFlight.eraseIdx index = w.inFlight.erase m := by
      rw [← (nodup_inFlight hinv).erase_getElem index hlt, hget]
    rw [hstep]
    dsimp only
    rw [herase]
    rcases Party.eq_or_other p q with rfl | rfl
    · have hrest := hflight.erase m
      rw [List.erase_cons_head] at hrest
      rwa [Function.update_self]
    · rw [Function.update_of_ne (Party.other_ne _)]
      have hother : m ∉ (line.mailbox p.other).map (line.message P p.other) := by
        intro hmem
        obtain ⟨mail, -, hmessage⟩ := List.mem_map.mp hmem
        exact Party.other_ne p (congrArg Message.recipient hmessage)
      have hsub := (h.flight p.other).erase m
      rwa [List.erase_of_not_mem hother] at hsub

theorem Exchange.deliver (h : line.Exchange P res w) (hmail : line.mailbox p = (env, plaintext) :: rest)
    {ratchet : Ratchet} {client : Client S} {w' : World}
    (hreceive : (line.client p).receiveEnvelope P env fresh =
      (.decrypted (line.peerIdk p) plaintext, client))
    (hlookup : client.sessions.lookup (line.peerIdk p) = some { ratchet := ratchet, ad := res.ad })
    (hratchet : w'.ratchet = Function.update w.ratchet p ratchet)
    (hinv : ∃ g idx, SessionInv P res.sk res.ad g idx w')
    (hdrawn : ∀ key ∈ w'.drawn, key = P.x25519Public fresh ∨ key ∈ w.drawn)
    (hflight : ∀ q,
      ((Function.update line.mailbox p rest q).map (line.message P q)).Sublist w'.inFlight) :
    (line.step P (.deliver p fresh)).Exchange P res w' ∧
      (line.step P (.deliver p fresh)).session p =
        some { ratchet := w'.ratchet p, ad := res.ad } := by
  have hstep := step_deliver hmail hreceive
  have hpeople := line.step_samePeople (P := P) (.deliver p fresh)
  have hself : (line.step P (.deliver p fresh)).session p =
      some { ratchet := w'.ratchet p, ad := res.ad } := by
    rw [session, hpeople.peerIdk, hstep, hratchet]
    dsimp only
    rw [Function.update_self, Function.update_self, hlookup]
  refine ⟨?_, hself⟩
  constructor
  case unblocked =>
    intro q
    rw [hpeople.peerIdk, (hpeople q).blocked]
    exact h.unblocked q
  case inv => exact hinv
  case drawn =>
    intro key hkey
    rw [hstep]
    rcases hdrawn key hkey with rfl | hold
    · exact List.mem_cons_self
    · exact List.mem_cons_of_mem _ (h.drawn key hold)
  case alice =>
    rcases Party.eq_or_other p .alice with halice | halice
    · rw [halice]
      exact hself
    · have hclient : (line.step P (.deliver p fresh)).client .alice = line.client .alice := by
        rw [hstep, halice]
        exact Function.update_of_ne (Party.other_ne _) _ _
      rw [hpeople.session hclient, h.alice, hratchet, halice,
        Function.update_of_ne (Party.other_ne _)]
  case opens =>
    intro q mail hmem
    rw [(hpeople q).openEnvelope, hpeople.peerIdk]
    apply h.opens
    rw [hstep] at hmem
    dsimp only at hmem
    rcases Party.eq_or_other p q with rfl | rfl
    · rw [Function.update_self] at hmem
      rw [hmail]
      exact List.mem_cons_of_mem _ hmem
    · rwa [Function.update_of_ne (Party.other_ne _)] at hmem
  case flight =>
    intro q
    rw [hpeople.message, hstep]
    exact hflight q

theorem Exchange.head_opens (h : line.Exchange P res w)
    (hmail : line.mailbox p = (env, plaintext) :: rest) :
    ∃ packet, line.packet P p env = some packet ∧
      (line.client p).openEnvelope P env = .ok (line.peerIdk p, packet) := by
  have hmem : (env, plaintext) ∈ line.mailbox p := by
    rw [hmail]
    exact List.mem_cons_self
  obtain ⟨packet, hopen⟩ := h.opens p _ hmem
  exact ⟨packet, by rw [Line.packet, hopen]; rfl, hopen⟩

/-- The duplicate filter lets the next envelope through. -/
theorem record_new (hmail : line.mailbox p = (env, plaintext) :: rest)
    (hfair : line.Fair P (.deliver p fresh)) :
    ((line.client p).seen.record (envelopeTag S env) seenCap).1 = true := by
  have hunknown := hfair.2 (env, plaintext) (by rw [hmail]; rfl)
  rw [SeenEnvelopes.record, if_neg hunknown]
  dsimp only
  split
  · split <;> rfl
  · rfl

theorem Established.deliver (h : line.Established P res w) (hP : Honest P)
    (hmail : line.mailbox p = (env, plaintext) :: rest)
    (hfair : line.Fair P (.deliver p fresh)) (hunbroken : line.Unbroken P (.deliver p fresh)) :
    ∃ client w', (line.client p).receiveEnvelope P env fresh =
        (.decrypted (line.peerIdk p) plaintext, client) ∧
      (line.step P (.deliver p fresh)).Established P res w' := by
  obtain ⟨packet, hpacket, hopen⟩ := h.head_opens hmail
  obtain ⟨hwithin, hfit⟩ := hunbroken (env, plaintext) (by rw [hmail]; rfl) packet hpacket _
    (h.session p)
  have hmessage := h.messages p (env, plaintext) (by rw [hmail]; exact List.mem_cons_self)
  obtain ⟨msg, rfl⟩ : ∃ msg, packet = .message msg := by
    cases packet with
    | init init =>
      rw [isInit, hpacket] at hmessage
      cases hmessage
    | message msg => exact ⟨msg, rfl⟩
  obtain ⟨ratchet, w', hcall, hratchet, hinv, hdrawn, hflight⟩ :=
    h.decrypt hP hmail hpacket hwithin hfit hfair.1
  have hdecrypt : (Session.decrypt P msg fresh).call { ratchet := w.ratchet p, ad := res.ad } =
      (.ok plaintext, { ratchet := ratchet, ad := res.ad }) := Session.call_decrypt hcall
  have hreceive := Client.receiveEnvelope_decrypted (record_new hmail hfair) hopen
    (Client.call_decryptPacket_message (by exact h.session p) hdecrypt)
  obtain ⟨hexchange, hself⟩ := h.toExchange.deliver hmail hreceive (AList.lookup_insert _) hratchet
    hinv hdrawn hflight
  have hpeople := line.step_samePeople (P := P) (.deliver p fresh)
  refine ⟨_, w', hreceive, hexchange, ?_, ?_⟩
  · rcases Party.eq_or_other p .bob with hbob | hbob
    · rw [hbob]
      exact hself
    · have hclient : (line.step P (.deliver p fresh)).client .bob = line.client .bob := by
        rw [step_deliver hmail hreceive, hbob]
        exact Function.update_of_ne (Party.other_ne _) _ _
      rw [hpeople.session hclient, h.bob, hratchet, hbob, Function.update_of_ne (Party.other_ne _)]
  · intro q mail hmem
    rw [hpeople.isInit]
    apply h.messages
    rw [step_deliver hmail hreceive] at hmem
    dsimp only at hmem
    rcases Party.eq_or_other p q with rfl | rfl
    · rw [Function.update_self] at hmem
      rw [hmail]
      exact List.mem_cons_of_mem _ hmem
    · rwa [Function.update_of_ne (Party.other_ne _)] at hmem

theorem Awaiting.deliver (h : line.Awaiting P res w) (hP : Honest P)
    (hmail : line.mailbox .bob = (env, plaintext) :: rest)
    (hfair : line.Fair P (.deliver .bob fresh)) :
    ∃ client w', (line.client .bob).receiveEnvelope P env fresh =
        (.decrypted (line.peerIdk .bob) plaintext, client) ∧
      (line.step P (.deliver .bob fresh)).Established P res w' := by
  obtain ⟨mail, rest', init, hmail', hpacket, hleads, hheld, hpn, hn, hrest⟩ := h.first
  obtain ⟨rfl, rfl⟩ := List.cons.inj (hmail'.symm.trans hmail)
  obtain ⟨packet, hpacket', hopen⟩ := h.head_opens hmail
  obtain rfl := Option.some.inj (hpacket.symm.trans hpacket')
  have hnr : (w.ratchet .bob).nr = 0 := by
    rw [h.ratchet]
    rfl
  have hwithin : WithinSkip (w.ratchet .bob) init.first.header := by
    refine Or.inr ?_
    rw [hpn, hn]
    split <;> simp
  have hfit : (w.ratchet .bob).nr.toNat + maxSkip.toNat < 2 ^ 32 := by
    rw [hnr]
    decide
  obtain ⟨ratchet, w', hcall, hratchet, hinv, hdrawn, hflight⟩ :=
    h.decrypt hP hmail hpacket hwithin hfit hfair.1
  rw [h.ratchet] at hcall
  obtain ⟨prekeys, haccept⟩ := hleads.call_accept hP hheld hcall
  have hreceive := Client.receiveEnvelope_decrypted (record_new hmail hfair) hopen
    (Client.call_decryptPacket_init haccept)
  obtain ⟨hexchange, hself⟩ := h.toExchange.deliver hmail hreceive (AList.lookup_insert _) hratchet
    hinv hdrawn hflight
  have hpeople := line.step_samePeople (P := P) (.deliver .bob fresh)
  refine ⟨_, w', hreceive, hexchange, hself, ?_⟩
  intro q mail hmem
  rw [hpeople.isInit]
  rw [step_deliver hmail hreceive] at hmem
  dsimp only at hmem
  cases q with
  | alice =>
    have hne : Party.alice ≠ Party.bob := Party.other_ne .bob
    rw [Function.update_of_ne hne, h.empty] at hmem
    cases hmem
  | bob =>
    rw [Function.update_self] at hmem
    exact hrest mail hmem

end Deliver

/-- A line on which everything that was returned has been decrypted. -/
structure Sound (P : Primitives) {S : Suite} (line : Line S) : Prop where
  state : line.Strangers P ∨ ∃ res w, line.Awaiting P res w ∨ line.Established P res w
  log : ∀ entry ∈ line.log, entry.2.2 = .decrypted (line.peerIdk entry.1) entry.2.1

section Run

variable {P : Primitives} {S : Suite} {line : Line S}

theorem Sound.send (h : line.Sound P) (hP : Honest P) {sender : Party} {content : Content}
    {bundle : PreKeyBundle} {nowMs : UInt64} {secrets : SendSecrets}
    {answer : Except NetError Unit}
    (hfair : line.Fair P (.send sender content bundle nowMs secrets answer))
    (hunbroken : line.Unbroken P (.send sender content bundle nowMs secrets answer)) :
    (line.step P (.send sender content bundle nowMs secrets answer)).Sound P := by
  obtain ⟨hok, hfirst⟩ := hfair
  obtain ⟨haccepted, hfit⟩ := hunbroken
  rcases hsend : line.sendContent P sender content bundle nowMs secrets (.ok ()) with
    ⟨result, client⟩
  rw [hsend] at hok
  cases result with
  | error e => cases hok
  | ok env =>
    constructor
    case log =>
      intro entry hentry
      rw [(line.step_samePeople _).peerIdk]
      rw [step_send hsend] at hentry
      exact h.log entry hentry
    case state =>
      right
      rcases h.state with hstrangers | ⟨res, w, hawaiting | hestablished⟩
      · obtain ⟨rfl, hserves, hfresh⟩ := hfirst (hstrangers.session sender)
        rw [haccepted (hstrangers.session _)]
        obtain ⟨res, w, hawaiting⟩ := hstrangers.contact hP hsend hserves hfresh
        exact ⟨res, w, Or.inl hawaiting⟩
      · obtain rfl : sender = .alice := by
          cases sender with
          | alice => rfl
          | bob => exact (hfirst hawaiting.none).1
        obtain ⟨w', hawaiting'⟩ :=
          hawaiting.send hP hsend (hfit _ hawaiting.alice) answer
        exact ⟨res, w', Or.inl hawaiting'⟩
      · obtain ⟨w', hestablished'⟩ :=
          hestablished.send answer hsend hP (hfit _ (hestablished.session sender))
        exact ⟨res, w', Or.inr hestablished'⟩

theorem Sound.deliver (h : line.Sound P) (hP : Honest P) {p : Party} {fresh : Key}
    (hfair : line.Fair P (.deliver p fresh)) (hunbroken : line.Unbroken P (.deliver p fresh)) :
    (line.step P (.deliver p fresh)).Sound P := by
  rcases hmail : line.mailbox p with _ | ⟨⟨env, plaintext⟩, rest⟩
  · rwa [step_deliver_nil hmail]
  -- who has a session decrypts; who has none waits for the first contact
  obtain ⟨client, res, w, hreceive, hstate⟩ : ∃ client res w,
      (line.client p).receiveEnvelope P env fresh =
        (.decrypted (line.peerIdk p) plaintext, client) ∧
      (line.step P (.deliver p fresh)).Established P res w := by
    rcases h.state with hstrangers | ⟨res, w, hawaiting | hestablished⟩
    · rw [hstrangers.mailbox] at hmail
      cases hmail
    · cases p with
      | alice =>
        rw [hawaiting.empty] at hmail
        cases hmail
      | bob =>
        obtain ⟨client, w', hreceive, hstate⟩ := hawaiting.deliver hP hmail hfair
        exact ⟨client, res, w', hreceive, hstate⟩
    · obtain ⟨client, w', hreceive, hstate⟩ := hestablished.deliver hP hmail hfair hunbroken
      exact ⟨client, res, w', hreceive, hstate⟩
  refine ⟨Or.inr ⟨res, w, Or.inr hstate⟩, ?_⟩
  intro entry hentry
  rw [(line.step_samePeople _).peerIdk]
  rw [step_deliver hmail hreceive] at hentry
  rcases List.mem_append.mp hentry with hold | hnew
  · exact h.log entry hold
  · rw [List.mem_singleton.mp hnew]

/-- Losing envelopes takes nothing from what is said about the ratchets. -/
theorem Exchange.lose {res : X3dhResult} {w : World} (h : line.Exchange P res w) (p : Party) :
    (line.step P (.lose p)).Exchange P res w := by
  have hsub (q : Party) : ((line.step P (.lose p)).mailbox q).Sublist (line.mailbox q) := by
    rcases Party.eq_or_other p q with rfl | rfl
    · dsimp only [step]
      rw [Function.update_self]
      exact List.tail_sublist _
    · dsimp only [step]
      rw [Function.update_of_ne (Party.other_ne _)]
  exact
    { unblocked := h.unblocked
      inv := h.inv
      drawn := h.drawn
      alice := h.alice
      opens := fun q mail hmem => h.opens q mail ((hsub q).subset hmem)
      flight := fun q => ((hsub q).map _).trans (h.flight q) }

theorem Sound.lose (h : line.Sound P) {p : Party} (hunbroken : line.Unbroken P (.lose p)) :
    (line.step P (.lose p)).Sound P := by
  refine ⟨?_, h.log⟩
  have hother : (line.step P (.lose p)).mailbox p.other = line.mailbox p.other :=
    Function.update_of_ne (Party.other_ne _) _ _
  have hself : (line.step P (.lose p)).mailbox p = (line.mailbox p).tail :=
    Function.update_self _ _ _
  rcases h.state with hstrangers | ⟨res, w, hawaiting | hestablished⟩
  · left
    refine { hstrangers with mailbox := ?_ }
    intro q
    rcases Party.eq_or_other p q with rfl | rfl
    · rw [hself, hstrangers.mailbox]
      rfl
    · rw [hother, hstrangers.mailbox]
  · -- Bob's next envelope is the first contact, and Alice's mailbox is empty
    right
    obtain ⟨mail, rest, init, hmail, hpacket, hmore⟩ := hawaiting.first
    cases p with
    | alice =>
      refine ⟨res, w, Or.inl ⟨hawaiting.toExchange.lose _, hawaiting.none, hawaiting.ratchet, ?_,
        mail, rest, init, hother.trans hmail, hpacket, hmore⟩⟩
      rw [hself, hawaiting.empty]
      rfl
    | bob =>
      have hinit := hunbroken mail (by rw [hmail]; rfl)
      rw [isInit, hpacket] at hinit
      cases hinit
  · right
    refine ⟨res, w, Or.inr ⟨hestablished.toExchange.lose _, hestablished.bob, ?_⟩⟩
    intro q mail hmem
    apply hestablished.messages
    rcases Party.eq_or_other p q with rfl | rfl
    · rw [hself] at hmem
      exact List.mem_of_mem_tail hmem
    · rwa [hother] at hmem

/-- Failed deposits do no harm to a conversation whose first contact has reached the peer: whatever
is returned is decrypted. -/
theorem returned_decrypts (P : Primitives) (hP : Honest P) (S : Suite) (line : Line S)
    (hstart : line.Strangers P) (ops : List Op)
    (hrun : Steps.Along (step P) (fun line op => line.Fair P op ∧ line.Unbroken P op) line ops) :
    ∀ entry ∈ (Steps.exec (step P) line ops).log,
      entry.2.2 =
        .decrypted ((Steps.exec (step P) line ops).peerIdk entry.1) entry.2.1 := by
  have hsound : (Steps.exec (step P) line ops).Sound P := by
    refine Steps.exec_invariant (Sound P) ?_ ⟨Or.inl hstart, by simp [hstart.log]⟩ hrun
    rintro line op hsound ⟨hfair, hunbroken⟩
    cases op with
    | send sender content bundle nowMs secrets answer => exact hsound.send hP hfair hunbroken
    | deliver p fresh => exact hsound.deliver hP hfair hunbroken
    | lose p => exact hsound.lose hunbroken
  exact hsound.log

end Run

def sampleLine : Line sampleSuite where
  client := fun
    | .alice => sampleClient (.fill 32 1) (.fill 32 11)
    | .bob =>
      { sampleClient (.fill 32 2) (.fill 32 12) with
        prekeys := { spk := .fill 32 51, otps := [.fill 32 52] } }
  mailbox := fun _ => []
  log := []
  drawn := [.fill 32 51]

def sampleSend (sender : Party) (text : String) (n : UInt8) (answer : Except NetError Unit) : Op :=
  let bob := sampleLine.client .bob
  .send sender (.text text) (bob.prekeys.bundle samplePrimitives bob.identity) 1000
    { ek := .fill 32 (100 + n), dhs := .fill 32 (120 + n), eph := .fill 32 (140 + n) } answer

def refusedDeposit : Except NetError Unit := .error (.rejectedEnvelope "mailbox full")

theorem sampleLine_strangers : sampleLine.Strangers samplePrimitives where
  session p := by cases p <;> rfl
  mailbox _ := rfl
  log := rfl
  unblocked p := by cases p <;> exact Finset.notMem_empty _
  spk := List.mem_cons_self

def sampleOps : List Op :=
  [sampleSend .alice "one" 1 (.ok ()), sampleSend .alice "two" 2 refusedDeposit,
    sampleSend .alice "three" 3 (.ok ()), .deliver .bob (.fill 32 60), .deliver .bob (.fill 32 61)]

theorem sampleOps_unbroken :
    Steps.Along (step samplePrimitives)
        (fun line op => line.Fair samplePrimitives op ∧ line.Unbroken samplePrimitives op)
        sampleLine sampleOps ∧
      (Steps.exec (step samplePrimitives) sampleLine sampleOps).log.length = 2 := by
  decide +kernel

theorem returned_decrypts_after_failure :
    (Steps.exec (step samplePrimitives) sampleLine sampleOps).log.length = 2 ∧
      ∀ entry ∈ (Steps.exec (step samplePrimitives) sampleLine sampleOps).log,
        entry.2.2 =
          .decrypted ((Steps.exec (step samplePrimitives) sampleLine sampleOps).peerIdk entry.1)
            entry.2.1 :=
  ⟨sampleOps_unbroken.2,
    returned_decrypts samplePrimitives samplePrimitives_honest sampleSuite sampleLine
      sampleLine_strangers sampleOps sampleOps_unbroken.1⟩

/-- The deposit of the first contact fails. The next message is deposited and returned, and Bob
has no session to decrypt it with. -/
theorem first_deposit_fails :
    let ops := [sampleSend .alice "one" 1 refusedDeposit, sampleSend .alice "two" 2 (.ok ()),
      .deliver .bob (.fill 32 60)]
    Steps.Along (step samplePrimitives) (Fair samplePrimitives) sampleLine ops ∧
      (Steps.exec (step samplePrimitives) sampleLine ops).log =
        [(.bob, (Content.text "two").encode, .undecryptable (.fill 32 1) .noSession)] := by
  decide +kernel

end Dante.Core.Line
