import Dante.Dm.DeliveryInvariant

/-!
The joint invariant of both ratchets and the messages in flight, its preservation
by every step of the network, and delivery for whole runs.
-/

namespace Dante.Dm

open Crypto Ratchet

/-- The two parties are one secret apart, every message in flight is genuine and can
still be delivered, and every `decrypt` call so far returned the plaintext. -/
structure SessionInv (P : Primitives) (sk : Key) (ad : Bytes) (g : Ghost) (idx : Party → Nat)
    (w : World) : Prop where
  adjacent : ∀ p : Party, idx p.other = idx p + 1 ∨ idx p = idx p.other + 1
  party : ∀ p, PartyAt P sk g (idx p) (w.ratchet p)
  messages : ∀ m ∈ w.inFlight, ∃ c, c ≤ idx m.recipient.other ∧
    Genuine P sk ad g c m.header m.ct m.plaintext ∧
    Pending P sk g (idx m.recipient) (w.ratchet m.recipient) c m.header.n
  nodup : (w.inFlight.map fun m => (m.header.dh, m.header.n)).Nodup
  distinct : ∀ p, g.Distinct P (idx p)
  drawn : ∀ p a, a ≤ idx p → g.pub P a ∈ w.drawn
  fits : ∀ c, g.sent c < 2 ^ 32
  calls : ∀ call ∈ w.calls, call.2 = .ok call.1

section Step

variable {P : Primitives} {sk : Key} {ad : Bytes} {g : Ghost} {idx : Party → Nat} {w : World}
variable {index : Nat} {r' : Ratchet}

/-- One of the two indices bounds both, and the public keys are distinct up to it. -/
theorem SessionInv.exists_top (hinv : SessionInv P sk ad g idx w) (p : Party) :
    ∃ top, g.Distinct P top ∧ idx p ≤ top ∧ idx p.other ≤ top := by
  rcases hinv.adjacent p with hnext | hprev
  · exact ⟨idx p.other, hinv.distinct p.other, by omega, le_rfl⟩
  · exact ⟨idx p, hinv.distinct p, le_rfl, by omega⟩

theorem SessionInv.remaining (hinv : SessionInv P sk ad g idx w) {m m' : Message}
    (hm : w.inFlight[index]? = some m) (hm' : m' ∈ w.inFlight.eraseIdx index) :
    m' ∈ w.inFlight ∧ (m'.header.dh, m'.header.n) ≠ (m.header.dh, m.header.n) := by
  obtain ⟨i, hne, hi⟩ := List.mem_eraseIdx_iff_getElem?.mp hm'
  refine ⟨List.mem_of_getElem? hi, fun heq => hne ?_⟩
  have hid (k : Nat) (x : Message) (hk : w.inFlight[k]? = some x) :
      (w.inFlight.map fun m => (m.header.dh, m.header.n))[k]? =
        some (x.header.dh, x.header.n) := by
    rw [List.getElem?_map, hk]
    rfl
  obtain ⟨hlt, -⟩ := List.getElem?_eq_some_iff.mp (hid i m' hi)
  refine (List.getElem?_inj hlt hinv.nodup).mp ?_
  rw [hid i m' hi, hid index m hm, heq]

/-- How a session moves on when `p` goes to index `j'` and state `r'`: it may have drawn
a secret, and nothing changes for the peer. -/
structure MovesOn (P : Primitives) (sk : Key) (ad : Bytes) (g : Ghost) (idx : Party → Nat)
    (w : World) (p : Party) (g' : Ghost) (j' : Nat) (r' : Ratchet) (drawn : List Key) : Prop where
  mono : idx p ≤ j'
  adjacent : idx p.other = j' + 1 ∨ j' = idx p.other + 1
  party : PartyAt P sk g' j' r'
  peer : PartyAt P sk g' (idx p.other) (w.ratchet p.other)
  genuine : ∀ (q : Party) c header ct plaintext, c ≤ idx q →
    Genuine P sk ad g c header ct plaintext → Genuine P sk ad g' c header ct plaintext
  pending : ∀ c n, c ≤ idx p → Pending P sk g (idx p.other) (w.ratchet p.other) c n →
    Pending P sk g' (idx p.other) (w.ratchet p.other) c n
  distinct : g'.Distinct P j' ∧ g'.Distinct P (idx p.other)
  drawn : ∀ a, a ≤ j' ∨ a ≤ idx p.other → g'.pub P a ∈ drawn
  fits : ∀ c, g'.sent c < 2 ^ 32

theorem forall_update {α β : Type} {motive : Party → α → β → Prop} (p : Party) (f : Party → α)
    (h : Party → β) (a : α) (b : β) (hp : motive p a b)
    (hother : motive p.other (f p.other) (h p.other)) (q : Party) :
    motive q (Function.update f p a q) (Function.update h p b q) := by
  rcases Party.eq_or_other p q with rfl | rfl
  · rw [Function.update_self, Function.update_self]
    exact hp
  · rw [Function.update_of_ne (Party.other_ne p), Function.update_of_ne (Party.other_ne p)]
    exact hother

theorem SessionInv.messages_after (hinv : SessionInv P sk ad g idx w) {m : Message} {c : Nat}
    (hm : w.inFlight[index]? = some m) (hgenuine : Genuine P sk ad g c m.header m.ct m.plaintext)
    {g' : Ghost} {j' top : Nat} {drawn : List Key}
    (hmoves : MovesOn P sk ad g idx w m.recipient g' j' r' drawn)
    (htop : idx m.recipient.other ≤ top)
    (hkeep : KeepsPending P sk top g g' (idx m.recipient) j' (w.ratchet m.recipient) r' c
      m.header.n) :
    ∀ m' ∈ w.inFlight.eraseIdx index,
      ∃ c', c' ≤ Function.update idx m.recipient j' m'.recipient.other ∧
        Genuine P sk ad g' c' m'.header m'.ct m'.plaintext ∧
        Pending P sk g' (Function.update idx m.recipient j' m'.recipient)
          (Function.update w.ratchet m.recipient r' m'.recipient) c' m'.header.n := by
  intro m' hmem
  obtain ⟨hmem', hne⟩ := hinv.remaining hm hmem
  obtain ⟨c', hle, hgen, hpend⟩ := hinv.messages m' hmem'
  rcases Party.eq_or_other m.recipient m'.recipient with hsame | hother
  · rw [hsame] at hle hpend ⊢
    rw [Function.update_of_ne (Party.other_ne _), Function.update_self, Function.update_self]
    refine ⟨c', hle, hmoves.genuine _ c' _ _ _ hle hgen, ?_⟩
    refine hkeep c' _ hgen.pos (hle.trans htop) hgen.lt ?_ hpend
    rintro ⟨rfl, hn⟩
    exact hne (Prod.ext (hgen.dh.trans hgenuine.dh.symm) hn)
  · rw [hother] at hle hpend ⊢
    rw [Party.other_other] at hle ⊢
    rw [Function.update_self, Function.update_of_ne (Party.other_ne _),
      Function.update_of_ne (Party.other_ne _)]
    exact ⟨c', hle.trans hmoves.mono, hmoves.genuine _ c' _ _ _ hle hgen,
      hmoves.pending c' _ hle hpend⟩

theorem SessionInv.deliver (hinv : SessionInv P sk ad g idx w) {m : Message} {c : Nat}
    (hm : w.inFlight[index]? = some m) (hgenuine : Genuine P sk ad g c m.header m.ct m.plaintext)
    {g' : Ghost} {j' top : Nat} {drawn : List Key}
    (hmoves : MovesOn P sk ad g idx w m.recipient g' j' r' drawn)
    (htop : idx m.recipient.other ≤ top)
    (hkeep : KeepsPending P sk top g g' (idx m.recipient) j' (w.ratchet m.recipient) r' c
      m.header.n) :
    SessionInv P sk ad g' (Function.update idx m.recipient j')
      { ratchet := Function.update w.ratchet m.recipient r'
        inFlight := w.inFlight.eraseIdx index
        drawn := drawn
        calls := (m.plaintext, .ok m.plaintext) :: w.calls } where
  adjacent p := by
    rcases Party.eq_or_other m.recipient p with rfl | rfl
    · rw [Function.update_self, Function.update_of_ne (Party.other_ne _)]
      exact hmoves.adjacent
    · rw [Party.other_other, Function.update_self, Function.update_of_ne (Party.other_ne _)]
      exact hmoves.adjacent.symm
  party := forall_update m.recipient idx w.ratchet j' r' hmoves.party hmoves.peer
  messages := hinv.messages_after hm hgenuine hmoves htop hkeep
  nodup := hinv.nodup.sublist ((List.eraseIdx_sublist w.inFlight index).map _)
  distinct := forall_update m.recipient idx w.ratchet j' r' (motive := fun _ i _ => g'.Distinct P i)
    hmoves.distinct.1 hmoves.distinct.2
  drawn := forall_update m.recipient idx w.ratchet j' r'
    (motive := fun _ i _ => ∀ a, a ≤ i → g'.pub P a ∈ drawn)
    (fun a ha => hmoves.drawn a (Or.inl ha)) (fun a ha => hmoves.drawn a (Or.inr ha))
  fits := hmoves.fits
  calls call hcall := by
    rcases List.mem_cons.mp hcall with rfl | hold
    · rfl
    · exact hinv.calls call hold

theorem SessionInv.movesOn_same (hinv : SessionInv P sk ad g idx w) {p : Party}
    (hr' : PartyAt P sk g (idx p) r') : MovesOn P sk ad g idx w p g (idx p) r' w.drawn where
  mono := le_rfl
  adjacent := hinv.adjacent p
  party := hr'
  peer := hinv.party _
  genuine _ _ _ _ _ _ hgen := hgen
  pending _ _ _ hpend := hpend
  distinct := ⟨hinv.distinct p, hinv.distinct p.other⟩
  drawn a ha := ha.elim (hinv.drawn p a) (hinv.drawn p.other a)
  fits := hinv.fits

theorem SessionInv.movesOn_draw (hinv : SessionInv P sk ad g idx w) {p : Party}
    (hahead : idx p.other = idx p + 1) {fresh : Key} (hfresh : P.x25519Public fresh ∉ w.drawn)
    (hr' : PartyAt P sk (g.draw (idx p + 2) fresh) (idx p + 2) r') :
    MovesOn P sk ad g idx w p (g.draw (idx p + 2) fresh) (idx p + 2) r'
      (P.x25519Public fresh :: w.drawn) where
  mono := by omega
  adjacent := Or.inr (by omega)
  party := hr'
  peer := (hinv.party p.other).draw (by omega)
  genuine q c _ _ _ hc hgen := by
    have hq : idx q ≤ idx p + 1 := by
      rcases Party.eq_or_other p q with rfl | rfl <;> omega
    exact hgen.draw (by omega)
  pending c n hc hpend := hpend.draw (by omega)
  distinct := by
    have hdistinct := hinv.distinct p.other
    rw [hahead] at hdistinct ⊢
    have hnew := hdistinct.draw fresh (fun a ha hpub =>
      hfresh (hpub ▸ hinv.drawn p.other a (by omega)))
    exact ⟨hnew, fun a b ha hb => hnew a b (by omega) (by omega)⟩
  drawn a ha := by
    by_cases hlast : a = idx p + 2
    · rw [hlast, Ghost.pub, Ghost.draw_key_self]
      exact List.mem_cons_self
    · rw [Ghost.draw_pub (by omega)]
      exact List.mem_cons_of_mem _ (hinv.drawn p.other a (by omega))
  fits c := by
    by_cases hlast : c = idx p + 2
    · rw [hlast, Ghost.draw_sent_self]
      omega
    · rw [Ghost.draw_sent_of_ne hlast]
      exact hinv.fits c

/-- In `u32`, a bound that does not overflow is the bound in the natural numbers. -/
theorem not_add_maxSkip_lt {nr last : UInt32} (hfits : nr.toNat + maxSkip.toNat < 2 ^ 32)
    (hle : last.toNat ≤ nr.toNat + maxSkip.toNat) : ¬ nr + maxSkip < last := by
  rw [UInt32.lt_iff_toNat_lt, UInt32.toNat_add, Nat.mod_eq_of_lt hfits]
  omega

/-- How far a delivery of message `n` of chain `c` takes the receiver, who holds secret `j`:
the session and the secret it holds afterwards. -/
inductive Advance (g : Ghost) (j c : Nat) (n : UInt32) (r r' : Ratchet) (fresh : Key) :
    Ghost → Nat → Prop where
  /-- The key was stored, and the counter stays where it is. -/
  | stored (hbehind : ¬ (c = j + 1 ∨ c + 1 = j ∧ r.nr.toNat ≤ n.toNat)) (hnr : r'.nr = r.nr) :
    Advance g j c n r r' fresh g j
  | current (hcur : c + 1 = j) (hge : r.nr.toNat ≤ n.toNat) (hnr : r'.nr.toNat = n.toNat + 1) :
    Advance g j c n r r' fresh g j
  | newChain (hnew : c = j + 1) (hnr : r'.nr.toNat = n.toNat + 1) :
    Advance g j c n r r' fresh (g.draw (j + 2) fresh) (j + 2)

/-- A delivery within the window returns the plaintext, and the session moves on. -/
theorem SessionInv.delivered (hP : Honest P) (hinv : SessionInv P sk ad g idx w) {fresh : Key}
    (hallowed : w.Allowed P (.deliver index fresh)) (hfit : w.CountersFit (.deliver index fresh))
    {m : Message} (hm : w.inFlight[index]? = some m) :
    ∃ c g' j' r', c ≤ idx m.recipient.other ∧ Genuine P sk ad g c m.header m.ct m.plaintext ∧
      (decrypt P fresh m.header m.ct ad).call (w.ratchet m.recipient) = (.ok m.plaintext, r') ∧
      Advance g (idx m.recipient) c m.header.n (w.ratchet m.recipient) r' fresh g' j' ∧
      SessionInv P sk ad g' (Function.update idx m.recipient j')
        (w.step P ad (.deliver index fresh)) := by
  obtain ⟨hwithin, hfresh⟩ := hallowed m hm
  obtain ⟨c, hc, hgen, hpend⟩ := hinv.messages m (List.mem_of_getElem? hm)
  have hr := hinv.party m.recipient
  obtain ⟨top, hdistinct, htop, htop'⟩ := hinv.exists_top m.recipient
  by_cases hstored : (w.ratchet m.recipient).skipped.lookup (m.header.dh, m.header.n) = none
  · have hfit' := (hfit m hm).resolve_left (not_not_intro hstored)
    have hwindow := hwithin.resolve_left (not_not_intro hstored)
    rcases hpend with hnew | ⟨hcur, hge⟩ | ⟨hlt, hkey⟩
    · -- the peer has opened a chain that is not known here yet
      have hahead : idx m.recipient.other = idx m.recipient + 1 := by
        rcases hinv.adjacent m.recipient with h | h <;> omega
      have hdistinct' := hinv.distinct m.recipient.other
      rw [hahead] at hdistinct'
      subst hnew
      have hdhr : (w.ratchet m.recipient).dhr ≠ some m.header.dh :=
        hr.dhr_ne hdistinct' hgen.dh
      rw [if_neg hdhr] at hwindow
      have hnear : ¬ (w.ratchet m.recipient).nr + maxSkip < m.header.pn :=
        not_add_maxSkip_lt hfit' hwindow.1
      have hn : ¬ maxSkip < m.header.n := by
        rw [UInt32.lt_iff_toNat_lt]
        omega
      obtain ⟨r', hcall, hnr, hr', hkeep⟩ := hr.deliver_newChain hP hdistinct' (hinv.fits _) hgen
        hstored hdhr hnear hn
        (fun a ha hpub => hfresh (hpub ▸ hinv.drawn m.recipient.other a (by omega)))
      refine ⟨_, _, _, r', hc, hgen, hcall, .newChain rfl hnr, ?_⟩
      rw [World.step_deliver hm hcall, if_pos ⟨hstored, hdhr⟩]
      exact hinv.deliver hm hgen (hinv.movesOn_draw hahead hfresh hr') hahead.le hkeep
    · have hdhr : (w.ratchet m.recipient).dhr = some m.header.dh := by
        rw [hr.dhr, hgen.dh, ← hcur]
        rfl
      rw [if_pos hdhr] at hwindow
      have hnear := not_add_maxSkip_lt hfit' hwindow
      obtain ⟨r', hcall, hnr, hr', hkeep⟩ := hr.deliver_current hP hdistinct htop (hinv.fits c)
        hgen hcur hge hstored hnear fresh
      refine ⟨c, g, _, r', hc, hgen, hcall, .current hcur hge hnr, ?_⟩
      rw [World.step_deliver hm hcall, if_neg (fun h => h.2 hdhr)]
      exact hinv.deliver hm hgen (hinv.movesOn_same hr') htop' hkeep
    · rw [← hgen.dh, hstored] at hkey
      cases hkey
  · obtain ⟨r', hcall, hnr, hr', hkeep⟩ := hr.deliver_stored hP hdistinct htop (hc.trans htop')
      hgen hpend hstored fresh
    have hbehind : ¬ (c = idx m.recipient + 1 ∨
        c + 1 = idx m.recipient ∧ (w.ratchet m.recipient).nr.toNat ≤ m.header.n.toNat) :=
      fun hwait => hstored (hgen.dh ▸ hr.lookup_eq_none hdistinct htop (hc.trans htop') hwait)
    refine ⟨c, g, _, r', hc, hgen, hcall, .stored hbehind hnr, ?_⟩
    rw [World.step_deliver hm hcall, if_neg (fun h => hstored h.1)]
    exact hinv.deliver hm hgen (hinv.movesOn_same hr') htop' hkeep

theorem SessionInv.step_deliver (hP : Honest P) (hinv : SessionInv P sk ad g idx w) {fresh : Key}
    (hallowed : w.Allowed P (.deliver index fresh)) (hfit : w.CountersFit (.deliver index fresh)) :
    ∃ g' idx', SessionInv P sk ad g' idx' (w.step P ad (.deliver index fresh)) := by
  cases hm : w.inFlight[index]? with
  | none =>
    rw [World.step_deliver_none hm]
    exact ⟨g, idx, hinv⟩
  | some m =>
    obtain ⟨_, g', j', _, -, -, -, -, hinv'⟩ := hinv.delivered hP hallowed hfit hm
    exact ⟨g', _, hinv'⟩

theorem SessionInv.step_send (hinv : SessionInv P sk ad g idx w) {p : Party}
    {plaintext : Bytes} (hallowed : w.Allowed P (.send p plaintext))
    (hfit : w.CountersFit (.send p plaintext)) :
    SessionInv P sk ad (g.addSent (idx p)) idx (w.step P ad (.send p plaintext)) := by
  obtain ⟨header, ct, r', hcall, hr', hn, hgen, hnr, hskipped⟩ :=
    (hinv.party p).encrypt hallowed hfit plaintext ad
  have hclose (q : Party) : idx q ≤ idx p + 1 := by
    rcases Party.eq_or_other p q with rfl | rfl
    · omega
    · rcases hinv.adjacent p with h | h <;> omega
  rw [World.step_send hcall]
  constructor
  case adjacent => exact hinv.adjacent
  case party =>
    intro q
    dsimp only
    rcases Party.eq_or_other p q with rfl | rfl
    · rw [Function.update_self]
      exact hr'
    · rw [Function.update_of_ne (Party.other_ne p)]
      refine (hinv.party _).addSent ?_ (hclose _)
      rcases hinv.adjacent p with h | h <;> omega
  case messages =>
    intro m hm
    rcases List.mem_append.mp hm with hold | hnew
    · obtain ⟨c, hc, hgenuine, hpend⟩ := hinv.messages m hold
      refine ⟨c, hc, hgenuine.addSent (hc.trans (hclose _)), ?_⟩
      rcases Party.eq_or_other p m.recipient with hself | hother
      · rw [hself] at hpend ⊢
        dsimp only
        rw [Function.update_self]
        refine Pending.addSent ?_
        rw [Pending, hnr, hskipped]
        exact hpend
      · rw [hother] at hpend ⊢
        dsimp only
        rw [Function.update_of_ne (Party.other_ne p)]
        exact hpend.addSent
    · rw [List.mem_singleton.mp hnew]
      dsimp only
      rw [Party.other_other, Function.update_of_ne (Party.other_ne p)]
      refine ⟨idx p, le_rfl, hgen, ?_⟩
      rcases hinv.adjacent p with hnext | hprev
      · refine Or.inr (Or.inl ⟨hnext.symm, ?_⟩)
        rw [hn]
        exact (hinv.party p.other).nr_le (idx p) hnext.symm
      · exact Or.inl hprev
  case nodup =>
    -- the new message has a higher index than any other of its chain
    rw [List.map_append, List.map_singleton]
    refine hinv.nodup.append (List.nodup_singleton _) ?_
    intro id hid hnew
    rw [List.mem_singleton] at hnew
    subst hnew
    obtain ⟨m, hm, heq⟩ := List.mem_map.mp hid
    obtain ⟨hdh, hidx⟩ := Prod.mk.inj heq
    obtain ⟨c, hc, hgenuine, -⟩ := hinv.messages m hm
    obtain ⟨top, hdistinct, htop, htop'⟩ := hinv.exists_top p
    have hctop : c ≤ top := by
      rcases Party.eq_or_other p m.recipient.other with h | h <;> rw [h] at hc <;> omega
    have hchain : c = idx p :=
      hdistinct c (idx p) hctop htop (hgenuine.dh.symm.trans (hdh.trans hgen.dh))
    have hlt := hgenuine.lt
    rw [hidx, hn, hchain] at hlt
    exact absurd hlt (lt_irrefl _)
  case distinct => exact hinv.distinct
  case drawn => exact hinv.drawn
  case fits =>
    intro c
    by_cases hc : c = idx p
    · rw [hc, Ghost.addSent_sent_self, ← (hinv.party p).ns]
      exact hfit
    · rw [Ghost.addSent_sent hc]
      exact hinv.fits c
  case calls => exact hinv.calls

end Step

/-- At the start Bob holds secret 0, the signed prekey, and Alice secret 1. -/
def startIdx : Party → Nat
  | .alice => 1
  | .bob => 0

def startGhost (spk aliceSecret : Key) : Ghost where
  key i := if i = 0 then spk else aliceSecret
  sent _ := 0

theorem sessionInv_start {P : Primitives} (hP : Honest P) {sk spk aliceSecret : Key} (ad : Bytes)
    (hdistinct : P.x25519Public spk ≠ P.x25519Public aliceSecret) :
    SessionInv P sk ad (startGhost spk aliceSecret) startIdx
      (World.initial P sk spk aliceSecret) := by
  constructor
  case adjacent =>
    intro p
    cases p <;> simp [startIdx, Party.other]
  case party =>
    intro p
    cases p with
    | alice =>
      have hroot : (startGhost spk aliceSecret).rootChain P sk 1 =
          kdfRk P sk (P.x25519 aliceSecret (P.x25519Public spk)) := by
        rw [hP.agree_comm aliceSecret spk]
        rfl
      exact
        { dhs := rfl
          rk := by rw [startIdx, hroot]; rfl
          ns := rfl
          pn := rfl
          dhr := rfl
          cks := by rw [startIdx, Ghost.sendChain, Ghost.chain, hroot]; rfl
          ckr := rfl
          nr_le := fun _ _ => Nat.zero_le _
          stored := fun d n msgKey hsome => by cases hsome }
    | bob =>
      exact
        { dhs := rfl
          rk := rfl
          ns := rfl
          pn := rfl
          dhr := rfl
          cks := rfl
          ckr := rfl
          nr_le := fun _ _ => Nat.zero_le _
          stored := fun d n msgKey hsome => by cases hsome }
  case messages =>
    intro m hm
    cases hm
  case nodup => exact List.nodup_nil
  case distinct =>
    intro p a b ha hb hpub
    have htop : startIdx p ≤ 1 := by cases p <;> decide
    have hfirst : a = 0 ∨ a = 1 := by omega
    have hsecond : b = 0 ∨ b = 1 := by omega
    rcases hfirst with rfl | rfl
    · rcases hsecond with rfl | rfl
      · rfl
      · exact absurd hpub hdistinct
    · rcases hsecond with rfl | rfl
      · exact absurd hpub.symm hdistinct
      · rfl
  case drawn =>
    intro p a ha
    have htop : startIdx p ≤ 1 := by cases p <;> decide
    have hfirst : a = 0 ∨ a = 1 := by omega
    rcases hfirst with rfl | rfl
    · exact List.mem_cons_self
    · exact List.mem_cons_of_mem _ List.mem_cons_self
  case fits => exact fun _ => Nat.two_pow_pos 32
  case calls =>
    intro call hcall
    cases hcall

/-- Delivery: in every run within the skip window, in which no `u32` counter overflows,
every `decrypt` call returns the plaintext that was encrypted. -/
theorem decrypt_returns_plaintext (P : Primitives) (hP : Honest P) (sk spk aliceSecret : Key)
    (ad : Bytes) (hdistinct : P.x25519Public spk ≠ P.x25519Public aliceSecret) (w : World)
    (hstart : World.start P sk spk aliceSecret = .ok w) (ops : List Op)
    (hrun : Steps.Along (World.step P ad) (fun w op => w.Allowed P op ∧ w.CountersFit op) w ops) :
    ∀ call ∈ (Steps.exec (World.step P ad) w ops).calls, call.2 = .ok call.1 := by
  have hinitial : ∃ g idx, SessionInv P sk ad g idx w := by
    obtain rfl := Except.ok.inj ((World.start_eq hP sk spk aliceSecret).symm.trans hstart)
    exact ⟨_, _, sessionInv_start hP ad hdistinct⟩
  have hinv : ∃ g idx, SessionInv P sk ad g idx (Steps.exec (World.step P ad) w ops) := by
    refine Steps.exec_invariant (fun w => ∃ g idx, SessionInv P sk ad g idx w) ?_ hinitial hrun
    rintro w op ⟨g, idx, hinv⟩ ⟨hallowed, hfit⟩
    cases op with
    | send sender plaintext => exact ⟨_, _, hinv.step_send hallowed hfit⟩
    | deliver index fresh => exact hinv.step_deliver hP hallowed hfit
  obtain ⟨g, idx, hinv⟩ := hinv
  exact hinv.calls

/-- Two messages of Alice, delivered out of order around a reply of Bob. -/
theorem decrypt_returns_plaintext_out_of_order :
    ((Steps.exec (World.step samplePrimitives [7])
        (World.initial samplePrimitives (.fill 32 42) (.fill 32 1) (.fill 32 2))
        [.send .alice [1], .send .alice [2], .deliver 1 (.fill 32 3), .send .bob [3],
          .deliver 1 (.fill 32 4), .deliver 0 (.fill 32 5)]).calls.all fun call =>
      decide (call.2 = .ok call.1)) = true := by
  apply List.all_eq_true.mpr
  intro call hcall
  apply decide_eq_true
  exact decrypt_returns_plaintext samplePrimitives samplePrimitives_honest (.fill 32 42)
    (.fill 32 1) (.fill 32 2) [7] (by decide) _ (World.start_eq samplePrimitives_honest _ _ _)
    [.send .alice [1], .send .alice [2], .deliver 1 (.fill 32 3), .send .bob [3],
      .deliver 1 (.fill 32 4), .deliver 0 (.fill 32 5)] (by decide +kernel) call hcall

section InOrder

variable {P : Primitives} (ad : Bytes) {spare : Key}

/-- Alice has sent `k` messages on her current chain and Bob has received them all. -/
structure InOrder (P : Primitives) (spare : Key) (w : World) (k : Nat) : Prop where
  inFlight : w.inFlight = []
  ready : (w.ratchet .alice).cks ≠ none
  ns : (w.ratchet .alice).ns.toNat = k
  dhr : (w.ratchet .bob).dhr = some (P.x25519Public (w.ratchet .alice).dhs)
  ckr : (w.ratchet .bob).ckr ≠ none
  nr : (w.ratchet .bob).nr.toNat = k
  skipped : (w.ratchet .bob).skipped = ∅
  spare : P.x25519Public spare ∉ w.drawn

/-- Alice has sent one message more, and it is the only one in flight. -/
structure OneInFlight (P : Primitives) (spare : Key) (w : World) (k : Nat) (m : Message) :
    Prop where
  inFlight : w.inFlight = [m]
  recipient : m.recipient = .bob
  plaintext : m.plaintext = []
  index : m.header.n.toNat = k
  dh : m.header.dh = P.x25519Public (w.ratchet .alice).dhs
  ready : (w.ratchet .alice).cks ≠ none
  ns : (w.ratchet .alice).ns.toNat = k + 1
  dhr : (w.ratchet .bob).dhr = some (P.x25519Public (w.ratchet .alice).dhs)
  ckr : (w.ratchet .bob).ckr ≠ none
  nr : (w.ratchet .bob).nr.toNat = k
  skipped : (w.ratchet .bob).skipped = ∅
  spare : P.x25519Public spare ∉ w.drawn

theorem InOrder.send {w : World} {k : Nat} (hw : InOrder P spare w k) (hk : k + 1 < 2 ^ 32) :
    ∃ m, OneInFlight P spare (w.step P ad (.send .alice [])) k m := by
  obtain ⟨cks, hcks⟩ := Option.ne_none_iff_exists'.mp hw.ready
  rw [World.step_send (call_encrypt_some P hcks [] ad), hw.inFlight]
  have hbob (r : Ratchet) : Function.update w.ratchet .alice r .bob = w.ratchet .bob :=
    Function.update_of_ne (by decide) _ _
  refine ⟨_, rfl, rfl, rfl, hw.ns, ?_, ?_, ?_, ?_, ?_, ?_, ?_, hw.spare⟩
  all_goals dsimp only
  all_goals simp only [Function.update_self, hbob]
  · rfl
  · exact Option.some_ne_none _
  · rw [UInt32.toNat_add, UInt32.toNat_one, hw.ns, Nat.mod_eq_of_lt hk]
  · exact hw.dhr
  · exact hw.ckr
  · exact hw.nr
  · exact hw.skipped

section Deliver

variable {w : World} {k : Nat} {m : Message}

/-- The delivery is in the skip window, whatever the counters are. -/
theorem OneInFlight.allowed (hw : OneInFlight P spare w k m) :
    w.Allowed P (.deliver 0 spare) := by
  intro m' hm'
  rw [hw.inFlight] at hm'
  obtain rfl := Option.some.inj hm'
  refine ⟨Or.inr ?_, hw.spare⟩
  rw [hw.recipient, hw.dh, if_pos hw.dhr, hw.index, hw.nr]
  omega

theorem OneInFlight.call_decrypt (hw : OneInFlight P spare w k m) :
    (decrypt P spare m.header m.ct ad).call (w.ratchet m.recipient) =
      (receive P m.header m.ct ad).call (w.ratchet .bob) := by
  rw [hw.recipient]
  refine call_decrypt_current P ?_ ?_ spare m.ct ad
  · rw [hw.skipped]
    rfl
  · rw [hw.dhr, hw.dh]

/-- Below the overflow Bob receives the message and the next round can start. -/
theorem OneInFlight.deliver (hw : OneInFlight P spare w k m)
    (hk : k + maxSkip.toNat < 2 ^ 32) :
    InOrder P spare (w.step P ad (.deliver 0 spare)) (k + 1) := by
  have hskip : maxSkip.toNat = 1000 := rfl
  obtain ⟨ck, hckr⟩ := Option.ne_none_iff_exists'.mp hw.ckr
  have hnear : ¬ (w.ratchet .bob).nr + maxSkip < m.header.n :=
    not_add_maxSkip_lt (by rw [hw.nr]; exact hk) (by rw [hw.index, hw.nr]; omega)
  have hcall := hw.call_decrypt ad
  rw [call_receive_ok P hckr hnear] at hcall
  have hdraw : ¬ drawsKey (w.ratchet .bob) m.header := fun h => h.2 (hw.dh ▸ hw.dhr)
  rw [World.step_deliver (by rw [hw.inFlight]; rfl) hcall, hw.recipient, if_neg hdraw]
  have halice (r : Ratchet) : Function.update w.ratchet .bob r .alice = w.ratchet .alice :=
    Function.update_of_ne (by decide) _ _
  have hcount : m.header.n.toNat - (w.ratchet .bob).nr.toNat = 0 := by
    rw [hw.index, hw.nr, Nat.sub_self]
  constructor
  all_goals simp only [Function.update_self, halice, afterReceive, hcount]
  · rw [hw.inFlight]
    rfl
  · exact hw.ready
  · exact hw.ns
  · exact hw.dhr
  · exact Option.some_ne_none _
  · rw [UInt32.toNat_add, UInt32.toNat_one, skipTo_toNat, hw.index, hw.nr]
    omega
  · exact hw.skipped
  · exact hw.spare

/-- At the overflow Bob refuses the message: `nr + MAX_SKIP` is zero. -/
theorem OneInFlight.refused (hw : OneInFlight P spare w k m)
    (hk : k + maxSkip.toNat = 2 ^ 32) :
    ([], .error .tooManySkipped) ∈ (w.step P ad (.deliver 0 spare)).calls := by
  have hskip : maxSkip.toNat = 1000 := rfl
  obtain ⟨ck, hckr⟩ := Option.ne_none_iff_exists'.mp hw.ckr
  have hfar : (w.ratchet .bob).nr + maxSkip < m.header.n := by
    rw [UInt32.lt_iff_toNat_lt, UInt32.toNat_add, hw.nr, hw.index, hk, Nat.mod_self]
    omega
  have hcall := hw.call_decrypt ad
  rw [call_receive_refused P hckr hfar] at hcall
  rw [World.step_deliver (by rw [hw.inFlight]; rfl) hcall, hw.plaintext]
  exact List.mem_cons_self

end Deliver

/-- `n` messages, each sent and delivered at once. -/
def inOrderOps (spare : Key) (n : Nat) : List Op :=
  (List.replicate n [.send .alice [], .deliver 0 spare]).flatten

theorem inOrderOps_succ (spare : Key) (n : Nat) :
    inOrderOps spare (n + 1) = .send .alice [] :: .deliver 0 spare :: inOrderOps spare n := by
  simp [inOrderOps, List.replicate_succ]

theorem InOrder.rounds {w : World} {k : Nat} (hw : InOrder P spare w k) (n : Nat)
    (hk : k + n + maxSkip.toNat ≤ 2 ^ 32) :
    Steps.Along (World.step P ad) (fun w op => w.Allowed P op) w (inOrderOps spare n) ∧
      InOrder P spare (Steps.exec (World.step P ad) w (inOrderOps spare n)) (k + n) := by
  have hskip : maxSkip.toNat = 1000 := rfl
  induction n generalizing w k with
  | zero => exact ⟨trivial, hw⟩
  | succ n ih =>
    obtain ⟨m, hm⟩ := hw.send ad (by omega)
    obtain ⟨hallowed, hlast⟩ := ih (hm.deliver ad (by omega)) (by omega)
    rw [inOrderOps_succ]
    refine ⟨⟨hw.ready, hm.allowed, hallowed⟩, ?_⟩
    rw [show k + (n + 1) = k + 1 + n by omega]
    exact hlast

/-- The rounds up to the overflow are allowed, and so is the one that fails. -/
theorem InOrder.overflow {w : World} {k : Nat} (hw : InOrder P spare w k) (n : Nat)
    (hk : k + n + maxSkip.toNat = 2 ^ 32) :
    Steps.Along (World.step P ad) (fun w op => w.Allowed P op) w
        (inOrderOps spare n ++ [.send .alice [], .deliver 0 spare]) ∧
      ([], .error .tooManySkipped) ∈ (Steps.exec (World.step P ad) w
        (inOrderOps spare n ++ [.send .alice [], .deliver 0 spare])).calls := by
  have hskip : maxSkip.toNat = 1000 := rfl
  obtain ⟨hallowed, hlast⟩ := hw.rounds ad n hk.le
  obtain ⟨m, hm⟩ := hlast.send ad (by omega)
  rw [Steps.along_append, Steps.exec_append]
  exact ⟨⟨hallowed, hlast.ready, hm.allowed, trivial⟩, hm.refused ad hk⟩

end InOrder

theorem inOrder_sample :
    InOrder samplePrimitives (.fill 32 4)
      (Steps.exec (World.step samplePrimitives [])
        (World.initial samplePrimitives (.fill 32 42) (.fill 32 1) (.fill 32 2))
        [.send .alice [], .deliver 0 (.fill 32 3)]) 1 := by
  constructor
  case skipped =>
    apply AList.ext
    decide +kernel
  all_goals decide +kernel

/-- After `2 ^ 32 - 1000` messages of one chain, all delivered in order, the next one is
refused, although it is not ahead of Bob's counter at all. -/
theorem decrypt_refuses_at_overflow :
    let start := World.initial samplePrimitives (.fill 32 42) (.fill 32 1) (.fill 32 2)
    let ops := [.send .alice [], .deliver 0 (.fill 32 3)] ++
      (inOrderOps (.fill 32 4) 4294966295 ++ [.send .alice [], .deliver 0 (.fill 32 4)])
    Steps.Along (World.step samplePrimitives []) (fun w op => w.Allowed samplePrimitives op)
        start ops ∧
      ([], .error .tooManySkipped) ∈ (Steps.exec (World.step samplePrimitives []) start ops).calls := by
  obtain ⟨hallowed, hrefused⟩ := inOrder_sample.overflow [] 4294966295 rfl
  intro start ops
  rw [Steps.along_append, Steps.exec_append]
  exact ⟨⟨by decide +kernel, hallowed⟩, hrefused⟩

end Dante.Dm
