import Dante.Dm.Delivery

/-!
The invariant of a session and what one `decrypt` call does to the receiver. The
sequence of ratchet secrets and the number of messages sent on each chain are
ghost state: the code keeps only the end of both.
-/

namespace Dante.Dm

open Crypto Ratchet

/-- The ratchet secrets of the session in order, and the number of messages sent on
the chain that each of them opens. -/
structure Ghost where
  key : Nat → Key
  sent : Nat → Nat

namespace Ghost

variable (P : Primitives) (sk : Key) (g : Ghost)

def rootChain : Nat → Key × Key
  | 0 => (sk, sk)
  | i + 1 => kdfRk P (rootChain i).1 (P.x25519 (g.key i) (P.x25519Public (g.key (i + 1))))

def chain (i : Nat) : Key := (g.rootChain P sk i).2

def pub (i : Nat) : Key := P.x25519Public (g.key i)

def msgKey (c n : Nat) : Key := messageKey P (g.chain P sk c) n

/-- The length of the chain that the owner of secret `j` sent before. -/
def prevSent : Nat → Nat
  | 0 => 0
  | 1 => 0
  | j + 2 => g.sent j

def peerKey : Nat → Option Key
  | 0 => none
  | j + 1 => some (g.pub P j)

/-- The sending chain of the owner of secret `j`. -/
def sendChain : Nat → Option Key
  | 0 => none
  | j + 1 => some (chainKey P (g.chain P sk (j + 1)) (g.sent (j + 1)))

/-- The receiving chain of the owner of secret `j`, after `nr` messages. -/
def receiveChain (nr : Nat) : Nat → Option Key
  | 0 => none
  | 1 => none
  | j + 2 => some (chainKey P (g.chain P sk (j + 1)) nr)

/-- The secrets up to `top` have distinct public keys. -/
def Distinct (top : Nat) : Prop :=
  ∀ a b, a ≤ top → b ≤ top → g.pub P a = g.pub P b → a = b

def draw (i : Nat) (fresh : Key) : Ghost where
  key := Function.update g.key i fresh
  sent := Function.update g.sent i 0

def addSent (i : Nat) : Ghost where
  key := g.key
  sent := Function.update g.sent i (g.sent i + 1)

end Ghost

/-- The fields of a ratchet whose owner holds secret `j`. -/
structure PartyAt (P : Primitives) (sk : Key) (g : Ghost) (j : Nat) (r : Ratchet) : Prop where
  dhs : r.dhs = g.key j
  rk : r.rk = (g.rootChain P sk j).1
  ns : r.ns.toNat = g.sent j
  pn : r.pn.toNat = g.prevSent j
  dhr : r.dhr = g.peerKey P j
  cks : r.cks = g.sendChain P sk j
  ckr : r.ckr = g.receiveChain P sk r.nr.toNat j
  nr_le : ∀ c, c + 1 = j → r.nr.toNat ≤ g.sent c
  /-- Keys are only stored for chains of earlier secrets, and for the receiving
  chain only below the counter. -/
  stored : ∀ d n msgKey, r.skipped.lookup (d, n) = some msgKey →
    ∃ c, c < j ∧ d = g.pub P c ∧ (c + 1 = j → n.toNat < r.nr.toNat)

/-- Message `n` of chain `c` can still be delivered to the party. -/
def Pending (P : Primitives) (sk : Key) (g : Ghost) (j : Nat) (r : Ratchet) (c : Nat)
    (n : UInt32) : Prop :=
  c = j + 1 ∨ (c + 1 = j ∧ r.nr.toNat ≤ n.toNat) ∨
    (c < j ∧ r.skipped.lookup (g.pub P c, n) = some (g.msgKey P sk c n.toNat))

/-- A header and ciphertext of message `header.n` of chain `c`. -/
structure Genuine (P : Primitives) (sk : Key) (ad : Bytes) (g : Ghost) (c : Nat)
    (header : Header) (ct plaintext : Bytes) : Prop where
  pos : 1 ≤ c
  dh : header.dh = g.pub P c
  pn : header.pn.toNat = g.prevSent c
  lt : header.n.toNat < g.sent c
  ct : ct = sealMessage P (g.msgKey P sk c header.n.toNat) header plaintext ad

section Draw

variable {P : Primitives} {sk : Key} {ad : Bytes} {g : Ghost} {i j l c : Nat} {fresh : Key}

theorem Ghost.draw_key (hlt : i < l) : (g.draw l fresh).key i = g.key i :=
  Function.update_of_ne (by omega) _ _

theorem Ghost.draw_sent_of_ne (hne : i ≠ l) : (g.draw l fresh).sent i = g.sent i :=
  Function.update_of_ne hne _ _

theorem Ghost.draw_sent (hlt : i < l) : (g.draw l fresh).sent i = g.sent i :=
  Ghost.draw_sent_of_ne (by omega)

theorem Ghost.draw_key_self : (g.draw l fresh).key l = fresh := Function.update_self _ _ _

theorem Ghost.draw_sent_self : (g.draw l fresh).sent l = 0 := Function.update_self _ _ _

theorem Ghost.draw_pub (hlt : i < l) : (g.draw l fresh).pub P i = g.pub P i := by
  rw [Ghost.pub, Ghost.pub, Ghost.draw_key hlt]

theorem Ghost.draw_prevSent (hlt : i < l) : (g.draw l fresh).prevSent i = g.prevSent i := by
  match i with
  | 0 => rfl
  | 1 => rfl
  | i + 2 => exact Ghost.draw_sent (by omega)

theorem Ghost.draw_rootChain (hlt : i < l) :
    (g.draw l fresh).rootChain P sk i = g.rootChain P sk i := by
  induction i with
  | zero => rfl
  | succ i ih =>
    rw [Ghost.rootChain, Ghost.rootChain, ih (by omega), Ghost.draw_key (by omega),
      Ghost.draw_key hlt]

theorem Ghost.draw_rootChain_self :
    (g.draw (i + 1) fresh).rootChain P sk (i + 1) =
      kdfRk P (g.rootChain P sk i).1 (P.x25519 (g.key i) (P.x25519Public fresh)) := by
  rw [Ghost.rootChain, Ghost.draw_rootChain (Nat.lt_succ_self i),
    Ghost.draw_key (Nat.lt_succ_self i), Ghost.draw_key_self]

theorem Ghost.draw_chain (hlt : i < l) : (g.draw l fresh).chain P sk i = g.chain P sk i := by
  rw [Ghost.chain, Ghost.chain, Ghost.draw_rootChain hlt]

theorem Ghost.draw_msgKey (hlt : i < l) (n : Nat) :
    (g.draw l fresh).msgKey P sk i n = g.msgKey P sk i n := by
  rw [Ghost.msgKey, Ghost.msgKey, Ghost.draw_chain hlt]

theorem Ghost.draw_peerKey (hle : j ≤ l) : (g.draw l fresh).peerKey P j = g.peerKey P j := by
  match j with
  | 0 => rfl
  | j + 1 => rw [Ghost.peerKey, Ghost.peerKey, Ghost.draw_pub (by omega)]

theorem Ghost.draw_sendChain (hlt : j < l) :
    (g.draw l fresh).sendChain P sk j = g.sendChain P sk j := by
  match j with
  | 0 => rfl
  | j + 1 =>
    rw [Ghost.sendChain, Ghost.sendChain, Ghost.draw_chain hlt, Ghost.draw_sent hlt]

theorem Ghost.draw_receiveChain (hlt : j < l) (nr : Nat) :
    (g.draw l fresh).receiveChain P sk nr j = g.receiveChain P sk nr j := by
  match j with
  | 0 => rfl
  | 1 => rfl
  | j + 2 => rw [Ghost.receiveChain, Ghost.receiveChain, Ghost.draw_chain (by omega)]

theorem PartyAt.draw {r : Ratchet} (hr : PartyAt P sk g j r) (hlt : j < l) :
    PartyAt P sk (g.draw l fresh) j r where
  dhs := by rw [Ghost.draw_key hlt, hr.dhs]
  rk := by rw [Ghost.draw_rootChain hlt, hr.rk]
  ns := by rw [Ghost.draw_sent hlt, hr.ns]
  pn := by rw [Ghost.draw_prevSent hlt, hr.pn]
  dhr := by rw [Ghost.draw_peerKey hlt.le, hr.dhr]
  cks := by rw [Ghost.draw_sendChain hlt, hr.cks]
  ckr := by rw [Ghost.draw_receiveChain hlt, hr.ckr]
  nr_le c hc := by rw [Ghost.draw_sent (by omega)]; exact hr.nr_le c hc
  stored d n msgKey hsome := by
    obtain ⟨c, hc, hpub, hbelow⟩ := hr.stored d n msgKey hsome
    exact ⟨c, hc, by rw [Ghost.draw_pub (by omega), hpub], hbelow⟩

theorem Pending.draw {r : Ratchet} {n : UInt32} (hpend : Pending P sk g j r c n)
    (hlt : c < l) : Pending P sk (g.draw l fresh) j r c n := by
  rw [Pending, Ghost.draw_pub hlt, Ghost.draw_msgKey hlt]
  exact hpend

theorem Genuine.draw {header : Header} {ct plaintext : Bytes}
    (hm : Genuine P sk ad g c header ct plaintext) (hlt : c < l) :
    Genuine P sk ad (g.draw l fresh) c header ct plaintext where
  pos := hm.pos
  dh := by rw [Ghost.draw_pub hlt, hm.dh]
  pn := by rw [Ghost.draw_prevSent hlt, hm.pn]
  lt := by rw [Ghost.draw_sent hlt]; exact hm.lt
  ct := by rw [Ghost.draw_msgKey hlt, ← hm.ct]

theorem Ghost.Distinct.draw (hdistinct : g.Distinct P j) (fresh : Key)
    (hfresh : ∀ a, a ≤ j → g.pub P a ≠ P.x25519Public fresh) :
    (g.draw (j + 1) fresh).Distinct P (j + 1) := by
  have hnew : (g.draw (j + 1) fresh).pub P (j + 1) = P.x25519Public fresh := by
    rw [Ghost.pub, Ghost.draw_key_self]
  intro a b ha hb hpub
  by_cases haj : a = j + 1
  · by_cases hbj : b = j + 1
    · omega
    · rw [haj, hnew, Ghost.draw_pub (by omega)] at hpub
      exact absurd hpub.symm (hfresh b (by omega))
  · by_cases hbj : b = j + 1
    · rw [hbj, hnew, Ghost.draw_pub (by omega)] at hpub
      exact absurd hpub (hfresh a (by omega))
    · rw [Ghost.draw_pub (by omega), Ghost.draw_pub (by omega)] at hpub
      exact hdistinct a b (by omega) (by omega) hpub

end Draw

section AddSent

variable {P : Primitives} {sk : Key} {ad : Bytes} {g : Ghost} {i j l c : Nat}

theorem Ghost.addSent_sent (hne : i ≠ l) : (g.addSent l).sent i = g.sent i :=
  Function.update_of_ne hne _ _

theorem Ghost.addSent_sent_self : (g.addSent l).sent l = g.sent l + 1 :=
  Function.update_self _ _ _

theorem Ghost.sent_le_addSent : g.sent i ≤ (g.addSent l).sent i := by
  by_cases hil : i = l
  · rw [hil, Ghost.addSent_sent_self]
    omega
  · rw [Ghost.addSent_sent hil]

@[simp]
theorem Ghost.addSent_pub : (g.addSent l).pub P i = g.pub P i := rfl

@[simp]
theorem Ghost.addSent_peerKey : (g.addSent l).peerKey P j = g.peerKey P j := by
  cases j <;> rfl

@[simp]
theorem Ghost.addSent_rootChain : (g.addSent l).rootChain P sk i = g.rootChain P sk i := by
  induction i with
  | zero => rfl
  | succ i ih => rw [Ghost.rootChain, Ghost.rootChain, ih]; rfl

@[simp]
theorem Ghost.addSent_chain : (g.addSent l).chain P sk i = g.chain P sk i := by
  rw [Ghost.chain, Ghost.chain, Ghost.addSent_rootChain]

@[simp]
theorem Ghost.addSent_msgKey (n : Nat) : (g.addSent l).msgKey P sk i n = g.msgKey P sk i n := by
  rw [Ghost.msgKey, Ghost.msgKey, Ghost.addSent_chain]

@[simp]
theorem Ghost.addSent_receiveChain (nr : Nat) :
    (g.addSent l).receiveChain P sk nr j = g.receiveChain P sk nr j := by
  match j with
  | 0 => rfl
  | 1 => rfl
  | j + 2 => rw [Ghost.receiveChain, Ghost.receiveChain, Ghost.addSent_chain]

theorem Ghost.addSent_prevSent (hle : j ≤ l + 1) :
    (g.addSent l).prevSent j = g.prevSent j := by
  match j with
  | 0 => rfl
  | 1 => rfl
  | j + 2 => exact Ghost.addSent_sent (by omega)

theorem Pending.addSent {r : Ratchet} {n : UInt32} (hpend : Pending P sk g j r c n) :
    Pending P sk (g.addSent l) j r c n := by
  rw [Pending, Ghost.addSent_pub, Ghost.addSent_msgKey]
  exact hpend

theorem Genuine.addSent {header : Header} {ct plaintext : Bytes}
    (hm : Genuine P sk ad g c header ct plaintext) (hle : c ≤ l + 1) :
    Genuine P sk ad (g.addSent l) c header ct plaintext where
  pos := hm.pos
  dh := hm.dh
  pn := by rw [Ghost.addSent_prevSent hle, hm.pn]
  lt := lt_of_lt_of_le hm.lt Ghost.sent_le_addSent
  ct := by rw [Ghost.addSent_msgKey, ← hm.ct]

theorem PartyAt.addSent {r : Ratchet} (hr : PartyAt P sk g j r) (hne : j ≠ l)
    (hle : j ≤ l + 1) : PartyAt P sk (g.addSent l) j r where
  dhs := hr.dhs
  rk := by rw [Ghost.addSent_rootChain, hr.rk]
  ns := by rw [Ghost.addSent_sent hne, hr.ns]
  pn := by rw [Ghost.addSent_prevSent hle, hr.pn]
  dhr := by rw [Ghost.addSent_peerKey, hr.dhr]
  cks := by
    rw [hr.cks]
    match j with
    | 0 => rfl
    | j + 1 =>
      rw [Ghost.sendChain, Ghost.sendChain, Ghost.addSent_chain, Ghost.addSent_sent hne]
  ckr := by rw [Ghost.addSent_receiveChain, hr.ckr]
  nr_le c hc := (hr.nr_le c hc).trans Ghost.sent_le_addSent
  stored := hr.stored

/-- `encrypt` sends message `sent l` of chain `l` and counts it. -/
theorem PartyAt.encrypt {r : Ratchet} (hr : PartyAt P sk g l r) (hready : r.cks ≠ none)
    (hfits : r.ns.toNat + 1 < 2 ^ 32) (plaintext ad : Bytes) :
    ∃ header ct r', (Ratchet.encrypt P plaintext ad).call r = (.ok (header, ct), r') ∧
      PartyAt P sk (g.addSent l) l r' ∧ header.n.toNat = g.sent l ∧
      Genuine P sk ad (g.addSent l) l header ct plaintext ∧
      r'.nr = r.nr ∧ r'.skipped = r.skipped := by
  match l, hr with
  | 0, hr => exact absurd hr.cks hready
  | i + 1, hr =>
    have hns : (r.ns + 1).toNat = g.sent (i + 1) + 1 := by
      rw [UInt32.toNat_add, UInt32.toNat_one, Nat.mod_eq_of_lt hfits, hr.ns]
    refine ⟨_, _, _, call_encrypt_some P hr.cks plaintext ad, ?_, hr.ns, ?_, rfl, rfl⟩
    · exact
        { dhs := hr.dhs
          rk := by rw [Ghost.addSent_rootChain, hr.rk]
          ns := by rw [Ghost.addSent_sent_self]; exact hns
          pn := by rw [Ghost.addSent_prevSent (by omega), hr.pn]
          dhr := by rw [Ghost.addSent_peerKey, hr.dhr]
          cks := by
            rw [Ghost.sendChain, Ghost.addSent_chain, Ghost.addSent_sent_self]
            rfl
          ckr := by rw [Ghost.addSent_receiveChain, hr.ckr]
          nr_le := fun c hc => (hr.nr_le c hc).trans Ghost.sent_le_addSent
          stored := hr.stored }
    · exact
        { pos := by omega
          dh := by rw [nextHeader, hr.dhs]; rfl
          pn := by rw [Ghost.addSent_prevSent (by omega)]; exact hr.pn
          lt := by
            rw [Ghost.addSent_sent_self, nextHeader, hr.ns]
            exact Nat.lt_succ_self _
          ct := by
            rw [Ghost.addSent_msgKey, nextHeader, hr.ns]
            rfl }

end AddSent

section Receiver

variable {P : Primitives} {sk : Key} {ad : Bytes} {g : Ghost} {j top c : Nat} {r : Ratchet}
  {header : Header} {ct plaintext : Bytes}
variable {fresh : Key}

/-- A message that waits for its chain has no stored key. -/
theorem PartyAt.lookup_eq_none (hr : PartyAt P sk g j r) (hdistinct : g.Distinct P top)
    (hj : j ≤ top) (hc : c ≤ top) {n : UInt32}
    (hwait : c = j + 1 ∨ (c + 1 = j ∧ r.nr.toNat ≤ n.toNat)) :
    r.skipped.lookup (g.pub P c, n) = none := by
  by_contra hsome
  obtain ⟨msgKey, hlookup⟩ := Option.ne_none_iff_exists'.mp hsome
  obtain ⟨c', hlt, hpub, hbelow⟩ := hr.stored _ _ _ hlookup
  obtain rfl := hdistinct c c' hc (by omega) hpub
  rcases hwait with hnew | ⟨hcur, hge⟩
  · omega
  · have := hbelow hcur
    omega

/-- Every other message sent so far can be delivered after the step if it could be
delivered before. -/
def KeepsPending (P : Primitives) (sk : Key) (top : Nat) (g g' : Ghost) (j j' : Nat)
    (r r' : Ratchet) (c : Nat) (n : UInt32) : Prop :=
  ∀ c' n', 1 ≤ c' → c' ≤ top → n'.toNat < g.sent c' → ¬ (c' = c ∧ n' = n) →
    Pending P sk g j r c' n' → Pending P sk g' j' r' c' n'

theorem PartyAt.deliver_stored (hP : Honest P) (hr : PartyAt P sk g j r)
    (hdistinct : g.Distinct P top) (hj : j ≤ top) (hc : c ≤ top)
    (hm : Genuine P sk ad g c header ct plaintext)
    (hpending : Pending P sk g j r c header.n)
    (hstored : r.skipped.lookup (header.dh, header.n) ≠ none) (fresh : Key) :
    ∃ r', (decrypt P fresh header ct ad).call r = (.ok plaintext, r') ∧ r'.nr = r.nr ∧
      PartyAt P sk g j r' ∧ KeepsPending P sk top g g j j r r' c header.n := by
  rw [hm.dh] at hstored
  have hkey : r.skipped.lookup (g.pub P c, header.n) =
      some (g.msgKey P sk c header.n.toNat) := by
    rcases hpending with hnew | hcur | ⟨-, hkey⟩
    · exact absurd (hr.lookup_eq_none hdistinct hj hc (Or.inl hnew)) hstored
    · exact absurd (hr.lookup_eq_none hdistinct hj hc (Or.inr hcur)) hstored
    · exact hkey
  have hcall := call_decrypt_stored P (hm.dh ▸ hkey) fresh ct ad
  rw [hm.ct, openMessage_sealMessage hP, ← hm.ct] at hcall
  refine ⟨_, hcall, rfl, { hr with stored := ?_ }, ?_⟩
  · intro d n msgKey hlookup
    apply hr.stored d n msgKey
    by_cases hsame : (d, n) = (header.dh, header.n)
    · rw [hsame, AList.lookup_erase] at hlookup
      cases hlookup
    · rwa [AList.lookup_erase_ne hsame] at hlookup
  · intro c' n' _ hc' _ hne hpend
    rcases hpend with hnew | hcur | ⟨hlt, hlookup⟩
    · exact Or.inl hnew
    · exact Or.inr (Or.inl hcur)
    · refine Or.inr (Or.inr ⟨hlt, ?_⟩)
      have hkeyne : (g.pub P c', n') ≠ (header.dh, header.n) := by
        intro heq
        obtain ⟨hpub, hn⟩ := Prod.mk.inj heq
        exact hne ⟨hdistinct c' c hc' hc (hpub.trans hm.dh), hn⟩
      rw [AList.lookup_erase_ne hkeyne]
      exact hlookup

/-- Storing the rest of a receiving chain up to `last`: the stored keys are those of
the chain. -/
theorem lookup_storeKeys_chain (P : Primitives) (sk : Key) (g : Ghost) (dhr : Key)
    (skipped : SkippedKeys) (nr last : UInt32) (c : Nat) (d : Key) (i : UInt32) :
    (storeKeys P dhr (last.toNat - nr.toNat) (chainKey P (g.chain P sk c) nr.toNat) nr
        skipped).lookup (d, i) =
      if d = dhr ∧ nr.toNat ≤ i.toNat ∧ i.toNat < last.toNat then
        some (g.msgKey P sk c i.toNat)
      else
        skipped.lookup (d, i) := by
  have hlast := last.toNat_lt
  have hnr := nr.toNat_lt
  by_cases hle : nr.toNat ≤ last.toNat
  · rw [lookup_storeKeys P dhr _ _ nr skipped (by omega), messageKey_add]
    by_cases hin : d = dhr ∧ nr.toNat ≤ i.toNat ∧ i.toNat < last.toNat
    · rw [if_pos hin, if_pos ⟨hin.1, hin.2.1, by omega⟩, Ghost.msgKey]
      congr 2
      omega
    · rw [if_neg hin, if_neg (fun h => hin ⟨h.1, h.2.1, by omega⟩)]
  · have hzero : last.toNat - nr.toNat = 0 := by omega
    rw [hzero, if_neg (by omega)]
    rfl

/-- The receiving chain gives the key of a message it has not passed yet. -/
theorem PartyAt.receive_ok {i : Nat} (hP : Honest P) (hr : PartyAt P sk g (i + 2) r)
    (hdistinct : g.Distinct P top) (htop : i + 2 ≤ top) (hfits : g.sent (i + 1) < 2 ^ 32)
    (hm : Genuine P sk ad g (i + 1) header ct plaintext)
    (hahead : r.nr.toNat ≤ header.n.toNat) (hnear : ¬ r.nr + maxSkip < header.n) :
    ∃ r', (receive P header ct ad).call r = (.ok plaintext, r') ∧
      r'.nr.toNat = header.n.toNat + 1 ∧ PartyAt P sk g (i + 2) r' ∧
      KeepsPending P sk top g g (i + 2) (i + 2) r r' (i + 1) header.n := by
  have hcall := call_receive_ok P hr.ckr hnear ct ad
  have hindex : r.nr.toNat + (header.n.toNat - r.nr.toNat) = header.n.toNat := by omega
  rw [messageKey_add, hindex, ← Ghost.msgKey, hm.ct, openMessage_sealMessage hP, ← hm.ct] at hcall
  have hdhr : r.dhr = some (g.pub P (i + 1)) := hr.dhr
  have hnr : (skipTo r.nr header.n + 1).toNat = header.n.toNat + 1 := by
    have hlt := hm.lt
    rw [UInt32.toNat_add, UInt32.toNat_one, skipTo_toNat]
    omega
  have hlookup (d : Key) (n : UInt32) :
      (afterReceive P r (chainKey P (g.chain P sk (i + 1)) r.nr.toNat) header.n).skipped.lookup
          (d, n) =
        if d = g.pub P (i + 1) ∧ r.nr.toNat ≤ n.toNat ∧ n.toNat < header.n.toNat then
          some (g.msgKey P sk (i + 1) n.toNat)
        else
          r.skipped.lookup (d, n) := by
    rw [afterReceive, hdhr]
    exact lookup_storeKeys_chain P sk g _ r.skipped r.nr header.n (i + 1) d n
  refine ⟨_, hcall, hnr, ?_, ?_⟩
  · refine { hr with ckr := ?_, nr_le := ?_, stored := ?_ }
    · show some (chainKey P _ _) = some (chainKey P _ (skipTo r.nr header.n + 1).toNat)
      rw [hnr, chainKey_add, ← Nat.add_assoc, hindex]
    · intro c hc
      obtain rfl : c = i + 1 := by omega
      show (skipTo r.nr header.n + 1).toNat ≤ _
      rw [hnr]
      exact hm.lt
    · intro d n msgKey hsome
      rw [hlookup] at hsome
      show ∃ c, c < i + 2 ∧ d = g.pub P c ∧
        (c + 1 = i + 2 → n.toNat < (skipTo r.nr header.n + 1).toNat)
      rw [hnr]
      split at hsome
      · rename_i hin
        exact ⟨i + 1, by omega, hin.1, fun _ => by omega⟩
      · obtain ⟨c, hlt, hpub, hbelow⟩ := hr.stored d n msgKey hsome
        refine ⟨c, hlt, hpub, fun hc => ?_⟩
        have := hbelow hc
        omega
  · intro c' n' _ hc' _ hne hpend
    rcases hpend with hnew | ⟨hcur, hge⟩ | ⟨hlt, hkey⟩
    · exact Or.inl hnew
    · -- another message of this chain: past the counter, or stored on the way
      obtain rfl : c' = i + 1 := by omega
      have hn : n'.toNat ≠ header.n.toNat := fun heq => hne ⟨rfl, UInt32.toNat_inj.mp heq⟩
      by_cases hafter : header.n.toNat < n'.toNat
      · refine Or.inr (Or.inl ⟨hcur, ?_⟩)
        show (skipTo r.nr header.n + 1).toNat ≤ _
        rw [hnr]
        omega
      · refine Or.inr (Or.inr ⟨by omega, ?_⟩)
        rw [hlookup, if_pos ⟨rfl, hge, by omega⟩]
    · refine Or.inr (Or.inr ⟨hlt, ?_⟩)
      rw [hlookup]
      split
      · rename_i hin
        obtain rfl := hdistinct c' (i + 1) hc' (by omega) hin.1
        rfl
      · exact hkey

theorem PartyAt.deliver_current (hP : Honest P) (hr : PartyAt P sk g j r)
    (hdistinct : g.Distinct P top) (htop : j ≤ top) (hfits : g.sent c < 2 ^ 32)
    (hm : Genuine P sk ad g c header ct plaintext) (hc : c + 1 = j)
    (hahead : r.nr.toNat ≤ header.n.toNat)
    (hfree : r.skipped.lookup (header.dh, header.n) = none)
    (hnear : ¬ r.nr + maxSkip < header.n) (fresh : Key) :
    ∃ r', (decrypt P fresh header ct ad).call r = (.ok plaintext, r') ∧
      r'.nr.toNat = header.n.toNat + 1 ∧ PartyAt P sk g j r' ∧
      KeepsPending P sk top g g j j r r' c header.n := by
  obtain ⟨i, rfl⟩ : ∃ i, c = i + 1 := ⟨c - 1, by have := hm.pos; omega⟩
  subst hc
  have hdhr : r.dhr = some header.dh := hr.dhr.trans (congrArg some hm.dh.symm)
  rw [call_decrypt_current P hfree hdhr]
  exact hr.receive_ok hP hdistinct htop hfits hm hahead hnear

/-- Before a Diffie-Hellman step the rest of the old receiving chain is stored, so
every message sent on an earlier chain has its key stored. -/
theorem PartyAt.skip_previous (hr : PartyAt P sk g j r) (hdistinct : g.Distinct P (j + 1))
    {pn : UInt32} (hpn : pn.toNat = g.prevSent (j + 1)) (hnear : ¬ r.nr + maxSkip < pn) :
    ∃ ckr nr skipped,
      (skipMessageKeys P pn).call r =
        (.ok (), { r with ckr := ckr, nr := nr, skipped := skipped }) ∧
      (∀ d n msgKey, skipped.lookup (d, n) = some msgKey → ∃ c, c < j ∧ d = g.pub P c) ∧
      ∀ c' n', 1 ≤ c' → c' ≤ j → n'.toNat < g.sent c' → Pending P sk g j r c' n' →
        skipped.lookup (g.pub P c', n') = some (g.msgKey P sk c' n'.toNat) := by
  have hsound (d : Key) (n : UInt32) (msgKey : Key)
      (hsome : r.skipped.lookup (d, n) = some msgKey) : ∃ c, c < j ∧ d = g.pub P c := by
    obtain ⟨c, hlt, hpub, -⟩ := hr.stored d n msgKey hsome
    exact ⟨c, hlt, hpub⟩
  match j, hr with
  | 0, hr =>
    refine ⟨r.ckr, r.nr, r.skipped, call_skipMessageKeys_none P hr.ckr pn, hsound, ?_⟩
    intro c' n' hpos hle
    omega
  | 1, hr =>
    refine ⟨r.ckr, r.nr, r.skipped, call_skipMessageKeys_none P hr.ckr pn, hsound, ?_⟩
    intro c' n' hpos hle _ hpend
    rcases hpend with hnew | ⟨hcur, -⟩ | ⟨-, hkey⟩
    · omega
    · omega
    · exact hkey
  | i + 2, hr =>
    have hdhr : r.dhr = some (g.pub P (i + 1)) := hr.dhr
    have hlookup := lookup_storeKeys_chain P sk g (g.pub P (i + 1)) r.skipped r.nr pn (i + 1)
    refine ⟨_, _, _, call_skipMessageKeys_ok P hr.ckr hnear, ?_, ?_⟩
    · intro d n msgKey hsome
      rw [hdhr, Option.getD_some, hlookup] at hsome
      split at hsome
      · rename_i hin
        exact ⟨i + 1, by omega, hin.1⟩
      · exact hsound d n msgKey hsome
    · intro c' n' hpos hle hsent hpend
      rw [hdhr, Option.getD_some, hlookup]
      rcases hpend with hnew | ⟨hcur, hge⟩ | ⟨hlt, hkey⟩
      · omega
      · obtain rfl : c' = i + 1 := by omega
        rw [if_pos ⟨rfl, hge, by rw [hpn]; exact hsent⟩]
      · split
        · rename_i hin
          obtain rfl := hdistinct c' (i + 1) (by omega) (by omega) hin.1
          rfl
        · exact hkey

/-- The Diffie-Hellman step with the peer's secret `j + 1` takes the owner of secret
`j` to the fresh secret `j + 2`. -/
theorem PartyAt.dhRatchet (hP : Honest P) (hr : PartyAt P sk g j r)
    (hdistinct : g.Distinct P (j + 1)) (hdh : header.dh = g.pub P (j + 1))
    {pn : UInt32} (hpn : pn.toNat = g.prevSent (j + 1)) (hnear : ¬ r.nr + maxSkip < pn)
    (fresh : Key) :
    ∃ r1 r2, (skipMessageKeys P pn).call r = (.ok (), r1) ∧
      (Ratchet.dhRatchet P fresh header).call r1 = (.ok (), r2) ∧ r2.nr = 0 ∧
      PartyAt P sk (g.draw (j + 2) fresh) (j + 2) r2 ∧
      ∀ c' n', 1 ≤ c' → c' ≤ j + 1 → n'.toNat < g.sent c' → Pending P sk g j r c' n' →
        Pending P sk (g.draw (j + 2) fresh) (j + 2) r2 c' n' := by
  obtain ⟨ckr, nr, skipped, hskip, hsound, hkeys⟩ := hr.skip_previous hdistinct hpn hnear
  have hfirst : P.x25519 r.dhs header.dh ≠ .fill 32 0 := by
    rw [hdh]
    exact hP.agree_ne_zero r.dhs (g.key (j + 1))
  have hsecond : P.x25519 fresh header.dh ≠ .fill 32 0 := by
    rw [hdh]
    exact hP.agree_ne_zero fresh (g.key (j + 1))
  have hcall := call_dhRatchet_ok P { r with ckr := ckr, nr := nr, skipped := skipped }
    hfirst hsecond
  -- the two derivations give the next two entries of the root chain
  have hnext : kdfRk P r.rk (P.x25519 r.dhs header.dh) = g.rootChain P sk (j + 1) := by
    rw [hr.rk, hr.dhs, hdh, Ghost.rootChain, Ghost.pub]
  have hlast : kdfRk P (g.rootChain P sk (j + 1)).1 (P.x25519 fresh header.dh) =
      (g.draw (j + 2) fresh).rootChain P sk (j + 2) := by
    rw [Ghost.draw_rootChain_self, hdh, Ghost.pub, hP.agree_comm]
  refine ⟨_, _, hskip, hcall, rfl, ?_, ?_⟩
  · refine
      { dhs := Ghost.draw_key_self.symm
        rk := ?_
        ns := Ghost.draw_sent_self.symm
        pn := ?_
        dhr := ?_
        cks := ?_
        ckr := ?_
        nr_le := fun _ _ => Nat.zero_le _
        stored := ?_ }
    · simp only [afterDhRatchet, hnext, hlast]
    · simp only [afterDhRatchet, Ghost.prevSent]
      rw [Ghost.draw_sent (by omega), hr.ns]
    · simp only [afterDhRatchet, Ghost.peerKey]
      rw [Ghost.draw_pub (by omega), hdh]
    · simp only [afterDhRatchet, hnext, hlast, Ghost.sendChain, Ghost.draw_sent_self]
      rfl
    · simp only [afterDhRatchet, hnext, Ghost.receiveChain]
      rw [Ghost.draw_chain (by omega)]
      rfl
    · intro d n msgKey hsome
      obtain ⟨c', hlt, hpub⟩ := hsound d n msgKey hsome
      exact ⟨c', by omega, by rw [Ghost.draw_pub (by omega), hpub], by omega⟩
  · intro c' n' hpos hle hsent hpend
    by_cases hnew : c' = j + 1
    · exact Or.inr (Or.inl ⟨by omega, Nat.zero_le _⟩)
    · refine Or.inr (Or.inr ⟨by omega, ?_⟩)
      rw [Ghost.draw_pub (by omega), Ghost.draw_msgKey (by omega)]
      exact hkeys c' n' hpos (by omega) hsent hpend

/-- The key of the peer's next chain is not the current peer key. -/
theorem PartyAt.dhr_ne (hr : PartyAt P sk g j r) (hdistinct : g.Distinct P (j + 1))
    (hdh : header.dh = g.pub P (j + 1)) : r.dhr ≠ some header.dh := by
  rw [hr.dhr, hdh]
  match j with
  | 0 => exact (Option.some_ne_none _).symm
  | i + 1 =>
    intro heq
    have := hdistinct i (i + 2) (by omega) (by omega) (Option.some.inj heq)
    omega

theorem PartyAt.deliver_newChain (hP : Honest P) (hr : PartyAt P sk g j r)
    (hdistinct : g.Distinct P (j + 1)) (hfits : g.sent (j + 1) < 2 ^ 32)
    (hm : Genuine P sk ad g (j + 1) header ct plaintext)
    (hfree : r.skipped.lookup (header.dh, header.n) = none) (hdhr : r.dhr ≠ some header.dh)
    (hnear : ¬ r.nr + maxSkip < header.pn) (hn : ¬ maxSkip < header.n)
    (hfresh : ∀ a, a ≤ j + 1 → g.pub P a ≠ P.x25519Public fresh) :
    ∃ r', (decrypt P fresh header ct ad).call r = (.ok plaintext, r') ∧
      r'.nr.toNat = header.n.toNat + 1 ∧ PartyAt P sk (g.draw (j + 2) fresh) (j + 2) r' ∧
      KeepsPending P sk (j + 1) g (g.draw (j + 2) fresh) j (j + 2) r r' (j + 1) header.n := by
  obtain ⟨r1, r2, hskip, hratchet, hnr, hr2, hkeep⟩ :=
    hr.dhRatchet hP hdistinct hm.dh hm.pn hnear fresh
  obtain ⟨r3, hreceive, hnr3, hr3, hkeep3⟩ := hr2.receive_ok hP
    (hdistinct.draw fresh hfresh) le_rfl (by rw [Ghost.draw_sent (by omega)]; exact hfits)
    (hm.draw (by omega)) (by rw [hnr]; exact Nat.zero_le _) (by rw [hnr, UInt32.zero_add]; exact hn)
  refine ⟨r3, ?_, hnr3, hr3, ?_⟩
  · rw [call_decrypt_newChain P hfree hdhr, Method.call_bind_ok hskip,
      Method.call_bind_ok hratchet, hreceive]
  · intro c' n' hpos hle hsent hne hpend
    exact hkeep3 c' n' hpos (by omega) (by rw [Ghost.draw_sent (by omega)]; exact hsent) hne
      (hkeep c' n' hpos hle hsent hpend)

end Receiver

end Dante.Dm
