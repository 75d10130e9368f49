import Dante.Dm.Ratchet

/-!
What each method of the ratchet does to the state, once for every caller. The
skip loop stores the message keys of a range of indices, `decrypt` runs in one of
three ways: a stored key, the current receiving chain, or a new chain after a
Diffie-Hellman step.
-/

namespace Dante.Dm

open Crypto Enc

section Keys

variable (P : Primitives)

theorem chainKey_succ' (ck : Key) (i : Nat) :
    chainKey P (kdfCk P ck).1 i = chainKey P ck (i + 1) := by
  induction i with
  | zero => rfl
  | succ i ih => rw [chainKey, ih, ← chainKey]

theorem chainKey_add (ck : Key) (i j : Nat) :
    chainKey P (chainKey P ck i) j = chainKey P ck (i + j) := by
  induction j with
  | zero => rfl
  | succ j ih => rw [chainKey, ih, ← Nat.add_assoc, chainKey]

theorem messageKey_add (ck : Key) (i j : Nat) :
    messageKey P (chainKey P ck i) j = messageKey P ck (i + j) := by
  rw [messageKey, chainKey_add, ← messageKey]

/-- The keys of `count` messages of the chain `ck`, stored from index `start` on. -/
def storeKeys (dhr : Key) : Nat → Key → UInt32 → SkippedKeys → SkippedKeys
  | 0, _, _, skipped => skipped
  | count + 1, ck, start, skipped =>
    storeKeys dhr count (kdfCk P ck).1 (start + 1)
      (skipped.insert (dhr, start) (kdfCk P ck).2)

theorem lookup_storeKeys (dhr : Key) (count : Nat) (ck : Key) (start : UInt32)
    (skipped : SkippedKeys) (hbound : start.toNat + count < 2 ^ 32) (d : Key) (i : UInt32) :
    (storeKeys P dhr count ck start skipped).lookup (d, i) =
      if d = dhr ∧ start.toNat ≤ i.toNat ∧ i.toNat < start.toNat + count then
        some (messageKey P ck (i.toNat - start.toNat))
      else
        skipped.lookup (d, i) := by
  induction count generalizing ck start skipped with
  | zero =>
    rw [if_neg (by omega)]
    rfl
  | succ count ih =>
    have hnext : (start + 1).toNat = start.toNat + 1 := by
      rw [UInt32.toNat_add, UInt32.toNat_one]
      omega
    rw [storeKeys, ih _ _ _ (by omega), hnext]
    by_cases hstart : d = dhr ∧ i = start
    · obtain ⟨rfl, rfl⟩ := hstart
      rw [if_neg (by omega), if_pos ⟨rfl, by omega, by omega⟩, AList.lookup_insert, Nat.sub_self]
      rfl
    · have hne : ((d, i) : Key × UInt32) ≠ (dhr, start) := by
        intro heq
        exact hstart (Prod.mk.inj heq)
      rw [AList.lookup_insert_ne hne]
      by_cases hin : d = dhr ∧ start.toNat + 1 ≤ i.toNat ∧ i.toNat < start.toNat + 1 + count
      · rw [if_pos hin, if_pos ⟨hin.1, by omega, by omega⟩, messageKey, chainKey_succ', ← messageKey]
        congr 2
        omega
      · rw [if_neg hin, if_neg]
        rintro ⟨rfl, hlow, hhigh⟩
        have hne' : i.toNat ≠ start.toNat := fun heq =>
          hstart ⟨rfl, UInt32.toNat_inj.mp heq⟩
        exact hin ⟨rfl, by omega, by omega⟩

end Keys

namespace Ratchet

variable (P : Primitives)
variable {self : Ratchet} {header : Header}

/-- The receiving counter after skipping to `last`. -/
def skipTo (nr last : UInt32) : UInt32 := if nr < last then last else nr

theorem skipTo_toNat (nr last : UInt32) : (skipTo nr last).toNat = max nr.toNat last.toNat := by
  unfold skipTo
  split
  · rename_i hlt
    rw [UInt32.lt_iff_toNat_lt] at hlt
    omega
  · rename_i hge
    rw [UInt32.lt_iff_toNat_lt] at hge
    omega

theorem skipLoop_eq (dhr : Key) (last : UInt32) (ck : Key) (self : Ratchet) :
    skipLoop P dhr last ck self =
      (chainKey P ck (last.toNat - self.nr.toNat),
        { self with
          nr := skipTo self.nr last
          skipped := storeKeys P dhr (last.toNat - self.nr.toNat) ck self.nr self.skipped }) := by
  -- induction on the number of keys that are left to skip
  induction hcount : last.toNat - self.nr.toNat generalizing ck self with
  | zero =>
    have hge : ¬ self.nr < last := by
      rw [UInt32.lt_iff_toNat_lt]
      omega
    rw [skipLoop, dif_neg hge, skipTo, if_neg hge]
    rfl
  | succ count ih =>
    have hlt : self.nr < last := by
      rw [UInt32.lt_iff_toNat_lt]
      omega
    have hbound := last.toNat_lt
    have hnext : (self.nr + 1).toNat = self.nr.toNat + 1 := by
      rw [UInt32.toNat_add, UInt32.toNat_one]
      omega
    have hskip : skipTo (self.nr + 1) last = skipTo self.nr last := by
      rw [← UInt32.toNat_inj, skipTo_toNat, skipTo_toNat, hnext]
      omega
    rw [skipLoop, dif_pos hlt]
    dsimp only
    rw [ih _ _ (by dsimp only; rw [hnext]; omega), chainKey_succ', hskip]
    rfl

theorem call_skipMessageKeys_none (hckr : self.ckr = none) (last : UInt32) :
    (skipMessageKeys P last).call self = (.ok (), self) := by
  rw [skipMessageKeys, Method.call_bind_ok (Method.call_get self), hckr]
  rfl

theorem call_skipMessageKeys_refused {ck : Key} (hckr : self.ckr = some ck) {last : UInt32}
    (hfar : self.nr + maxSkip < last) :
    (skipMessageKeys P last).call self = (.error .tooManySkipped, self) := by
  rw [skipMessageKeys, Method.call_bind_ok (Method.call_get self), hckr]
  simp [hfar]

theorem call_skipMessageKeys_ok {ck : Key} (hckr : self.ckr = some ck) {last : UInt32}
    (hnear : ¬ self.nr + maxSkip < last) :
    (skipMessageKeys P last).call self =
      (.ok (),
        { self with
          ckr := some (chainKey P ck (last.toNat - self.nr.toNat))
          nr := skipTo self.nr last
          skipped := storeKeys P (self.dhr.getD (.fill 32 0))
            (last.toNat - self.nr.toNat) ck self.nr self.skipped }) := by
  rw [skipMessageKeys, Method.call_bind_ok (Method.call_get self), hckr]
  simp [hnear, skipLoop_eq]

def afterDhRatchet (self : Ratchet) (fresh : Key) (header : Header) : Ratchet :=
  let (rk1, ckr) := kdfRk P self.rk (P.x25519 self.dhs header.dh)
  let (rk2, cks) := kdfRk P rk1 (P.x25519 fresh header.dh)
  { self with
    dhs := fresh, dhr := some header.dh, rk := rk2, cks := some cks, ckr := some ckr,
    ns := 0, nr := 0, pn := self.ns }

theorem call_dhRatchet_ok (self : Ratchet) {fresh : Key}
    (hfirst : P.x25519 self.dhs header.dh ≠ .fill 32 0)
    (hsecond : P.x25519 fresh header.dh ≠ .fill 32 0) :
    (dhRatchet P fresh header).call self = (.ok (), afterDhRatchet P self fresh header) := by
  simp [dhRatchet, Method.call_bind, agree, hfirst, hsecond, Except.mapError, afterDhRatchet]

/-- However a Diffie-Hellman step ends, it stores no key, but the peer key is stored first. -/
theorem call_dhRatchet_frame (self : Ratchet) (fresh : Key) (header : Header) :
    let after := ((dhRatchet P fresh header).call self).2
    after.skipped = self.skipped ∧ after.nr = 0 ∧ after.dhr = some header.dh := by
  by_cases hfirst : P.x25519 self.dhs header.dh = .fill 32 0
  · simp [dhRatchet, Method.call_bind, agree, hfirst, Except.mapError]
  · by_cases hsecond : P.x25519 fresh header.dh = .fill 32 0
    · simp [dhRatchet, Method.call_bind, agree, hfirst, hsecond, Except.mapError]
    · rw [call_dhRatchet_ok P _ hfirst hsecond]
      exact ⟨rfl, rfl, rfl⟩

/-- The last part of `decrypt`: advance the receiving chain to the message. -/
def receive (header : Header) (ct ad : Bytes) : RatchetM Bytes := do
  skipMessageKeys P header.n
  match (← get).ckr with
  | none => throw (.notReady "receive")
  | some ckr =>
    let (nextCk, msgKey) := kdfCk P ckr
    modify fun self => { self with ckr := some nextCk, nr := self.nr + 1 }
    Method.lift (openMessage P msgKey header ct ad)

/-- The state after the receiving chain `ck` has given the key of message `n`. -/
def afterReceive (self : Ratchet) (ck : Key) (n : UInt32) : Ratchet :=
  { self with
    ckr := some (chainKey P ck (n.toNat - self.nr.toNat + 1))
    nr := skipTo self.nr n + 1
    skipped := storeKeys P (self.dhr.getD (.fill 32 0)) (n.toNat - self.nr.toNat) ck
      self.nr self.skipped }

theorem call_receive_none (hckr : self.ckr = none) (ct ad : Bytes) :
    (receive P header ct ad).call self = (.error (.notReady "receive"), self) := by
  rw [receive, Method.call_bind_ok (call_skipMessageKeys_none P hckr header.n),
    Method.call_bind_ok (Method.call_get self), hckr]
  rfl

theorem call_receive_refused {ck : Key} (hckr : self.ckr = some ck)
    (hfar : self.nr + maxSkip < header.n) (ct ad : Bytes) :
    (receive P header ct ad).call self = (.error .tooManySkipped, self) := by
  rw [receive, Method.call_bind_error (call_skipMessageKeys_refused P hckr hfar)]

theorem call_receive_ok {ck : Key} (hckr : self.ckr = some ck)
    (hnear : ¬ self.nr + maxSkip < header.n) (ct ad : Bytes) :
    (receive P header ct ad).call self =
      (openMessage P (messageKey P ck (header.n.toNat - self.nr.toNat)) header ct ad,
        afterReceive P self ck header.n) := by
  rw [receive, Method.call_bind_ok (call_skipMessageKeys_ok P hckr hnear),
    Method.call_bind_ok (Method.call_get _)]
  rfl

/-- A stored key is used up, whether it opens the message or not. -/
theorem call_decrypt_stored {msgKey : Key}
    (hstored : self.skipped.lookup (header.dh, header.n) = some msgKey) (fresh : Key)
    (ct ad : Bytes) :
    (decrypt P fresh header ct ad).call self =
      (openMessage P msgKey header ct ad,
        { self with skipped := self.skipped.erase (header.dh, header.n) }) := by
  rw [decrypt, Method.call_bind_ok (Method.call_get self), hstored]
  rfl

theorem call_decrypt_current (hfree : self.skipped.lookup (header.dh, header.n) = none)
    (hdhr : self.dhr = some header.dh) (fresh : Key) (ct ad : Bytes) :
    (decrypt P fresh header ct ad).call self = (receive P header ct ad).call self := by
  rw [decrypt, Method.call_bind_ok (Method.call_get self), hfree]
  dsimp only
  rw [Method.call_bind_ok (Method.call_get self), if_neg (by simp [hdhr])]
  rfl

theorem call_decrypt_newChain (hfree : self.skipped.lookup (header.dh, header.n) = none)
    (hdhr : self.dhr ≠ some header.dh) (fresh : Key) (ct ad : Bytes) :
    (decrypt P fresh header ct ad).call self =
      (do skipMessageKeys P header.pn
          dhRatchet P fresh header
          receive P header ct ad : RatchetM Bytes).call self := by
  rw [decrypt, Method.call_bind_ok (Method.call_get self), hfree]
  dsimp only
  rw [Method.call_bind_ok (Method.call_get self), if_pos hdhr]
  rfl

theorem call_encrypt_none (hcks : self.cks = none) (plaintext ad : Bytes) :
    (encrypt P plaintext ad).call self = (.error (.notReady "send"), self) := by
  rw [encrypt, Method.call_bind_ok (Method.call_get self), hcks]
  rfl

def nextHeader (self : Ratchet) : Header :=
  { dh := P.x25519Public self.dhs, pn := self.pn, n := self.ns }

def sealMessage (msgKey : Key) (header : Header) (plaintext ad : Bytes) : Bytes :=
  P.xchachaSeal (messageKeys P msgKey).1 (messageKeys P msgKey).2 plaintext
    (aadWithHeader ad header)

theorem call_encrypt_some {cks : Key} (hcks : self.cks = some cks) (plaintext ad : Bytes) :
    (encrypt P plaintext ad).call self =
      (.ok (nextHeader P self,
          sealMessage P (kdfCk P cks).2 (nextHeader P self) plaintext ad),
        { self with cks := some (kdfCk P cks).1, ns := self.ns + 1 }) := by
  rw [encrypt, Method.call_bind_ok (Method.call_get self), hcks]
  rfl

/-- The initiator's state between honest parties. -/
def initiator (sk spk dhs : Key) : Ratchet :=
  let (rk, cks) := kdfRk P sk (P.x25519 dhs (P.x25519Public spk))
  { dhs := dhs, dhr := some (P.x25519Public spk), rk := rk, cks := some cks, ckr := none,
    ns := 0, nr := 0, pn := 0, skipped := ∅ }

theorem initAlice_eq {P : Primitives} (hP : Honest P) (sk spk dhs : Key) :
    initAlice P sk (P.x25519Public spk) dhs = .ok (initiator P sk spk dhs) := by
  rw [initAlice, hP.agree_eq]
  rfl

theorem openMessage_sealMessage {P : Primitives} (hP : Honest P) (msgKey : Key)
    (header : Header) (plaintext ad : Bytes) :
    openMessage P msgKey header (sealMessage P msgKey header plaintext ad) ad =
      .ok plaintext := by
  simp [openMessage, sealMessage, hP.open_seal]

/-- The responder's fresh ratchet opens the initiator's first message. -/
theorem first_message_opens {P : Primitives} (hP : Honest P) (sk spk dhs fresh : Key)
    (plaintext ad : Bytes) :
    ∃ header ct alice bob,
      (encrypt P plaintext ad).call (initiator P sk spk dhs) = (.ok (header, ct), alice) ∧
      (decrypt P fresh header ct ad).call (initBob sk spk) = (.ok plaintext, bob) := by
  let header := nextHeader P (initiator P sk spk dhs)
  let ck := (kdfRk P sk (P.x25519 dhs (P.x25519Public spk))).2
  have hcks : (initiator P sk spk dhs).cks = some ck := rfl
  refine ⟨header, _, _, afterReceive P (afterDhRatchet P (initBob sk spk) fresh header) ck header.n,
    call_encrypt_some P hcks plaintext ad, ?_⟩
  -- Bob has no peer key yet, so that the message begins his first receiving chain.
  have hdhr : (initBob sk spk).dhr ≠ some header.dh := nofun
  have hckr : (afterDhRatchet P (initBob sk spk) fresh header).ckr = some ck := by
    change some (kdfRk P sk (P.x25519 spk (P.x25519Public dhs))).2 = some ck
    rw [hP.agree_comm]
  have hnear : ¬ (afterDhRatchet P (initBob sk spk) fresh header).nr + maxSkip < header.n := by
    change ¬ (0 : UInt32) + maxSkip < 0
    decide
  rw [call_decrypt_newChain P rfl hdhr,
    Method.call_bind_ok (call_skipMessageKeys_none P rfl header.pn),
    Method.call_bind_ok (call_dhRatchet_ok P _ (hP.agree_ne_zero spk dhs)
      (hP.agree_ne_zero fresh dhs)),
    call_receive_ok P hckr hnear]
  exact Prod.ext (openMessage_sealMessage hP _ header plaintext ad) rfl

end Ratchet

end Dante.Dm
