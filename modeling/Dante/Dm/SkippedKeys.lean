import Dante.Dm.RatchetSpec
import Dante.Library.Run

/-!
How many message keys a ratchet stores. `skip_message_keys` bounds how far one call may skip, and
nothing bounds what earlier calls have stored: a peer that begins a new chain with each message adds
up to `MAX_SKIP` keys every time.
-/

namespace Dante.Dm

open Crypto Ratchet

namespace Ratchet

variable (P : Primitives)

/-- `skipped.len()`. -/
def stored (r : Ratchet) : Nat := r.skipped.entries.length

/-- A call of one of the two methods, with the secret that `decrypt` may draw. -/
inductive Call where
  | encrypt (plaintext ad : Bytes)
  | decrypt (fresh : Key) (header : Header) (ct ad : Bytes)

/-- What a call leaves behind, whether it fails or not. -/
def afterCall (r : Ratchet) : Call → Ratchet
  | .encrypt plaintext ad => ((encrypt P plaintext ad).call r).2
  | .decrypt fresh header ct ad => ((decrypt P fresh header ct ad).call r).2

/-- A ratchet as one of the two constructors returns it. -/
def Started (r : Ratchet) : Prop :=
  (∃ sk theirRatchetPub dhs, initAlice P sk theirRatchetPub dhs = .ok r) ∨
    ∃ sk ratchetSecret, r = initBob sk ratchetSecret

/-- The keys between the receiving counter and `last`, if the skip is not refused. -/
def gap (nr last : UInt32) : Nat := if nr + maxSkip < last then 0 else last.toNat - nr.toNat

/-- How many keys a message with this header skips. -/
def skips (r : Ratchet) (header : Header) : Nat :=
  if r.skipped.lookup (header.dh, header.n) ≠ none then
    0
  else if r.dhr = some header.dh then
    if r.ckr = none then 0 else gap r.nr header.n
  else
    (if r.ckr = none then 0 else gap r.nr header.pn) + gap 0 header.n

/-- There is room in the store for the keys that a call skips. -/
def RoomFor (r : Ratchet) : Call → Prop
  | .encrypt _ _ => True
  | .decrypt _ header _ _ => r.stored + r.skips header ≤ maxSkip.toNat

end Ratchet

section Bound

variable (P : Primitives)

theorem length_insert_le (skipped : SkippedKeys) (key : Key × UInt32) (msgKey : Key) :
    (skipped.insert key msgKey).entries.length ≤ skipped.entries.length + 1 := by
  rw [AList.entries_insert, List.length_cons]
  exact Nat.succ_le_succ (List.kerase_sublist key _).length_le

theorem length_storeKeys_le (dhr : Key) (count : Nat) (ck : Key) (start : UInt32)
    (skipped : SkippedKeys) :
    (storeKeys P dhr count ck start skipped).entries.length ≤ skipped.entries.length + count := by
  induction count generalizing ck start skipped with
  | zero => exact Nat.le_refl _
  | succ count ih =>
    have hrest := ih (kdfCk P ck).1 (start + 1) (skipped.insert (dhr, start) (kdfCk P ck).2)
    have hfirst := length_insert_le skipped (dhr, start) (kdfCk P ck).2
    rw [storeKeys]
    omega

theorem stored_skipMessageKeys (self : Ratchet) (last : UInt32) :
    ((skipMessageKeys P last).call self).2.stored ≤
      self.stored + if self.ckr = none then 0 else gap self.nr last := by
  cases hckr : self.ckr with
  | none =>
    rw [call_skipMessageKeys_none P hckr]
    simp
  | some ck =>
    rw [if_neg (Option.some_ne_none ck), gap]
    by_cases hfar : self.nr + maxSkip < last
    · rw [call_skipMessageKeys_refused P hckr hfar]
      exact Nat.le_add_right _ _
    · rw [call_skipMessageKeys_ok P hckr hfar, if_neg hfar]
      exact length_storeKeys_le P _ _ _ _ _

theorem stored_receive (self : Ratchet) (header : Header) (ct ad : Bytes) :
    ((receive P header ct ad).call self).2.stored ≤
      self.stored + if self.ckr = none then 0 else gap self.nr header.n := by
  cases hckr : self.ckr with
  | none =>
    rw [call_receive_none P hckr]
    simp
  | some ck =>
    rw [if_neg (Option.some_ne_none ck), gap]
    by_cases hfar : self.nr + maxSkip < header.n
    · rw [call_receive_refused P hckr hfar]
      exact Nat.le_add_right _ _
    · rw [call_receive_ok P hckr hfar, if_neg hfar]
      exact length_storeKeys_le P _ _ _ _ _

theorem stored_decrypt (r : Ratchet) (fresh : Key) (header : Header) (ct ad : Bytes) :
    ((decrypt P fresh header ct ad).call r).2.stored ≤ r.stored + r.skips header := by
  cases hlookup : r.skipped.lookup (header.dh, header.n) with
  | some msgKey =>
    rw [call_decrypt_stored P hlookup]
    exact ((List.kerase_sublist _ _).length_le).trans (Nat.le_add_right _ _)
  | none =>
    rw [skips, hlookup, if_neg (not_not.mpr rfl)]
    by_cases hdhr : r.dhr = some header.dh
    · rw [call_decrypt_current P hlookup hdhr, if_pos hdhr]
      exact stored_receive P r header ct ad
    · rw [call_decrypt_newChain P hlookup hdhr, if_neg hdhr]
      let bound := if r.ckr = none then 0 else gap r.nr header.pn
      let within (self : Ratchet) : Prop := self.stored ≤ r.stored + (bound + gap 0 header.n)
      have hskip : ((skipMessageKeys P header.pn).call r).2.stored ≤ r.stored + bound :=
        stored_skipMessageKeys P r header.pn
      apply Method.call_bind_state (motive := within) (hskip.trans (by omega))
      intro _ skippedOld hold
      rw [hold] at hskip
      dsimp only at hskip
      obtain ⟨hkept, hnr, -⟩ := call_dhRatchet_frame P skippedOld fresh header
      apply Method.call_bind_state (motive := within)
      · exact (congrArg (fun keys : SkippedKeys => keys.entries.length) hkept).trans_le
          (hskip.trans (by omega))
      · intro _ stepped hstepped
        rw [hstepped] at hkept hnr
        have hreceive := stored_receive P stepped header ct ad
        have hsame : stepped.stored = skippedOld.stored := by rw [stored, hkept, ← stored]
        have hgap : (if stepped.ckr = none then 0 else gap stepped.nr header.n) ≤
            gap 0 header.n := by
          rw [hnr]
          split
          · exact Nat.zero_le _
          · exact Nat.le_refl _
        change _ ≤ _
        omega

theorem stored_encrypt (r : Ratchet) (plaintext ad : Bytes) :
    ((encrypt P plaintext ad).call r).2.stored = r.stored := by
  cases hcks : r.cks with
  | none => rw [call_encrypt_none P hcks]
  | some cks =>
    rw [call_encrypt_some P hcks]
    rfl

theorem stored_afterCall {r : Ratchet} {call : Call} (hroom : r.RoomFor call)
    (hstored : r.stored ≤ maxSkip.toNat) : (r.afterCall P call).stored ≤ maxSkip.toNat := by
  cases call with
  | encrypt plaintext ad => exact (stored_encrypt P r plaintext ad).trans_le hstored
  | decrypt fresh header ct ad => exact (stored_decrypt P r fresh header ct ad).trans hroom

theorem Ratchet.Started.stored {r : Ratchet} (hstart : r.Started P) : r.stored = 0 := by
  rcases hstart with ⟨sk, theirRatchetPub, dhs, hok⟩ | ⟨sk, ratchetSecret, rfl⟩
  · simp only [initAlice, Except.bind_eq_ok, Except.pure_eq_ok] at hok
    obtain ⟨dhOut, -, rfl⟩ := hok
    rfl
  · rfl

end Bound

/-- The store holds at most `MAX_SKIP` keys in every state of a run in which each message
finds room for the keys that it skips. -/
theorem stored_le_maxSkip (P : Primitives) (start : Ratchet) (calls : List Call)
    (hstart : start.Started P) (hroom : Steps.Along (afterCall P) RoomFor start calls) :
    (Steps.exec (afterCall P) start calls).stored ≤ maxSkip.toNat := by
  apply Steps.exec_invariant (fun r : Ratchet => r.stored ≤ maxSkip.toNat) _ _ hroom
  · intro r call hstored hroom
    exact stored_afterCall P hroom hstored
  · rw [hstart.stored]
    exact Nat.zero_le _

section Flood

variable (P : Primitives)
variable {r : Ratchet}

/-- The furthest message of a new chain that is not refused. -/
def farHeader (dh : Key) : Header := { dh := dh, pn := 0, n := maxSkip }

/-- A ratchet that has not seen the peer key `dh`. -/
def Unseen (dh : Key) (r : Ratchet) : Prop :=
  r.dhr ≠ some dh ∧ ∀ n, r.skipped.lookup (dh, n) = none

theorem length_storeKeys (dhr : Key) (count : Nat) (ck : Key) (start : UInt32)
    (skipped : SkippedKeys) (hbound : start.toNat + count < 2 ^ 32)
    (hfree : ∀ n : UInt32, start.toNat ≤ n.toNat → skipped.lookup (dhr, n) = none) :
    (storeKeys P dhr count ck start skipped).entries.length = skipped.entries.length + count := by
  induction count generalizing ck start skipped with
  | zero => rfl
  | succ count ih =>
    have hnext : (start + 1).toNat = start.toNat + 1 := by
      rw [UInt32.toNat_add, UInt32.toNat_one]
      omega
    rw [storeKeys, ih _ _ _ (by omega),
      AList.entries_insert_of_notMem (AList.lookup_eq_none.mp (hfree start (Nat.le_refl _))),
      List.length_cons]
    · omega
    · intro n hn
      have hne : ((dhr, n) : Key × UInt32) ≠ (dhr, start) := by
        intro heq
        rw [(Prod.mk.inj heq).2] at hn
        omega
      rw [AList.lookup_insert_ne hne]
      exact hfree n (by omega)

theorem skipped_afterReceive (self : Ratchet) (ck : Key) (n : UInt32) :
    (afterReceive P self ck n).skipped =
      storeKeys P (self.dhr.getD (.fill 32 0)) (n.toNat - self.nr.toNat) ck self.nr
        self.skipped := rfl

/-- The state after the far message of a new chain, whatever its ciphertext. -/
theorem decrypt_far {dh fresh : Key} (hunseen : Unseen dh r)
    (hfirst : P.x25519 r.dhs dh ≠ .fill 32 0) (hsecond : P.x25519 fresh dh ≠ .fill 32 0)
    (ct ad : Bytes) :
    ∃ ck, ((decrypt P fresh (farHeader dh) ct ad).call r).2.dhr = some dh ∧
      ((decrypt P fresh (farHeader dh) ct ad).call r).2.skipped =
        storeKeys P dh maxSkip.toNat ck 0 r.skipped := by
  -- nothing is skipped in the old chain, if there is one
  have hold : ∃ self, (skipMessageKeys P (farHeader dh).pn).call r = (.ok (), self) ∧
      self.dhs = r.dhs ∧ self.skipped = r.skipped := by
    cases hckr : r.ckr with
    | none => exact ⟨r, call_skipMessageKeys_none P hckr _, rfl, rfl⟩
    | some ck =>
      have hnone : (farHeader dh).pn.toNat - r.nr.toNat = 0 := Nat.zero_sub _
      refine ⟨_, call_skipMessageKeys_ok P hckr UInt32.not_lt_zero, rfl, ?_⟩
      dsimp only
      rw [hnone, storeKeys]
  obtain ⟨self, hskip, hdhs, hskipped⟩ := hold
  rw [← hdhs] at hfirst
  let stepped := afterDhRatchet P self fresh (farHeader dh)
  let ck := (kdfRk P self.rk (P.x25519 self.dhs dh)).2
  have hckr : stepped.ckr = some ck := rfl
  have hnear : ¬ stepped.nr + maxSkip < (farHeader dh).n := by
    change ¬ (0 : UInt32) + maxSkip < maxSkip
    decide
  have hcount : (farHeader dh).n.toNat - stepped.nr.toNat = maxSkip.toNat := rfl
  have hcall : ((decrypt P fresh (farHeader dh) ct ad).call r).2 =
      afterReceive P stepped ck (farHeader dh).n := by
    rw [call_decrypt_newChain P (hunseen.2 _) hunseen.1, Method.call_bind_ok hskip,
      Method.call_bind_ok (call_dhRatchet_ok P self hfirst hsecond), call_receive_ok P hckr hnear]
  refine ⟨ck, ?_, ?_⟩
  · rw [hcall]
    rfl
  · have hdhr : stepped.dhr.getD (.fill 32 0) = dh := rfl
    have hkept : stepped.skipped = r.skipped := hskipped
    have hnr : stepped.nr = 0 := rfl
    rw [hcall, skipped_afterReceive, hcount, hdhr, hkept, hnr]

theorem stored_decrypt_far {dh fresh : Key} (hunseen : Unseen dh r)
    (hagree : ∀ a b, P.x25519 a b ≠ .fill 32 0) (ct ad : Bytes) :
    ((decrypt P fresh (farHeader dh) ct ad).call r).2.stored = r.stored + maxSkip.toNat := by
  obtain ⟨ck, -, hskipped⟩ := decrypt_far P hunseen (hagree r.dhs dh) (hagree fresh dh) ct ad
  rw [stored, hskipped, length_storeKeys P dh _ ck 0 r.skipped (by decide) fun n _ => hunseen.2 n]
  rfl

theorem Unseen.decrypt_far {dh other fresh : Key} (hother : Unseen other r) (hunseen : Unseen dh r)
    (hne : other ≠ dh) (hagree : ∀ a b, P.x25519 a b ≠ .fill 32 0) (ct ad : Bytes) :
    Unseen other ((decrypt P fresh (farHeader dh) ct ad).call r).2 := by
  obtain ⟨ck, hdhr, hskipped⟩ :=
    Dm.decrypt_far P hunseen (hagree r.dhs dh) (hagree fresh dh) ct ad
  refine ⟨?_, ?_⟩
  · rw [hdhr]
    exact fun heq => hne (Option.some.inj heq).symm
  · intro n
    rw [hskipped, lookup_storeKeys P dh _ ck 0 r.skipped (by decide), if_neg fun h => hne h.1]
    exact hother.2 n

/-- The calls of a flood: one far message for each key, none of which has to decrypt. -/
def flood (fresh : Key) (ad : Bytes) (keys : List Key) : List Call :=
  keys.map fun dh => .decrypt fresh (farHeader dh) [] ad

/-- Every message of a flood stores `MAX_SKIP` keys more. -/
theorem stored_flood (fresh : Key) (ad : Bytes) {keys : List Key} (hnodup : keys.Nodup)
    (hunseen : ∀ dh ∈ keys, Unseen dh r) (hagree : ∀ a b, P.x25519 a b ≠ .fill 32 0) :
    (Steps.exec (afterCall P) r (flood fresh ad keys)).stored =
      r.stored + maxSkip.toNat * keys.length := by
  induction keys generalizing r with
  | nil => rfl
  | cons dh rest ih =>
    obtain ⟨hdh, hrest⟩ := List.nodup_cons.mp hnodup
    have hhead := hunseen dh List.mem_cons_self
    have htail : ∀ other ∈ rest,
        Unseen other (r.afterCall P (.decrypt fresh (farHeader dh) [] ad)) := by
      intro other hother
      apply (hunseen other (List.mem_cons_of_mem _ hother)).decrypt_far P hhead _ hagree
      rintro rfl
      exact hdh hother
    rw [flood, List.map_cons, Steps.exec_cons, ← flood, ih hrest htail, List.length_cons, afterCall,
      stored_decrypt_far P hhead hagree, Nat.mul_succ]
    omega

end Flood

def numberedKey (i : Nat) : Key := .ofList (BigEndian.encode 32 i) (BigEndian.encode_length 32 i)

theorem decode_numberedKey {i : Nat} (hi : i < 256 ^ 32) :
    BigEndian.decode (numberedKey i).toList = i := by
  rw [numberedKey, ByteArr.toList_ofList, BigEndian.decode_encode_of_lt hi]

def floodKeys (count : Nat) : List Key := (List.range count).map numberedKey

theorem length_floodKeys (count : Nat) : (floodKeys count).length = count := by
  rw [floodKeys, List.length_map, List.length_range]

theorem nodup_floodKeys {count : Nat} (hcount : count ≤ 256 ^ 32) : (floodKeys count).Nodup := by
  apply List.Nodup.map_on _ List.nodup_range
  intro i hi j hj heq
  rw [List.mem_range] at hi hj
  have hvalue := congrArg (fun key : Key => BigEndian.decode key.toList) heq
  rwa [decode_numberedKey (by omega), decode_numberedKey (by omega)] at hvalue

/-- One message that skips as far as it may. -/
theorem stored_le_maxSkip_once :
    (Steps.exec (afterCall samplePrimitives) (initBob (.fill 32 1) (.fill 32 2))
      [.decrypt (.fill 32 3) (farHeader (.fill 32 4)) [] []]).stored ≤ maxSkip.toNat :=
  stored_le_maxSkip samplePrimitives _ _ (Or.inr ⟨_, _, rfl⟩) ⟨by
    change 0 + (0 + (maxSkip.toNat - 0)) ≤ maxSkip.toNat
    omega, trivial⟩

/-- Two messages that do not decrypt, each of a new chain, and the store holds twice as many
keys as `MAX_SKIP`. -/
theorem stored_exceeds_maxSkip :
    let start := initBob (.fill 32 1) (.fill 32 2)
    start.Started samplePrimitives ∧
      (Steps.exec (afterCall samplePrimitives) start (flood (.fill 32 3) [] (floodKeys 2))).stored =
        2 * maxSkip.toNat := by
  refine ⟨Or.inr ⟨_, _, rfl⟩, ?_⟩
  rw [stored_flood samplePrimitives _ _ (nodup_floodKeys (by decide))
    (fun _ _ => ⟨(Option.some_ne_none _).symm, fun _ => rfl⟩) sampleAgree_ne_zero]
  rfl

end Dante.Dm
