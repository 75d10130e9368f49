import Dante.Relay.Prekeys

/-!
One-time prekeys between their owner and a relay. The relay drops a one-time prekey
when it hands it out, the owner drops it when the first message that uses it arrives,
and every publication replaces the relay's list by the owner's. In between, a
publication brings back what has been handed out already.
-/

namespace Dante.Relay

open Dante.Core Crypto Dm Method Except PrekeyStore

/-- The owner's secrets, the relay, and the one-time prekeys in the relay's answers so far. -/
structure PrekeyExchange where
  secrets : PreKeySecrets
  relay : PrekeyStore
  handed : List Key

inductive PrekeyExchange.Op where
  /-- The owner refills its pool and publishes its bundle. -/
  | publish (limited : Bool) (generated : List Key)
  /-- A first message that names this one-time prekey reaches the owner. -/
  | accept (otpPub : Key)
  /-- An initiator fetches the owner's bundle. -/
  | fetch (limited : Bool)

namespace PrekeyExchange

variable (P : Primitives) {S : Suite} (owner : Identity S)

def start (secrets : PreKeySecrets) : PrekeyExchange where
  secrets := secrets
  relay := .new
  handed := []

def otpsOf (blob : Bytes) : List Key :=
  match PreKeyBundle.decode blob with
  | .ok bundle => bundle.otps.map Prod.fst
  | .error _ => []

/-- The one-time prekeys in an answer to `GetPrekeys`. -/
def otpsIn (reply : Except String (Option Bytes)) : List Key :=
  match reply with
  | .ok (some out) => otpsOf out
  | _ => []

/-- The owner's pool after the refill of `publish_prekeys`. -/
def refilled (world : PrekeyExchange) (generated : List Key) : PreKeySecrets :=
  world.secrets.replenish generated prekeyPoolTarget

def step (world : PrekeyExchange) : Op → PrekeyExchange
  | .publish limited generated =>
    { world with
      secrets := world.refilled generated
      relay := ((publishPrekeys limited
        ((world.refilled generated).bundle P owner).encode).call world.relay).2 }
  | .accept otpPub =>
    { world with secrets := ((consumeOtp P (some otpPub)).call world.secrets).2 }
  | .fetch limited =>
    { world with
      relay := ((getPrekeys limited owner.id).call world.relay).2
      handed := world.handed ++ otpsIn ((getPrekeys limited owner.id).call world.relay).1 }

/-- A published pool has no one-time prekey twice and none that was handed out. -/
def Unhanded (world : PrekeyExchange) : Op → Prop
  | .publish _ generated =>
    ((world.refilled generated).otps.map P.x25519Public).Nodup ∧
      ∀ otp ∈ (world.refilled generated).otps, P.x25519Public otp ∉ world.handed
  | _ => True

instance (world : PrekeyExchange) (op : Op) : Decidable (world.Unhanded P op) :=
  match op with
  | .publish _ generated =>
    have := List.decidableBAll (fun otp : Key => P.x25519Public otp ∉ world.handed)
      (world.refilled generated).otps
    inferInstanceAs (Decidable (_ ∧ _))
  | .accept .. => isTrue trivial
  | .fetch .. => isTrue trivial

def offered (world : PrekeyExchange) : List Key :=
  ((world.relay.prekeys.lookup owner.id).map otpsOf).getD []

/-- The relay offers nothing twice and nothing that it has handed out, and it has handed out
nothing twice. -/
structure Fresh (world : PrekeyExchange) : Prop where
  offeredOnce : (world.offered owner).Nodup
  apart : ∀ otp ∈ world.offered owner, otp ∉ world.handed
  handedOnce : world.handed.Nodup

variable {P owner} {world : PrekeyExchange}

theorem otpsOf_encode {bundle : PreKeyBundle} (hlen : bundle.otps.length < 2 ^ 32) :
    otpsOf bundle.encode = bundle.otps.map Prod.fst := by
  rw [otpsOf, PreKeyBundle.decode_encode hlen]

theorem otpsOf_bundle (secrets : PreKeySecrets) (hlen : secrets.otps.length < 2 ^ 32) :
    otpsOf (secrets.bundle P owner).encode = secrets.otps.map P.x25519Public := by
  rw [otpsOf_encode (by simpa [PreKeySecrets.bundle] using hlen)]
  simp [PreKeySecrets.bundle, Function.comp_def]

theorem leadingId_bundle (secrets : PreKeySecrets) :
    leadingId (secrets.bundle P owner).encode = some owner.id := by
  have hlen : 32 ≤ (secrets.bundle P owner).encode.length := by
    simp [PreKeyBundle.encode, Enc.Writer.fixed]
  rw [leadingId, dif_pos hlen]
  congr 1
  apply ByteArr.toList_injective
  simp [PreKeyBundle.encode, Enc.Writer.fixed, PreKeySecrets.bundle]

theorem otps_sliced {stored remaining out : Bytes}
    (h : sliced stored = some (remaining, out)) :
    ∃ otp, otpsOf out = [otp] ∧ otpsOf stored = otp :: otpsOf remaining := by
  obtain ⟨bundle, handed, rest, hdecode, hotps, rfl, rfl⟩ := sliced_eq_some h
  have hlen := PreKeyBundle.otps_length_of_decode hdecode
  rw [hotps, List.length_cons] at hlen
  refine ⟨handed.1, ?_, ?_⟩
  · rw [otpsOf_encode (by simp)]
    rfl
  · rw [otpsOf_encode (by dsimp only; omega), otpsOf, hdecode]
    dsimp only
    rw [hotps, List.map_cons]

/-- A stored blob that a fetch leaves as it is offers nothing. -/
theorem otpsOf_of_not_sliced {stored : Bytes} (h : sliced stored = none) :
    otpsOf stored = [] := by
  rw [otpsOf]
  rw [sliced] at h
  cases hdecode : PreKeyBundle.decode stored with
  | error e => rfl
  | ok bundle =>
    rw [hdecode] at h
    cases hotps : bundle.otps with
    | nil =>
      dsimp only
      rw [hotps, List.map_nil]
    | cons otp rest =>
      dsimp only at h
      rw [hotps] at h
      cases h

theorem checkPublish_bundle (relay : PrekeyStore) (secrets : PreKeySecrets)
    (hsize : 196 + 96 * secrets.otps.length ≤ maxPrekeyBytes)
    (hroom : ¬ relay.DirectoryFull owner.id) :
    relay.checkPublish false (secrets.bundle P owner).encode = .ok owner.id := by
  have hlen : (secrets.bundle P owner).encode.length = 196 + 96 * secrets.otps.length := by
    rw [PreKeyBundle.length_encode]
    simp [PreKeySecrets.bundle]
  have hsmall : ¬ (secrets.bundle P owner).encode.length > maxPrekeyBytes := by omega
  simp only [checkPublish, bind_eq_ok, refuseIf_eq_ok, okOr_eq_ok, pure_eq_ok]
  exact ⟨(), by simp, (), hsmall, owner.id, leadingId_bundle secrets, (), hroom, rfl⟩

/-- An owner with something on offer may publish again. -/
theorem not_full_of_offered {otp : Key} {rest : List Key}
    (h : world.offered owner = otp :: rest) : ¬ world.relay.DirectoryFull owner.id := by
  rintro ⟨hnone, -⟩
  rw [PrekeyExchange.offered, hnone] at h
  cases h

theorem fresh_start (secrets : PreKeySecrets) : (start secrets).Fresh owner where
  offeredOnce := List.nodup_nil
  apart := fun _ hotp => by cases hotp
  handedOnce := List.nodup_nil

/-- After an accepted publication the relay offers the owner's pool. -/
theorem offered_publish {generated : List Key} {id : Hash} {limited : Bool}
    (hcheck : world.relay.checkPublish limited
      ((world.refilled generated).bundle P owner).encode = .ok id) :
    (world.step P owner (.publish limited generated)).offered owner =
      (world.refilled generated).otps.map P.x25519Public := by
  obtain ⟨-, hsize, hid⟩ := leadingId_of_checkPublish hcheck
  cases (leadingId_bundle (world.refilled generated)).symm.trans hid
  have hcount : (world.refilled generated).otps.length < 2 ^ 32 := by
    have hlen : ((world.refilled generated).bundle P owner).otps.length =
        (world.refilled generated).otps.length := by simp [PreKeySecrets.bundle]
    have hmax : maxPrekeyBytes = 16384 := rfl
    rw [PreKeyBundle.length_encode] at hsize
    omega
  rw [step, call_publishPrekeys, hcheck, PrekeyExchange.offered]
  dsimp only [withBundle]
  rw [AList.lookup_insert, Option.map_some, Option.getD_some,
    otpsOf_bundle (world.refilled generated) hcount]

theorem fetch_cons {otp : Key} {rest : List Key} (h : world.offered owner = otp :: rest) :
    (world.step P owner (.fetch false)).handed = world.handed ++ [otp] ∧
      (world.step P owner (.fetch false)).offered owner = rest := by
  rw [step, call_getPrekeys]
  rw [PrekeyExchange.offered] at h
  cases hstored : world.relay.prekeys.lookup owner.id with
  | none =>
    rw [hstored] at h
    cases h
  | some stored =>
    rw [hstored, Option.map_some, Option.getD_some] at h
    dsimp only
    cases hsliced : sliced stored with
    | none =>
      rw [otpsOf_of_not_sliced hsliced] at h
      cases h
    | some cut =>
      obtain ⟨remaining, out⟩ := cut
      obtain ⟨handed, hout, hsplit⟩ := otps_sliced hsliced
      rw [hsplit] at h
      cases h
      dsimp only [otpsIn]
      rw [hout, PrekeyExchange.offered]
      dsimp only [withBundle]
      rw [AList.lookup_insert]
      exact ⟨rfl, rfl⟩

theorem fetch_nil (h : world.offered owner = []) :
    (world.step P owner (.fetch false)).handed = world.handed ∧
      (world.step P owner (.fetch false)).offered owner = [] := by
  rw [step, call_getPrekeys]
  have hbefore := h
  rw [PrekeyExchange.offered] at h
  cases hstored : world.relay.prekeys.lookup owner.id with
  | none => exact ⟨List.append_nil _, hbefore⟩
  | some stored =>
    rw [hstored, Option.map_some, Option.getD_some] at h
    dsimp only
    cases hsliced : sliced stored with
    | none =>
      dsimp only [otpsIn]
      rw [h]
      exact ⟨List.append_nil _, hbefore⟩
    | some cut =>
      obtain ⟨handed, -, hsplit⟩ := otps_sliced hsliced
      rw [hsplit] at h
      cases h

/-- What a publication brings back: the first of two prekeys that were handed out, when only the
second one was used up at the owner. -/
theorem handed_again (used : Key) (generated left : List Key) {pool : PreKeySecrets}
    {first second third : Key} {rest : List Key}
    (hoffered : world.offered owner = first :: second :: third :: rest)
    (hkept : (((consumeOtp P (some used)).call world.secrets).2.replenish generated
      prekeyPoolTarget) = pool)
    (hsize : 196 + 96 * pool.otps.length ≤ maxPrekeyBytes)
    (hpool : pool.otps.map P.x25519Public = first :: left) :
    (Steps.exec (step P owner) world [.fetch false, .fetch false, .accept used,
      .publish false generated, .fetch false]).handed =
        world.handed ++ [first, second, first] := by
  obtain ⟨hone, hone'⟩ := fetch_cons (P := P) hoffered
  obtain ⟨htwo, htwo'⟩ := fetch_cons (P := P) hone'
  generalize hfetched : (world.step P owner (.fetch false)).step P owner (.fetch false) = fetched
    at htwo htwo'
  have hsecrets : fetched.secrets = world.secrets := by
    rw [← hfetched]
    rfl
  have hrefilled : (fetched.step P owner (.accept used)).refilled generated = pool := by
    rw [← hkept, ← hsecrets]
    rfl
  have hcheck := checkPublish_bundle (P := P) fetched.relay pool hsize
    (not_full_of_offered htwo')
  rw [← hrefilled] at hcheck hpool
  obtain ⟨hthree, -⟩ := fetch_cons (P := P) ((offered_publish hcheck).trans hpool)
  simp only [Steps.exec_cons, hfetched]
  refine hthree.trans ?_
  change fetched.handed ++ [first] = _
  rw [htwo, hone, List.append_assoc, List.append_assoc]
  rfl

theorem Fresh.publish (h : world.Fresh owner) {limited : Bool} {generated : List Key}
    (hop : world.Unhanded P (.publish limited generated)) :
    (world.step P owner (.publish limited generated)).Fresh owner := by
  cases hcheck : world.relay.checkPublish limited
      ((world.refilled generated).bundle P owner).encode with
  | error reason =>
    rw [step, call_publishPrekeys, hcheck]
    exact ⟨h.offeredOnce, h.apart, h.handedOnce⟩
  | ok id =>
    have hoffered := offered_publish hcheck
    constructor
    · rw [hoffered]
      exact hop.1
    · rw [hoffered]
      intro otp hotp
      obtain ⟨secret, hsecret, rfl⟩ := List.mem_map.mp hotp
      exact hop.2 secret hsecret
    · exact h.handedOnce

theorem Fresh.fetch (h : world.Fresh owner) (limited : Bool) :
    (world.step P owner (.fetch limited)).Fresh owner := by
  cases limited with
  | true =>
    have hcall : (getPrekeys true owner.id).call world.relay =
        (.error "rate limited", world.relay) := rfl
    rw [step, hcall]
    simpa [otpsIn] using h
  | false =>
    have hbefore := h.offeredOnce
    have hapart := h.apart
    cases hoffered : world.offered owner with
    | nil =>
      obtain ⟨hhanded, hnone⟩ := fetch_nil (P := P) hoffered
      constructor
      · rw [hnone]
        exact List.nodup_nil
      · rw [hnone]
        intro otp hotp
        cases hotp
      · rw [hhanded]
        exact h.handedOnce
    | cons otp rest =>
      rw [hoffered] at hbefore hapart
      obtain ⟨hfirst, hrest⟩ := List.nodup_cons.mp hbefore
      obtain ⟨hhanded, hleft⟩ := fetch_cons (P := P) hoffered
      constructor
      · rw [hleft]
        exact hrest
      · rw [hleft, hhanded]
        intro other hother hagain
        rcases List.mem_append.mp hagain with hold | hnow
        · exact hapart other (List.mem_cons_of_mem _ hother) hold
        · rw [List.mem_singleton.mp hnow] at hother
          exact hfirst hother
      · rw [hhanded]
        apply List.Nodup.append h.handedOnce (List.nodup_singleton otp)
        intro other hold hnow
        rw [List.mem_singleton.mp hnow] at hold
        exact hapart otp List.mem_cons_self hold

theorem Fresh.step (h : world.Fresh owner) {op : Op} (hop : world.Unhanded P op) :
    (world.step P owner op).Fresh owner := by
  cases op with
  | publish limited generated => exact h.publish hop
  | accept otpPub => exact ⟨h.offeredOnce, h.apart, h.handedOnce⟩
  | fetch limited => exact h.fetch limited

end PrekeyExchange

open PrekeyExchange

/-- In every run in which no published pool has a one-time prekey that was handed out before, no
one-time prekey is handed out twice. -/
theorem otp_handed_once_run (P : Primitives) (S : Suite) (owner : Identity S)
    (secrets : PreKeySecrets) (ops : List PrekeyExchange.Op)
    (hunhanded : Steps.Along (PrekeyExchange.step P owner) (PrekeyExchange.Unhanded P)
      (.start secrets) ops) :
    (Steps.exec (PrekeyExchange.step P owner) (.start secrets) ops).handed.Nodup := by
  have hfresh := Steps.exec_invariant (PrekeyExchange.Fresh owner) (fun _ _ h hop => h.step hop)
    (fresh_start secrets) hunhanded
  exact hfresh.handedOnce

def samplePool (first : Nat) : List Key :=
  (List.range 50).map fun i => .fill 32 (UInt8.ofNat (first + i))

def sampleExchange (ops : List PrekeyExchange.Op) : PrekeyExchange :=
  Steps.exec (PrekeyExchange.step samplePrimitives sampleOwner)
    (.start { spk := .fill 32 50, otps := [] }) ops

theorem sampleExchange_cons (op : PrekeyExchange.Op) (ops : List PrekeyExchange.Op) :
    sampleExchange (op :: ops) = Steps.exec (PrekeyExchange.step samplePrimitives sampleOwner)
      (sampleExchange [op]) ops := rfl

/-- Two initiators fetch, and the message of the first one arrives. -/
theorem otp_handed_once_sample :
    (sampleExchange [.publish false (samplePool 100), .fetch false, .fetch false,
      .accept (samplePrimitives.x25519Public (.fill 32 100))]).handed.Nodup :=
  otp_handed_once_run samplePrimitives sampleSuite sampleOwner _ _ (by decide +kernel)

/-- The first two initiators get the one-time prekeys 100 and 101. The message of the second
one arrives, the owner publishes its pool, and the third initiator gets 100 again. -/
theorem otp_handed_twice :
    ¬ (sampleExchange [.publish false (samplePool 100), .fetch false, .fetch false,
      .accept (samplePrimitives.x25519Public (.fill 32 101)), .publish false [.fill 32 150],
      .fetch false]).handed.Nodup := by
  have hoffered : (sampleExchange [.publish false (samplePool 100)]).offered sampleOwner =
      .fill 32 100 :: .fill 32 101 :: .fill 32 102 :: (samplePool 103).take 47 :=
    (offered_publish (checkPublish_bundle _ _ (by decide +kernel) (by decide +kernel))).trans
      (by decide +kernel)
  have hnone : (sampleExchange [.publish false (samplePool 100)]).handed = [] := rfl
  have hagain := handed_again (P := samplePrimitives)
    (samplePrimitives.x25519Public (.fill 32 101)) [.fill 32 150]
    ((samplePool 102).take 48 ++ [.fill 32 150]) hoffered rfl (by decide +kernel) (by decide +kernel)
  rw [hnone, List.nil_append] at hagain
  rw [sampleExchange_cons, hagain]
  decide

end Dante.Relay
