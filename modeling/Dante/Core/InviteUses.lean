import Dante.Core.HostRuns

/-!
How often an invite link has been used. The host counts a use before it adds the redeemer, and
an addition can fail for many reasons; the count goes up all the same.
-/

namespace Dante.Core

open Crypto Dm Hosting

/-- The message redeems this link, which verifies. -/
def HostOp.Presents (S : Suite) (op : HostOp) (token : InviteToken) : Prop :=
  match op with
  | .redeem _ blob _ _ _ => InviteToken.decode blob = .ok token ∧ token.verify S = .ok ()
  | _ => False

namespace Hosting

variable (P : Primitives) (S : Suite) {G : Groups}
variable {token : InviteToken}

/-- The message redeems this link and gives its sender a leaf in the channel's group. -/
def Joins (h : Hosting G) (token : InviteToken) (op : HostOp) : Prop :=
  match op with
  | .redeem sender blob _ _ _ =>
    InviteToken.decode blob = .ok token ∧
      (h.step P S op).leaves token.channelId (S.sha256 sender.toList) =
        h.leaves token.channelId (S.sha256 sender.toList) + 1
  | _ => False

instance (h : Hosting G) (token : InviteToken) (op : HostOp) : Decidable (h.Joins P S token op) :=
  match op with
  | .redeem _ _ _ _ _ => inferInstanceAs (Decidable (_ ∧ _))
  | .invite _ _ | .inviteAccept _ _ _ _ | .inviteDecline _ _ | .remove _ _ _ _ | .kick _ _ _ _ _
  | .kickRequest _ _ _ _ _ _ | .leave _ _ _ _ | .unban _ _ | .setRole _ _ _ _ _
  | .deleteRole _ _ _ | .assignRole _ _ _ _ _ => isFalse id

/-- If the handler comes to the point of counting, then the addition will succeed: the redeemer
is not banned, the relay has a key package that is bound to it, and the group takes it. And the
counter has room. -/
def Admissible (h : Hosting G) (op : HostOp) : Prop :=
  match op with
  | .redeem _ _ _ _ calls => ∀ token member, h.redeemed S op = some (token, member) →
      h.uses token.nonce + 1 ≠ 0 ∧ ∃ ch kp handshake,
        h.checkAdd S token.channelId member calls.keyPackage = .ok (ch, kp) ∧
          (G.add ch.mls kp).1 = .ok handshake
  | _ => True

variable {P S} {h : Hosting G}

theorem uses_admitRedeemer (token : InviteToken) (member : Hash) (nowMs : UInt64) (calls : AddCalls)
    (nonce : ByteArr 8) :
    (h.admitRedeemer P S token member nowMs calls).2.uses nonce =
      if nonce = token.nonce then h.uses token.nonce + 1 else h.uses nonce := by
  have hadded := (mlsAddMember_outcome (P := P) (S := S) (h := h.countedUse token)
    token.channelId member nowMs calls).same
  have huses : (h.admitRedeemer P S token member nowMs calls).2.inviteUses =
      (h.countedUse token).inviteUses := by
    rcases admit_snd (P := P) (S := S) (h := h) token member nowMs calls with heq | heq
    · rw [heq, hadded.inviteUses]
    · rw [heq, (markPresent_same token.channelId member).inviteUses, hadded.inviteUses]
  rw [uses, huses, countedUse, AssocMap.lookup_insert]
  split
  · rfl
  · rfl

theorem leaves_admitRedeemer (hG : G.Correct) {member : Hash} {nowMs : UInt64} {calls : AddCalls}
    {ch : ChannelSession G.toMls} {kp : Bytes} {handshake : Handshake}
    (check : h.checkAdd S token.channelId member calls.keyPackage = .ok (ch, kp))
    (add : (G.add ch.mls kp).1 = .ok handshake) :
    (h.admitRedeemer P S token member nowMs calls).2.leaves token.channelId member =
      h.leaves token.channelId member + 1 := by
  have hadded := (mlsAddMember_outcome (P := P) (S := S) (h := h.countedUse token)
    token.channelId member nowMs calls).leaves_succ hG check add
  rcases admit_snd (P := P) (S := S) (h := h) token member nowMs calls with heq | heq
  · rw [heq, hadded]
    rfl
  · rw [heq, leaves_markPresent, hadded]
    rfl

theorem setBanned_inviteUses (serverRoot : Key) (change : Finset Hash → Finset Hash) :
    (h.setBanned serverRoot change).inviteUses = h.inviteUses := by
  unfold setBanned
  split <;> rfl

theorem commitPolicy_inviteUses (serverRoot : Key) (iconsValid : Bool)
    (change : ServerPolicy → Option ServerPolicy) :
    (h.commitPolicy serverRoot iconsValid change).inviteUses = h.inviteUses := by
  unfold commitPolicy
  split
  · split
    · split <;> rfl
    · rfl
  · rfl

theorem kickFromServer_inviteUses (serverRoot : Key) (member : Hash) (ban : Bool)
    (nowMs : UInt64) (calls : ChannelId → RemoveCalls) :
    (h.kickFromServer P serverRoot member ban nowMs calls).2.inviteUses = h.inviteUses :=
  kickFromServer_keeps (I := fun h' => h'.inviteUses = h.inviteUses)
    (fun hsame => (setBanned_inviteUses _ _).trans hsame)
    (fun hsame => (removeFromChannel_outcome _ _ _ _).same.inviteUses.trans hsame) rfl

theorem inviteAccept_inviteUses (sender : Key) (channelId : ChannelId) (nowMs : UInt64)
    (calls : AddCalls) :
    (h.inviteAccept P S sender channelId nowMs calls).inviteUses = h.inviteUses := by
  unfold inviteAccept
  dsimp only
  split
  · have hadded := (mlsAddMember_outcome (P := P) (S := S)
      (h := { h with invitesSent := h.invitesSent.erase (channelId, idkToId S sender) })
      channelId (idkToId S sender) nowMs calls).same.inviteUses
    rcases hadd : mlsAddMember P S _ channelId (idkToId S sender) nowMs calls with ⟨result, added⟩
    rw [hadd] at hadded
    cases result with
    | error e => exact hadded
    | ok u => exact (markPresent_same channelId _).inviteUses.trans hadded
  · rfl

/-- One step: the use of the link that a `Redeem` passes with is counted, and nothing else. -/
theorem uses_step (op : HostOp) (nonce : ByteArr 8) :
    (h.step P S op).uses nonce =
      match h.redeemed S op with
      | some (token, _) => if nonce = token.nonce then h.uses token.nonce + 1 else h.uses nonce
      | none => h.uses nonce := by
  have hkeeps {h' : Hosting G} (heq : h'.inviteUses = h.inviteUses) :
      h'.uses nonce = h.uses nonce := by rw [uses, uses, heq]
  cases op with
  | redeem sender blob pw nowMs calls =>
    rw [step, redeem_snd]
    cases h.redeemed S (.redeem sender blob pw nowMs calls) with
    | none => rfl
    | some found => exact uses_admitRedeemer found.1 found.2 nowMs calls nonce
  | invite channelId peerId =>
    apply hkeeps
    rw [step]
    cases hinvite : h.inviteToChannel channelId peerId with
    | error e => rfl
    | ok invited =>
      simp only [inviteToChannel, Except.bind_eq_ok, Except.pure_eq_ok] at hinvite
      obtain ⟨-, -, -, -, rfl⟩ := hinvite
      rfl
  | inviteAccept sender channelId nowMs calls =>
    exact hkeeps (inviteAccept_inviteUses sender channelId nowMs calls)
  | inviteDecline sender channelId => exact hkeeps rfl
  | remove channelId member nowMs calls =>
    exact hkeeps (removeFromChannel_outcome channelId member nowMs calls).same.inviteUses
  | kick serverRoot member ban nowMs calls =>
    exact hkeeps (kickFromServer_inviteUses serverRoot member ban nowMs calls)
  | kickRequest sender channelId member ban nowMs calls =>
    apply hkeeps
    rw [step, kickRequest]
    cases h.kickTarget S sender channelId member ban with
    | none => rfl
    | some serverRoot => exact kickFromServer_inviteUses serverRoot member ban nowMs calls
  | leave sender channelId nowMs calls =>
    apply hkeeps
    rw [step, leave]
    cases h.leaver S sender channelId with
    | none => rfl
    | some member =>
      exact (removeFromChannel_outcome channelId member nowMs calls).same.inviteUses
  | unban serverRoot member => exact hkeeps (setBanned_inviteUses serverRoot _)
  | setRole serverRoot iconsValid id allow deny | deleteRole serverRoot iconsValid roleId
  | assignRole serverRoot iconsValid member roleId add =>
    exact hkeeps (commitPolicy_inviteUses serverRoot iconsValid _)

theorem presents_of_redeemed {op : HostOp} {member : Hash}
    (hsome : h.redeemed S op = some (token, member)) : op.Presents S token := by
  cases op with
  | redeem sender blob pw nowMs calls =>
    obtain ⟨hdecode, hverify, -⟩ := redeemed_eq_some hsome
    exact ⟨hdecode, hverify⟩
  | _ => cases hsome

theorem Admissible.room {op : HostOp} {member : Hash} (hop : h.Admissible S op)
    (hsome : h.redeemed S op = some (token, member)) :
    (h.uses token.nonce + 1).toNat = (h.uses token.nonce).toNat + 1 := by
  cases op with
  | redeem sender blob pw nowMs calls =>
    have hne := (hop token member hsome).1
    rw [Ne, ← UInt32.toNat_inj, UInt32.toNat_add, UInt32.toNat_one, UInt32.toNat_zero] at hne
    have := (h.uses token.nonce).toNat_lt
    rw [UInt32.toNat_add, UInt32.toNat_one]
    omega
  | _ => cases hsome

/-- A `Redeem` joins exactly if it passes, as long as passing means that it will be added. -/
theorem joins_iff (hG : G.Correct) {op : HostOp} (hop : h.Admissible S op) (token : InviteToken) :
    h.Joins P S token op ↔ ∃ member, h.redeemed S op = some (token, member) := by
  cases op with
  | redeem sender blob pw nowMs calls =>
    constructor
    · rintro ⟨hdecode, hleaves⟩
      rw [step, redeem_snd] at hleaves
      cases hredeemed : h.redeemed S (.redeem sender blob pw nowMs calls) with
      | none =>
        rw [hredeemed] at hleaves
        dsimp only at hleaves
        omega
      | some found =>
        obtain ⟨other, member⟩ := found
        have hother := (redeemed_eq_some hredeemed).1
        obtain rfl := Except.ok.inj (hother.symm.trans hdecode)
        exact ⟨member, rfl⟩
    · rintro ⟨member, hredeemed⟩
      obtain ⟨hdecode, -, hredeemer⟩ := redeemed_eq_some hredeemed
      obtain ⟨rfl, -⟩ := redeemer_eq_some hredeemer
      obtain ⟨-, ch, kp, handshake, check, add⟩ := hop token _ hredeemed
      refine ⟨hdecode, ?_⟩
      rw [step, redeem_snd, hredeemed]
      exact leaves_admitRedeemer hG check add
  | _ =>
    refine ⟨False.elim, ?_⟩
    rintro ⟨_, hsome⟩
    cases hsome

end Hosting

section Runs

variable {P : Primitives} {S : Suite} {G : Groups} {token : InviteToken}

/-- Links that verify and have one nonce are one link. -/
def HostOp.Distinct (S : Suite) (token : InviteToken) (op : HostOp) : Prop :=
  ∀ other, op.Presents S other → other.nonce = token.nonce → other = token

/-- The link whose use a step counts under the nonce of `token` is `token`. -/
theorem uses_step_of_distinct {h : Hosting G} {op : HostOp} (hdistinct : op.Distinct S token) :
    (h.step P S op).uses token.nonce = h.uses token.nonce ∧
        (∀ member, h.redeemed S op ≠ some (token, member)) ∨
      (h.step P S op).uses token.nonce = h.uses token.nonce + 1 ∧
        ∃ member, h.redeemed S op = some (token, member) := by
  have hstep := uses_step (P := P) (S := S) (h := h) op token.nonce
  cases hredeemed : h.redeemed S op with
  | none =>
    rw [hredeemed] at hstep
    exact .inl ⟨hstep, nofun⟩
  | some found =>
    obtain ⟨other, member⟩ := found
    rw [hredeemed] at hstep
    dsimp only at hstep
    by_cases hnonce : token.nonce = other.nonce
    · obtain rfl := hdistinct other (presents_of_redeemed hredeemed) hnonce.symm
      rw [if_pos rfl] at hstep
      exact .inr ⟨hstep, member, rfl⟩
    · rw [if_neg hnonce] at hstep
      refine .inl ⟨hstep, ?_⟩
      intro member' heq
      obtain ⟨rfl, -⟩ := Prod.mk.inj (Option.some.inj heq)
      exact hnonce rfl

theorem uses_le_step {h : Hosting G} {op : HostOp} (hdistinct : op.Distinct S token)
    (hmax : 0 < token.maxUses) (hle : h.uses token.nonce ≤ token.maxUses) :
    (h.step P S op).uses token.nonce ≤ token.maxUses := by
  rcases uses_step_of_distinct (P := P) (h := h) hdistinct with ⟨heq, -⟩ | ⟨heq, member, hsome⟩
  · rwa [heq]
  · cases op with
    | redeem sender blob pw nowMs calls =>
      obtain ⟨-, -, hredeemer⟩ := redeemed_eq_some hsome
      have hlt := (redeemer_eq_some hredeemer).2.resolve_left (UInt32.ne_of_lt hmax).symm
      rw [heq, UInt32.le_iff_toNat_le, UInt32.toNat_add, UInt32.toNat_one]
      rw [UInt32.lt_iff_toNat_lt] at hlt
      have := token.maxUses.toNat_lt
      omega
    | _ => cases hsome

/-- A run whose additions succeed counts each of them once. -/
theorem uses_exec (hG : G.Correct) (h : Hosting G) {ops : List HostOp}
    (hdistinct : ∀ op ∈ ops, op.Distinct S token)
    (hops : Steps.Along (step P S) (Admissible S) h ops) :
    ((Steps.exec (step P S) h ops).uses token.nonce).toNat = (h.uses token.nonce).toNat +
      (Steps.marked (step P S) (fun h op => decide (h.Joins P S token op)) h ops).length := by
  induction ops generalizing h with
  | nil => rfl
  | cons op ops ih =>
    have hrest := ih (h.step P S op) (fun other hother => hdistinct other (.tail _ hother)) hops.2
    have hjoins := joins_iff (P := P) hG hops.1 token
    rw [Steps.exec_cons, hrest, Steps.marked, List.length_append]
    rcases uses_step_of_distinct (P := P) (h := h) (hdistinct op List.mem_cons_self) with
      ⟨heq, hnone⟩ | ⟨heq, member, hsome⟩
    · have hnot : ¬ h.Joins P S token op := fun hj => (hjoins.mp hj).elim hnone
      simp [heq, hnot]
    · have hj : h.Joins P S token op := hjoins.mpr ⟨member, hsome⟩
      have hroom := Admissible.room hops.1 hsome
      simp only [heq, hj, hroom, decide_true, if_true, List.length_singleton]
      omega

end Runs

section Samples

open Ledger (sampleKey)

def sampleToken : InviteToken :=
  let unsigned : InviteToken :=
    { serverRoot := sampleKey 9, hostId := sampleId (sampleKey 2), channelId := sampleChannelId,
      relayHint := "", expiresMs := 5000, maxUses := 1, nonce := .fill 8 3, sig := .fill 64 0 }
  { unsigned with
    sig := sampleSign (sampleKey 9) (InviteToken.challenge sampleSuite unsigned.body).toList }

theorem decode_sampleToken : InviteToken.decode sampleToken.encode = .ok sampleToken :=
  InviteToken.decode_encode (by decide +kernel) (by decide)

def sampleRedeem (keyPackage : Option Bytes) : HostOp :=
  .redeem (sampleKey 1) sampleToken.encode "" 2000 (sampleAdd keyPackage)

theorem redeemed_sample (keyPackage : Option Bytes) :
    sampleHost.redeemed sampleSuite (sampleRedeem keyPackage) =
      some (sampleToken, sampleId (sampleKey 1)) := by
  have hverify : sampleToken.verify sampleSuite = .ok () := by decide +kernel
  have hredeemer : sampleHost.redeemer sampleSuite sampleToken (sampleKey 1) "" 2000 =
      some (sampleId (sampleKey 1)) := by decide +kernel
  simp only [redeemed, sampleRedeem, decode_sampleToken, hverify, hredeemer, if_true]
  rfl

theorem distinct_sample (keyPackage : Option Bytes) :
    ∀ op ∈ [sampleRedeem keyPackage], op.Distinct sampleSuite sampleToken := by
  intro op hop other hpresents _
  rw [List.mem_singleton.mp hop] at hpresents
  exact Except.ok.inj (hpresents.1.symm.trans decode_sampleToken)

theorem admissible_sample :
    sampleHost.Admissible sampleSuite (sampleRedeem (some (sampleKey 1).toList)) := by
  intro token member hredeemed
  rw [redeemed_sample] at hredeemed
  obtain ⟨rfl, rfl⟩ := Prod.mk.inj (Option.some.inj hredeemed)
  refine ⟨by decide +kernel, sampleGeneral, (sampleKey 1).toList, _, ?_, rfl⟩
  simp only [checkAdd, Except.bind_eq_ok, Except.okOr_eq_ok, Except.refuseIf_eq_ok,
    Except.pure_eq_ok]
  exact ⟨sampleGeneral, AList.lookup_insert _, (), by decide +kernel, _, rfl, _, rfl, (),
    by decide +kernel, rfl⟩

end Samples

end Dante.Core
