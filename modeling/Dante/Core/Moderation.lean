import Dante.Core.HostRuns

/-!
Who can make a host remove a member. A `KickRequest` is checked against the roles of its sender, and
taking somebody out of the server leaves their roles where they are. So a moderator who was thrown
out can still throw out others.
-/

namespace Dante.Core

open Crypto Dm Hosting

namespace Hosting

variable (P : Primitives) (S : Suite) {G : Groups}
variable {serverRoot : Key}

def ownerOf (h : Hosting G) (serverRoot : Key) : Option Hash :=
  (h.serverPolicies.lookup serverRoot).map ServerPolicy.ownerId

/-- The identity is in the roster of a channel of the server. -/
def InServer (h : Hosting G) (serverRoot : Key) (member : Hash) : Prop :=
  ∃ channelId, (h.channels.lookup channelId).any fun ch =>
    ch.info.serverRoot = serverRoot ∧ member ∈ ch.roster

def requiredPerm (ban : Bool) : UInt32 := if ban then permBan else permKick

/-- Who should be able to have a target removed: the owner, or somebody in the server and not
banned who has the permission, and then only a target that has no power itself. -/
def Authority (h : Hosting G) (serverRoot : Key) (requester member : Hash) (ban : Bool) : Prop :=
  h.ownerOf serverRoot = some requester ∨
    h.InServer serverRoot requester ∧ h.isBanned serverRoot requester = false ∧
      h.memberPerms serverRoot requester &&& requiredPerm ban ≠ 0 ∧
      h.memberPerms serverRoot member &&& permKick = 0 ∧
      h.memberPerms serverRoot member &&& permManageRoles = 0

/-- Between the two states the member has lost a leaf, or has come to be banned somewhere. -/
def Ejects (h h' : Hosting G) (member : Hash) : Prop :=
  (∃ channelId, h'.leaves channelId member < h.leaves channelId member) ∨
    ∃ serverRoot, h.isBanned serverRoot member = false ∧ h'.isBanned serverRoot member = true

/-- A `KickRequest` ejects its target only with authority over the channel's server. -/
def Lawful (h : Hosting G) (op : HostOp) : Prop :=
  match op with
  | .kickRequest sender channelId member ban _ _ =>
    Ejects h (h.step P S op) member → ∃ ch, h.channels.lookup channelId = some ch ∧
      h.Authority ch.info.serverRoot (S.sha256 sender.toList) member ban
  | _ => True

/-- The owner of a hosted server keeps every leaf and is not banned. -/
def OwnerStays (h h' : Hosting G) : Prop :=
  ∀ serverRoot owner, h.hosts serverRoot = true → h.ownerOf serverRoot = some owner →
    ¬ Ejects h h' owner

/-- Whoever sends a `KickRequest` with the permission for it is the owner, or is in the server
and not banned. -/
def Standing (h : Hosting G) (op : HostOp) : Prop :=
  match op with
  | .kickRequest sender channelId _ ban _ _ =>
    ∀ ch, h.channels.lookup channelId = some ch →
      let serverRoot := ch.info.serverRoot
      let requester := S.sha256 sender.toList
      h.memberPerms serverRoot requester &&& requiredPerm ban ≠ 0 →
        h.ownerOf serverRoot = some requester ∨
          h.InServer serverRoot requester ∧ h.isBanned serverRoot requester = false
  | _ => True

variable {P S} {h h' : Hosting G}

theorem kickTarget_eq_some {sender : Key} {channelId : ChannelId} {member : Hash} {ban : Bool}
    (hsome : h.kickTarget S sender channelId member ban = some serverRoot) :
    ∃ ch, h.channels.lookup channelId = some ch ∧ ch.info.serverRoot = serverRoot ∧
      let requester := S.sha256 sender.toList
      h.memberPerms serverRoot requester &&& requiredPerm ban ≠ 0 ∧
        (h.ownerOf serverRoot = some requester ∨
          h.memberPerms serverRoot member &&& (permKick ||| permManageRoles) = 0) := by
  simp only [kickTarget, Option.bind_eq_bind, Option.bind_eq_some_iff, Option.guard_eq_some',
    Option.pure_def, Option.some.injEq] at hsome
  obtain ⟨ch, hlookup, -, -, key, hkey, -, -, -, ⟨hperm, howner⟩, rfl⟩ := hsome
  rw [toBytes_of_fromBytes hkey] at hperm howner
  refine ⟨ch, hlookup, rfl, hperm, ?_⟩
  rcases howner with howner | hstaff
  · exact .inl howner
  · exact .inr (not_not.mp hstaff)

theorem and_eq_zero_of_or {perms first second : UInt32} (hzero : perms &&& (first ||| second) = 0) :
    perms &&& first = 0 ∧ perms &&& second = 0 := by
  have hfirst : perms &&& first = perms &&& (first ||| second) &&& first := by
    apply UInt32.toBitVec_inj.mp
    ext i hi
    cases hbit : first.toBitVec[i] <;> simp [hbit]
  have hsecond : perms &&& second = perms &&& (first ||| second) &&& second := by
    apply UInt32.toBitVec_inj.mp
    ext i hi
    cases hbit : second.toBitVec[i] <;> simp [hbit]
  rw [hfirst, hsecond, hzero, UInt32.zero_and, UInt32.zero_and]
  exact ⟨rfl, rfl⟩

theorem not_ejects_self (member : Hash) : ¬ Ejects h h member := by
  rintro (⟨channelId, hlt⟩ | ⟨serverRoot, hbefore, hafter⟩)
  · exact Nat.lt_irrefl _ hlt
  · rw [hbefore] at hafter
    cases hafter

/-- A requester in good standing has all the authority that the claim asks for. -/
theorem lawful_of_standing {op : HostOp} (hstanding : h.Standing S op) : h.Lawful P S op := by
  cases op with
  | kickRequest sender channelId member ban nowMs calls =>
    intro hejects
    rw [step, kickRequest] at hejects
    cases htarget : h.kickTarget S sender channelId member ban with
    | none =>
      rw [htarget] at hejects
      exact absurd hejects (not_ejects_self member)
    | some serverRoot =>
      obtain ⟨ch, hlookup, rfl, hperm, hover⟩ := kickTarget_eq_some htarget
      refine ⟨ch, hlookup, ?_⟩
      rcases hover with howner | hstaff
      · exact .inl howner
      · rcases hstanding ch hlookup hperm with howner | ⟨hin, hbanned⟩
        · exact .inl howner
        · obtain ⟨hkick, hroles⟩ := and_eq_zero_of_or hstaff
          exact .inr ⟨hin, hbanned, hperm, hkick, hroles⟩
  | _ => trivial

/-- What a step can do to the tables of the servers: nothing, a change of a ban list that does
not put the host on it, or a change of a policy that keeps the owner. -/
inductive ServerOutcome (h : Hosting G) : Hosting G → Prop where
  | same {h' : Hosting G} (me : h'.me = h.me) (hosted : h'.hosted = h.hosted)
      (policies : h'.serverPolicies = h.serverPolicies) : ServerOutcome h h'
  | banned {h' : Hosting G} (serverRoot : Key) (change : Finset Hash → Finset Hash)
      (me : h'.me = h.me) (hosted : h'.hosted = h.hosted)
      (policies : h'.serverPolicies = h.serverPolicies)
      (spares : ∀ banned, h.me ∈ change banned → h.me ∈ banned) :
      ServerOutcome h (h'.setBanned serverRoot change)
  | policy (serverRoot : Key) (iconsValid : Bool) (change : ServerPolicy → Option ServerPolicy)
      (keeps : ∀ policy changed, change policy = some changed → changed.ownerId = policy.ownerId) :
      ServerOutcome h (h.commitPolicy serverRoot iconsValid change)

theorem SameServer.outcome (same : SameServer h h') : ServerOutcome h h' :=
  .same same.me same.hosted same.serverPolicies

theorem kickFromServer_server (serverRoot : Key) (member : Hash) (ban : Bool) (nowMs : UInt64)
    (calls : ChannelId → RemoveCalls) :
    ServerOutcome h (h.kickFromServer P serverRoot member ban nowMs calls).2 := by
  rcases kickFromServer_snd (P := P) (h := h) serverRoot member ban nowMs calls with
    heq | ⟨server, -, hne, heq⟩
  · rw [heq]
    exact (SameServer.refl h).outcome
  · have removed := removeFromEach_same (P := P) (h := h) server.channels member nowMs calls
    rw [heq]
    split
    · refine .banned serverRoot _ removed.me removed.hosted removed.serverPolicies ?_
      intro banned hmem
      exact (Finset.mem_insert.mp hmem).resolve_left hne.symm
    · exact removed.outcome

theorem setRole_ownerId (policy : ServerPolicy) (id : Option UInt16) (allow deny : UInt32) :
    (policy.setRole id allow deny).ownerId = policy.ownerId := by
  unfold ServerPolicy.setRole
  dsimp only
  split <;> rfl

theorem assignRole_ownerId {policy changed : ServerPolicy} {member : Hash} {roleId : UInt16}
    {add : Bool} (hassign : policy.assignRole member roleId add = some changed) :
    changed.ownerId = policy.ownerId := by
  unfold ServerPolicy.assignRole at hassign
  split at hassign
  · cases hassign
  · cases hassign
    rfl

theorem step_server (op : HostOp) : ServerOutcome h (h.step P S op) := by
  cases op with
  | invite channelId peerId =>
    rw [step]
    cases hinvite : h.inviteToChannel channelId peerId with
    | error e => exact (SameServer.refl h).outcome
    | ok invited =>
      simp only [inviteToChannel, Except.bind_eq_ok, Except.pure_eq_ok] at hinvite
      obtain ⟨-, -, -, -, rfl⟩ := hinvite
      exact .same rfl rfl rfl
  | inviteAccept sender channelId nowMs calls =>
    rw [step, inviteAccept]
    dsimp only
    split
    · have added := (mlsAddMember_outcome (P := P) (S := S)
        (h := { h with invitesSent := h.invitesSent.erase (channelId, idkToId S sender) })
        channelId (idkToId S sender) nowMs calls).same
      rcases hadd : mlsAddMember P S _ channelId (idkToId S sender) nowMs calls with
        ⟨result, after⟩
      rw [hadd] at added
      cases result with
      | error e => exact .same added.me added.hosted added.serverPolicies
      | ok u =>
        have present := added.trans (markPresent_same channelId (idkToId S sender))
        exact .same present.me present.hosted present.serverPolicies
    · exact (SameServer.refl h).outcome
  | inviteDecline sender channelId => exact .same rfl rfl rfl
  | redeem sender blob pw nowMs calls =>
    rw [step, redeem_snd]
    cases h.redeemed S (.redeem sender blob pw nowMs calls) with
    | none => exact (SameServer.refl h).outcome
    | some found =>
      obtain ⟨token, member⟩ := found
      have added := (mlsAddMember_outcome (P := P) (S := S) (h := h.countedUse token)
        token.channelId member nowMs calls).same
      dsimp only
      rcases admit_snd (P := P) (S := S) (h := h) token member nowMs calls with heq | heq
      · rw [heq]
        exact .same added.me added.hosted added.serverPolicies
      · have present := added.trans (markPresent_same token.channelId member)
        rw [heq]
        exact .same present.me present.hosted present.serverPolicies
  | remove channelId member nowMs calls =>
    exact (removeFromChannel_outcome channelId member nowMs calls).same.outcome
  | kick serverRoot member ban nowMs calls =>
    exact kickFromServer_server serverRoot member ban nowMs calls
  | kickRequest sender channelId member ban nowMs calls =>
    rw [step, kickRequest]
    cases h.kickTarget S sender channelId member ban with
    | none => exact (SameServer.refl h).outcome
    | some serverRoot => exact kickFromServer_server serverRoot member ban nowMs calls
  | leave sender channelId nowMs calls =>
    rw [step, leave]
    cases h.leaver S sender channelId with
    | none => exact (SameServer.refl h).outcome
    | some member => exact (removeFromChannel_outcome channelId member nowMs calls).same.outcome
  | unban serverRoot member =>
    exact .banned serverRoot _ rfl rfl rfl fun banned hmem => Finset.mem_of_mem_erase hmem
  | setRole serverRoot iconsValid id allow deny =>
    rw [step]
    refine .policy serverRoot iconsValid _ fun policy changed hchange => ?_
    cases hchange
    exact setRole_ownerId policy id allow deny
  | deleteRole serverRoot iconsValid roleId =>
    rw [step]
    refine .policy serverRoot iconsValid _ fun policy changed hchange => ?_
    cases hchange
    rfl
  | assignRole serverRoot iconsValid member roleId add =>
    exact .policy serverRoot iconsValid _ fun policy changed hchange => assignRole_ownerId hchange

/-- The host owns the servers that it hosts. -/
def Governed (h : Hosting G) : Prop :=
  ∀ serverRoot owner, h.hosts serverRoot = true → h.ownerOf serverRoot = some owner → owner = h.me

theorem setBanned_me (serverRoot : Key) (change : Finset Hash → Finset Hash) :
    (h.setBanned serverRoot change).me = h.me :=
  (setBanned_groups serverRoot change).me

theorem setBanned_serverPolicies (serverRoot : Key) (change : Finset Hash → Finset Hash) :
    (h.setBanned serverRoot change).serverPolicies = h.serverPolicies := by
  unfold setBanned
  split <;> rfl

theorem setBanned_hosts (serverRoot : Key) (change : Finset Hash → Finset Hash) (other : Key) :
    (h.setBanned serverRoot change).hosts other = h.hosts other := by
  unfold setBanned
  split
  · rename_i server hserver
    simp only [hosts, AssocMap.lookup_insert]
    split
    · rename_i heq
      rw [heq, hserver]
      rfl
    · rfl
  · rfl

theorem setBanned_isBanned {change : Finset Hash → Finset Hash} {other : Key} {member : Hash}
    (hspares : ∀ banned, member ∈ change banned → member ∈ banned)
    (hbanned : (h.setBanned serverRoot change).isBanned other member = true) :
    h.isBanned other member = true := by
  unfold setBanned at hbanned
  split at hbanned
  · rename_i server hserver
    simp only [isBanned, AssocMap.lookup_insert] at hbanned ⊢
    split at hbanned
    · rename_i heq
      rw [heq, hserver]
      exact decide_eq_true (hspares _ (of_decide_eq_true hbanned))
    · exact hbanned
  · exact hbanned

theorem commitPolicy_hosted (serverRoot : Key) (iconsValid : Bool)
    (change : ServerPolicy → Option ServerPolicy) :
    (h.commitPolicy serverRoot iconsValid change).hosted = h.hosted := by
  unfold commitPolicy
  split
  · split
    · split <;> rfl
    · rfl
  · rfl

/-- A change of the roles keeps the owner of every server. -/
theorem commitPolicy_ownerOf {iconsValid : Bool} {change : ServerPolicy → Option ServerPolicy}
    (hkeeps : ∀ policy changed, change policy = some changed → changed.ownerId = policy.ownerId)
    (other : Key) :
    (h.commitPolicy serverRoot iconsValid change).ownerOf other = h.ownerOf other := by
  unfold commitPolicy
  split
  · rename_i policy hhosts hpolicy
    split
    · rename_i changed hchange
      split
      · simp only [ownerOf, AssocMap.lookup_insert]
        split
        · rename_i heq
          rw [heq, hpolicy]
          exact congrArg some (hkeeps policy changed hchange)
        · rfl
      · rfl
    · rfl
  · rfl

theorem ServerOutcome.governed (outcome : ServerOutcome h h') (hgoverned : h.Governed) :
    h'.Governed := by
  intro serverRoot owner hhosts howner
  cases outcome with
  | same me hosted policies =>
    rw [hosts, hosted] at hhosts
    rw [ownerOf, policies] at howner
    rw [me]
    exact hgoverned serverRoot owner hhosts howner
  | banned _ change me hosted policies spares =>
    rw [setBanned_hosts, hosts, hosted] at hhosts
    rw [ownerOf, setBanned_serverPolicies, policies] at howner
    rw [setBanned_me, me]
    exact hgoverned serverRoot owner hhosts howner
  | policy _ iconsValid change keeps =>
    rw [hosts, commitPolicy_hosted] at hhosts
    rw [commitPolicy_ownerOf keeps] at howner
    rw [(commitPolicy_groups _ iconsValid change).me]
    exact hgoverned serverRoot owner hhosts howner

theorem ServerOutcome.isBanned_me (outcome : ServerOutcome h h')
    (hbanned : h'.isBanned serverRoot h.me = true) : h.isBanned serverRoot h.me = true := by
  cases outcome with
  | same me hosted policies =>
    rw [isBanned, hosted] at hbanned
    exact hbanned
  | banned _ change me hosted policies spares =>
    have hbefore := setBanned_isBanned spares hbanned
    rw [isBanned, hosted] at hbefore
    exact hbefore
  | policy _ iconsValid change keeps =>
    rw [isBanned, commitPolicy_hosted] at hbanned
    exact hbanned

theorem leaves_me_step (hG : G.Correct) (hdistinct : h.DistinctLeaves) (op : HostOp) :
    (h.step P S op).DistinctLeaves ∧
      ∀ channelId, h.leaves channelId h.me ≤ (h.step P S op).leaves channelId h.me := by
  have hkeeps : (h.step P S op).me = h.me ∧ (h.step P S op).DistinctLeaves ∧
      ∀ channelId, h.leaves channelId h.me ≤ (h.step P S op).leaves channelId h.me := by
    refine step_keeps (I := fun x => x.me = h.me ∧ x.DistinctLeaves ∧
      ∀ channelId, h.leaves channelId h.me ≤ x.leaves channelId h.me) ?_ ?_ ?_
      ⟨rfl, hdistinct, fun _ => Nat.le_refl _⟩
    · rintro x x' ⟨hme, hnodup, hle⟩ hsame
      refine ⟨hsame.me.trans hme, hsame.distinctLeaves hnodup, fun channelId => ?_⟩
      rw [hsame.leaves]
      exact hle channelId
    · rintro x channelId peerId nowMs calls ⟨hme, hnodup, hle⟩ - -
      have outcome := mlsAddMember_outcome (P := P) (S := S) (h := x) channelId peerId nowMs calls
      exact ⟨outcome.same.me.trans hme, outcome.distinctLeaves hG hnodup,
        fun other => (hle other).trans (outcome.leaves_le hG other h.me)⟩
    · rintro x channelId member nowMs calls ⟨hme, hnodup, hle⟩ -
      have outcome := removeFromChannel_outcome (P := P) (h := x) channelId member nowMs calls
      refine ⟨outcome.same.me.trans hme, outcome.distinctLeaves hG hnodup, fun other => ?_⟩
      rw [← hme, outcome.leaves_me hG hnodup, hme]
      exact hle other
  exact hkeeps.2

/-- In a run of a host that owns its servers, a `KickRequest` by somebody in good standing ejects
its target only with authority, and whatever is asked the owner stays. -/
theorem kick_authority_run (hG : G.Correct) (start : Hosting G) (howner : start.Governed)
    (hdistinct : start.DistinctLeaves) (ops : List HostOp)
    (hops : Steps.Along (step P S) (Standing S) start ops) :
    Steps.Along (step P S) (fun h op => h.Lawful P S op ∧ OwnerStays h (h.step P S op))
      start ops := by
  refine Steps.along_invariant (fun h => h.Governed ∧ h.DistinctLeaves) ?_ ?_
    ⟨howner, hdistinct⟩ hops
  · rintro h op ⟨hgoverned, hnodup⟩ -
    exact ⟨(step_server op).governed hgoverned, (leaves_me_step hG hnodup op).1⟩
  · rintro h op ⟨hgoverned, hnodup⟩ hstanding
    refine ⟨lawful_of_standing hstanding, ?_⟩
    intro serverRoot owner hhosts hpolicy
    obtain rfl := hgoverned serverRoot owner hhosts hpolicy
    rintro (⟨channelId, hlt⟩ | ⟨other, hbefore, hafter⟩)
    · exact Nat.not_lt.mpr ((leaves_me_step hG hnodup op).2 channelId) hlt
    · rw [(step_server op).isBanned_me hafter] at hbefore
      cases hbefore

end Hosting

section Samples

open Ledger (sampleKey)

theorem serverRoot_of_lookup {h : Hosting sampleGroups} {channelId : ChannelId} {serverRoot : Key}
    {ch : ChannelSession sampleGroups.toMls} (hlookup : h.channels.lookup channelId = some ch)
    (hroot : (h.channels.lookup channelId).map (fun ch => ch.info.serverRoot) = some serverRoot) :
    ch.info.serverRoot = serverRoot := by
  rw [hlookup] at hroot
  exact Option.some.inj hroot

def sampleModerator : List HostOp :=
  [.setRole (sampleKey 9) true none (permKick ||| permBan) 0,
    .assignRole (sampleKey 9) true (sampleId (sampleKey 1)) 1 true] ++ sampleInvitation

def sampleRequest : HostOp :=
  .kickRequest (sampleKey 1) sampleChannelId (sampleId (sampleKey 4)) true 3000 fun _ => sampleRemove

theorem sampleHost_governed : sampleHost.Governed := by
  intro serverRoot owner _ howner
  rw [ownerOf, sampleHost, AssocMap.lookup_insert] at howner
  split at howner
  · exact (Option.some.inj howner).symm
  · cases howner

theorem sampleRequest_standing :
    (Steps.exec (step samplePrimitives sampleSuite) sampleHost sampleModerator).Standing sampleSuite
      sampleRequest := by
  intro ch hlookup
  rw [serverRoot_of_lookup hlookup (by decide +kernel : _ = some (sampleKey 9))]
  intro serverRoot requester _
  exact .inr ⟨⟨sampleChannelId, by decide +kernel⟩, by decide +kernel⟩

theorem kick_authority_sample :
    Steps.Along (step samplePrimitives sampleSuite)
      (fun h op => h.Lawful samplePrimitives sampleSuite op ∧
        OwnerStays h (h.step samplePrimitives sampleSuite op))
      sampleHost (sampleModerator ++ [sampleRequest]) := by
  apply kick_authority_run sampleGroups_correct sampleHost sampleHost_governed
    sampleHost_distinctLeaves
  exact Steps.along_append.mpr ⟨⟨trivial, trivial, trivial, trivial, trivial⟩,
    sampleRequest_standing, trivial⟩

/-- After the host has thrown the moderator out and banned them, their request is still
granted. -/
theorem banned_moderator_bans :
    ¬ (Steps.exec (step samplePrimitives sampleSuite) sampleHost (sampleModerator ++
      [.kick (sampleKey 9) (sampleId (sampleKey 1)) true 2500 fun _ => sampleRemove])).Lawful
        samplePrimitives sampleSuite sampleRequest := by
  intro hlawful
  obtain ⟨ch, hlookup, hauthority⟩ := hlawful
    (.inr ⟨sampleKey 9, by decide +kernel, by decide +kernel⟩)
  rw [serverRoot_of_lookup hlookup (by decide +kernel : _ = some (sampleKey 9))] at hauthority
  rcases hauthority with howner | ⟨-, hbanned, -⟩
  · revert howner
    decide +kernel
  · revert hbanned
    decide +kernel

end Samples

end Dante.Core
