import Dante.Core.HostSpec

/-!
Runs of a host. An operation goes through additions and removals of members, which change the
MLS group of one channel each, and what it does besides is not about the groups. So whatever
the additions and the removals keep, every run keeps.
-/

namespace Dante.Core

open Crypto Dm

/-- What a change of the members is about in a session. -/
def ChannelSession.group {M : Mls} (ch : ChannelSession M) :
    ChannelInfo × M.Member × Finset Hash × Option Key :=
  (ch.info, ch.mls, ch.roster, ch.logKey)

/-- Whom an operation may remove from a channel. -/
def HostOp.removing (S : Suite) (op : HostOp) (channelId : ChannelId) :
    Option (Hash × RemoveCalls) :=
  match op with
  | .remove other member _ calls => if other = channelId then some (member, calls) else none
  | .kick _ member _ _ calls => some (member, calls channelId)
  | .kickRequest _ _ member _ _ calls => some (member, calls channelId)
  | .leave sender other _ calls =>
    if other = channelId then some (S.sha256 sender.toList, calls) else none
  | _ => none

namespace Hosting

variable {P : Primitives} {S : Suite} {G : Groups} {h h' : Hosting G}
variable {channelId : ChannelId} {member : Hash} {nowMs : UInt64} {sender : Key}

def groupOf (h : Hosting G) (channelId : ChannelId) : Option G.Member :=
  (h.channels.lookup channelId).map ChannelSession.mls

theorem groupOf_of_lookup {ch : ChannelSession G.toMls}
    (hlookup : h.channels.lookup channelId = some ch) : h.groupOf channelId = some ch.mls := by
  rw [groupOf, hlookup]
  rfl

theorem leaves_eq (channelId : ChannelId) (member : Hash) :
    h.leaves channelId member = (h.groupOf channelId).elim 0 fun mls =>
      (G.members mls).countP fun row => row.2 = member.toList := by
  rw [leaves, groupOf]
  cases h.channels.lookup channelId <;> rfl

theorem groupOf_withSession (channelId other : ChannelId) (ch : ChannelSession G.toMls) :
    (h.withSession channelId ch).groupOf other =
      if other = channelId then some ch.mls else h.groupOf other := by
  rw [groupOf, withSession, AssocMap.lookup_insert]
  split <;> rfl

theorem groupOf_congr (heq : h'.channels = h.channels) (channelId : ChannelId) :
    h'.groupOf channelId = h.groupOf channelId := by
  rw [groupOf, groupOf, heq]

theorem AddOutcome.groups {peerId : Hash} {calls : AddCalls} {result : Except HostError Unit}
    (outcome : AddOutcome P S h channelId peerId nowMs calls result h') :
    h' = h ∨ ∃ ch kp key, h.channels.lookup channelId = some ch ∧
      G.keyPackageIdentity ch.mls kp = .ok (peerId.toList, key) ∧
      ∀ other, h'.groupOf other =
        if other = channelId then some (G.add ch.mls kp).2 else h.groupOf other := by
  rcases outcome.merged with ⟨-, rfl⟩ | ⟨ch, kp, ch', check, -, hmls, relay⟩
  · exact .inl rfl
  · obtain ⟨hlookup, -, -, key, hidentity⟩ := checkAdd_eq_ok check
    refine .inr ⟨ch, kp, key, hlookup, hidentity, fun other => ?_⟩
    rw [groupOf_congr relay.channels, groupOf_withSession, hmls]

theorem checkRemoval_eq_ok {ch : ChannelSession G.toMls} {leaf : Option UInt32}
    (check : h.checkRemoval channelId member = .ok (ch, leaf)) :
    member ≠ h.me ∧ h.channels.lookup channelId = some ch ∧ h.hosts ch.info.serverRoot = true ∧
      leaf = ch.leafOf member := by
  simp only [checkRemoval, Except.bind_eq_ok, Except.okOr_eq_ok, Except.refuseIf_eq_ok,
    Except.pure_eq_ok, Prod.mk.injEq, Bool.not_eq_false] at check
  obtain ⟨_, hme, _, hlookup, _, hhosts, rfl, rfl⟩ := check
  exact ⟨hme, hlookup, hhosts, rfl⟩

theorem RemoveOutcome.groups {calls : RemoveCalls} {result : Except HostError Unit}
    (outcome : RemoveOutcome P h channelId member nowMs calls result h') :
    h' = h ∨ ∃ ch leaf, h.channels.lookup channelId = some ch ∧ member ≠ h.me ∧
      ch.leafOf member = some leaf ∧
      ∀ other, h'.groupOf other =
        if other = channelId then some (G.remove ch.mls leaf).2 else h.groupOf other := by
  rcases outcome.merged with rfl | ⟨ch, leaf, ch', _, check, -, hmls, -, relay⟩
  · exact .inl rfl
  · obtain ⟨hme, hlookup, -, hleaf⟩ := checkRemoval_eq_ok check
    refine .inr ⟨ch, leaf, hlookup, hme, hleaf.symm, fun other => ?_⟩
    rw [groupOf_congr relay.channels, ← hmls]
    exact groupOf_withSession channelId other ch'

/-- A leaf index stands for one leaf. -/
def DistinctLeaves (h : Hosting G) : Prop :=
  ∀ channelId mls, h.groupOf channelId = some mls → ((G.members mls).map Prod.fst).Nodup

section Members

variable {channelId : ChannelId} {member : Hash} {nowMs : UInt64}
  {result : Except HostError Unit}
variable {calls : RemoveCalls}

theorem DistinctLeaves.change (hdistinct : h.DistinctLeaves) {ch : ChannelSession G.toMls}
    {mls : G.Member} (hlookup : h.channels.lookup channelId = some ch)
    (hgroups : ∀ other, h'.groupOf other = if other = channelId then some mls else h.groupOf other)
    (hchange : ((G.members ch.mls).map Prod.fst).Nodup → ((G.members mls).map Prod.fst).Nodup) :
    h'.DistinctLeaves := by
  intro other mls' hgroup
  rw [hgroups] at hgroup
  split at hgroup
  · obtain rfl := Option.some.inj hgroup
    exact hchange (hdistinct channelId ch.mls (groupOf_of_lookup hlookup))
  · exact hdistinct other mls' hgroup

theorem AddOutcome.distinctLeaves (hG : G.Correct) {calls : AddCalls}
    (outcome : AddOutcome P S h channelId member nowMs calls result h')
    (hdistinct : h.DistinctLeaves) : h'.DistinctLeaves := by
  rcases outcome.groups with rfl | ⟨ch, kp, key, hlookup, hidentity, hgroups⟩
  · exact hdistinct
  · refine hdistinct.change hlookup hgroups fun hnodup => ?_
    rcases hG.members_add hidentity with hsame | ⟨leaf, hfresh, hperm⟩
    · rw [hsame]
      exact hnodup
    · rw [(hperm.map Prod.fst).nodup_iff, List.map_cons, List.nodup_cons]
      refine ⟨?_, hnodup⟩
      intro hmem
      obtain ⟨row, hrow, heq⟩ := List.mem_map.mp hmem
      exact hfresh row hrow heq

theorem RemoveOutcome.distinctLeaves (hG : G.Correct)
    (outcome : RemoveOutcome P h channelId member nowMs calls result h')
    (hdistinct : h.DistinctLeaves) : h'.DistinctLeaves := by
  rcases outcome.groups with rfl | ⟨ch, leaf, hlookup, -, -, hgroups⟩
  · exact hdistinct
  · refine hdistinct.change hlookup hgroups fun hnodup => ?_
    rcases hG.members_remove ch.mls leaf with hsame | hperm
    · rw [hsame]
      exact hnodup
    · rw [(hperm.map Prod.fst).nodup_iff]
      exact hnodup.sublist (List.filter_sublist.map Prod.fst)

/-- An addition gives one leaf to the one who is added, or nothing. -/
theorem AddOutcome.leaves_cases (hG : G.Correct) {calls : AddCalls}
    (outcome : AddOutcome P S h channelId member nowMs calls result h') (other : ChannelId)
    (anyone : Hash) :
    h'.leaves other anyone = h.leaves other anyone ∨
      other = channelId ∧ anyone = member ∧
        h'.leaves other anyone = h.leaves other anyone + 1 := by
  rcases outcome.groups with rfl | ⟨ch, kp, key, hlookup, hidentity, hgroups⟩
  · exact .inl rfl
  · rw [leaves_eq, leaves_eq, hgroups]
    split
    · rename_i heq
      rw [heq, groupOf_of_lookup hlookup]
      dsimp only [Option.elim_some]
      rcases hG.members_add hidentity with hsame | ⟨leaf, -, hperm⟩
      · rw [hsame]
        exact .inl rfl
      · rw [hperm.countP_eq]
        by_cases hmember : anyone = member
        · exact .inr ⟨rfl, hmember, List.countP_cons_of_pos (by simp [hmember])⟩
        · refine .inl (List.countP_cons_of_neg ?_)
          simpa using fun hid => hmember (ByteArr.toList_injective hid).symm
    · exact .inl rfl

theorem AddOutcome.leaves_le (hG : G.Correct) {calls : AddCalls}
    (outcome : AddOutcome P S h channelId member nowMs calls result h') (other : ChannelId)
    (anyone : Hash) : h.leaves other anyone ≤ h'.leaves other anyone := by
  rcases outcome.leaves_cases hG other anyone with heq | ⟨-, -, heq⟩ <;> omega

/-- By a removal, nobody else loses a leaf. -/
theorem RemoveOutcome.leaves_of_ne (hG : G.Correct)
    (outcome : RemoveOutcome P h channelId member nowMs calls result h')
    (hdistinct : h.DistinctLeaves) (other : ChannelId) {anyone : Hash} (hne : anyone ≠ member) :
    h'.leaves other anyone = h.leaves other anyone := by
  rcases outcome.groups with rfl | ⟨ch, leaf, hlookup, -, hleaf, hgroups⟩
  · rfl
  · rw [leaves_eq, leaves_eq, hgroups]
    split
    · rename_i heq
      have hgroup := groupOf_of_lookup hlookup
      rw [heq, hgroup]
      dsimp only [Option.elim_some]
      rcases hG.members_remove ch.mls leaf with hsame | hperm
      · rw [hsame]
      · rw [hperm.countP_eq, List.countP_filter]
        refine List.countP_congr fun row hrow => ?_
        -- of the rows with the leaf there is only one, and it is the member's
        simp only [decide_eq_true_eq, Bool.and_eq_true, and_iff_left_iff_imp]
        rintro hanyone rfl
        have hsame := List.inj_on_of_nodup_map (hdistinct channelId ch.mls hgroup) hrow
          (ChannelSession.leafOf_eq_some hleaf) rfl
        rw [hsame] at hanyone
        exact hne (ByteArr.toList_injective hanyone).symm
    · rfl

theorem RemoveOutcome.leaves_me (hG : G.Correct)
    (outcome : RemoveOutcome P h channelId member nowMs calls result h')
    (hdistinct : h.DistinctLeaves) (other : ChannelId) :
    h'.leaves other h.me = h.leaves other h.me := by
  by_cases hne : h.me = member
  · rcases outcome.groups with rfl | ⟨_, _, -, hme, -⟩
    · rfl
    · exact absurd hne.symm hme
  · exact outcome.leaves_of_ne hG hdistinct other hne

end Members

/-- The link and the identity of a `Redeem` that passes all checks of the handler. -/
def redeemed (S : Suite) (h : Hosting G) (op : HostOp) : Option (InviteToken × Hash) :=
  match op with
  | .redeem sender blob pw nowMs _ =>
    match InviteToken.decode blob with
    | .ok token =>
      if token.verify S = .ok () then
        (h.redeemer S token sender pw nowMs).map fun member => (token, member)
      else none
    | .error _ => none
  | _ => none

theorem toBytes_of_fromBytes {key : SignPublic S}
    (hsome : (SignPublic.fromBytes S sender).toOption = some key) : key.toBytes = sender := by
  cases hfrom : SignPublic.fromBytes S sender with
  | error e =>
    rw [hfrom] at hsome
    cases hsome
  | ok found =>
    rw [hfrom] at hsome
    cases hsome
    exact SignPublic.fromBytes_eq_ok.mp hfrom

theorem redeemer_eq_some {token : InviteToken} {pw : String}
    (hsome : h.redeemer S token sender pw nowMs = some member) :
    member = S.sha256 sender.toList ∧
      (token.maxUses = 0 ∨ h.uses token.nonce < token.maxUses) := by
  simp only [redeemer, Option.bind_eq_bind, Option.bind_eq_some_iff, Option.guard_eq_some',
    Option.pure_def, Option.some.injEq] at hsome
  obtain ⟨-, -, ch, -, -, -, server, -, -, -, -, hmax, key, hkey, rfl⟩ := hsome
  exact ⟨by rw [toBytes_of_fromBytes hkey], hmax⟩

theorem redeemed_eq_some {blob : Bytes} {pw : String} {calls : AddCalls} {token : InviteToken}
    (hsome : h.redeemed S (.redeem sender blob pw nowMs calls) = some (token, member)) :
    InviteToken.decode blob = .ok token ∧ token.verify S = .ok () ∧
      h.redeemer S token sender pw nowMs = some member := by
  unfold redeemed at hsome
  dsimp only at hsome
  cases hdecode : InviteToken.decode blob with
  | error e =>
    rw [hdecode] at hsome
    cases hsome
  | ok found =>
    rw [hdecode] at hsome
    dsimp only at hsome
    split at hsome
    · rename_i hverify
      obtain ⟨found', hfound, heq⟩ := Option.map_eq_some_iff.mp hsome
      obtain ⟨rfl, rfl⟩ := Prod.mk.inj heq
      exact ⟨rfl, hverify, hfound⟩
    · cases hsome

theorem redeem_snd (sender : Key) (blob : Bytes) (pw : String) (nowMs : UInt64) (calls : AddCalls) :
    (h.redeem P S sender blob pw nowMs calls).2 =
      match h.redeemed S (.redeem sender blob pw nowMs calls) with
      | some (token, member) => (h.admitRedeemer P S token member nowMs calls).2
      | none => h := by
  unfold redeem redeemed
  dsimp only
  cases InviteToken.decode blob with
  | error e => rfl
  | ok token =>
    dsimp only
    cases hverify : token.verify S with
    | error e =>
      rw [if_neg nofun]
    | ok u =>
      rw [if_pos rfl]
      cases h.redeemer S token sender pw nowMs with
      | none => rfl
      | some member => rfl

def countedUse (h : Hosting G) (token : InviteToken) : Hosting G :=
  { h with inviteUses := h.inviteUses.insert token.nonce (h.uses token.nonce + 1) }

/-- Counting comes first, then adding; after that the count stays. -/
theorem admit_snd (token : InviteToken) (member : Hash) (nowMs : UInt64) (calls : AddCalls) :
    let added := ((h.countedUse token).mlsAddMember P S token.channelId member nowMs calls).2
    (h.admitRedeemer P S token member nowMs calls).2 = added ∨
      (h.admitRedeemer P S token member nowMs calls).2 = added.markPresent token.channelId member := by
  unfold admitRedeemer
  dsimp only
  rcases hadd : (h.countedUse token).mlsAddMember P S token.channelId member nowMs calls with
    ⟨result, added⟩
  unfold countedUse at hadd
  rw [hadd]
  cases result with
  | error e => exact .inl rfl
  | ok u => exact .inr rfl

theorem leaver_eq_some (hsome : h.leaver S sender channelId = some member) :
    member = S.sha256 sender.toList := by
  simp only [leaver, Option.bind_eq_bind, Option.bind_eq_some_iff, Option.guard_eq_some',
    Option.pure_def, Option.some.injEq] at hsome
  obtain ⟨ch, -, key, hkey, -, -, rfl⟩ := hsome
  rw [toBytes_of_fromBytes hkey]

/-- Both states have the same groups, and the relay has the same of them. -/
structure SameGroups (h h' : Hosting G) : Prop where
  me : h'.me = h.me
  groups : ∀ channelId, (h'.channels.lookup channelId).map ChannelSession.group =
    (h.channels.lookup channelId).map ChannelSession.group
  rosters : h'.rosters = h.rosters
  logs : h'.logs = h.logs
  removals : h'.removals = h.removals

theorem SameGroups.refl (h : Hosting G) : SameGroups h h := ⟨rfl, fun _ => rfl, rfl, rfl, rfl⟩

theorem SameGroups.groupOf (same : SameGroups h h') (channelId : ChannelId) :
    h'.groupOf channelId = h.groupOf channelId := by
  have hgroup := congrArg (Option.map fun group => group.2.1) (same.groups channelId)
  rw [Option.map_map, Option.map_map] at hgroup
  exact hgroup

theorem SameGroups.leaves (same : SameGroups h h') (channelId : ChannelId) (member : Hash) :
    h'.leaves channelId member = h.leaves channelId member := by
  rw [leaves_eq, leaves_eq, same.groupOf]

theorem SameGroups.distinctLeaves (same : SameGroups h h') (hdistinct : h.DistinctLeaves) :
    h'.DistinctLeaves := by
  intro channelId mls hgroup
  rw [same.groupOf] at hgroup
  exact hdistinct channelId mls hgroup

theorem markPresent_groups (channelId : ChannelId) (member : Hash) :
    SameGroups h (h.markPresent channelId member) := by
  unfold markPresent
  cases hlookup : h.channels.lookup channelId with
  | none => exact .refl h
  | some ch =>
    refine ⟨rfl, ?_, rfl, rfl, rfl⟩
    intro other
    dsimp only [withSession]
    rw [AssocMap.lookup_insert]
    split
    · rename_i heq
      rw [heq, hlookup]
      rfl
    · rfl

theorem setBanned_groups (serverRoot : Key) (change : Finset Hash → Finset Hash) :
    SameGroups h (h.setBanned serverRoot change) := by
  unfold setBanned
  split
  · exact ⟨rfl, fun _ => rfl, rfl, rfl, rfl⟩
  · exact .refl h

theorem commitPolicy_groups (serverRoot : Key) (iconsValid : Bool)
    (change : ServerPolicy → Option ServerPolicy) :
    SameGroups h (h.commitPolicy serverRoot iconsValid change) := by
  unfold commitPolicy
  split
  · split
    · split
      · exact ⟨rfl, fun _ => rfl, rfl, rfl, rfl⟩
      · exact .refl h
    · exact .refl h
  · exact .refl h

/-- Whom an operation is about to add to which channel. -/
def joining (S : Suite) (h : Hosting G) (op : HostOp) : Option (ChannelId × Hash × AddCalls) :=
  match op with
  | .inviteAccept sender channelId _ calls =>
    if (channelId, idkToId S sender) ∈ h.invitesSent then
      some (channelId, idkToId S sender, calls)
    else none
  | .redeem _ _ _ _ calls =>
    (h.redeemed S op).map fun (token, member) => (token.channelId, member, calls)
  | _ => none

section Steps

variable {start : Hosting G} {op : HostOp} {I : Hosting G → Prop}

theorem kickFromServer_keeps {serverRoot : Key} {member : Hash} {ban : Bool} {nowMs : UInt64}
    {calls : ChannelId → RemoveCalls}
    (banned : ∀ {h : Hosting G}, I h → I (h.setBanned serverRoot (insert member)))
    (remove : ∀ {h : Hosting G} {channelId : ChannelId}, I h →
      I (h.removeFromChannel P channelId member nowMs (calls channelId)).2)
    (hstart : I start) : I (start.kickFromServer P serverRoot member ban nowMs calls).2 := by
  rcases kickFromServer_snd (P := P) (h := start) serverRoot member ban nowMs calls with
    heq | ⟨server, -, -, heq⟩
  · rw [heq]
    exact hstart
  · have hremoved : I (start.removeFromEach P server.channels member nowMs calls) :=
      removeFromEach_keeps remove hstart
    rw [heq]
    split
    · exact banned hremoved
    · exact hremoved

/-- What the additions and the removals of an operation keep, the operation keeps. -/
theorem step_keeps
    (aside : ∀ {h h' : Hosting G}, I h → SameGroups h h' → I h')
    (add : ∀ {h : Hosting G} {channelId : ChannelId} {peerId : Hash} {nowMs : UInt64}
      {calls : AddCalls}, I h → SameGroups start h →
      start.joining S op = some (channelId, peerId, calls) →
      I (h.mlsAddMember P S channelId peerId nowMs calls).2)
    (remove : ∀ {h : Hosting G} {channelId : ChannelId} {member : Hash} {nowMs : UInt64}
      {calls : RemoveCalls}, I h → op.removing S channelId = some (member, calls) →
      I (h.removeFromChannel P channelId member nowMs calls).2)
    (hstart : I start) : I (start.step P S op) := by
  cases op with
  | invite channelId peerId =>
    rw [step]
    cases hinvite : start.inviteToChannel channelId peerId with
    | error e => exact hstart
    | ok invited =>
      simp only [inviteToChannel, Except.bind_eq_ok, Except.pure_eq_ok] at hinvite
      obtain ⟨-, -, -, -, rfl⟩ := hinvite
      exact aside hstart ⟨rfl, fun _ => rfl, rfl, rfl, rfl⟩
  | inviteAccept sender channelId nowMs calls =>
    rw [step, inviteAccept]
    dsimp only
    split
    · rename_i hinvited
      have hanswered : SameGroups start { start with
          invitesSent := start.invitesSent.erase (channelId, idkToId S sender) } :=
        ⟨rfl, fun _ => rfl, rfl, rfl, rfl⟩
      have hadded : I (mlsAddMember P S _ channelId (idkToId S sender) nowMs calls).2 :=
        add (aside hstart hanswered) hanswered (if_pos hinvited)
      rcases hadd : mlsAddMember P S _ channelId (idkToId S sender) nowMs calls with
        ⟨result, added⟩
      rw [hadd] at hadded
      cases result with
      | error e => exact hadded
      | ok u => exact aside hadded (markPresent_groups channelId _)
    · exact hstart
  | inviteDecline sender channelId => exact aside hstart ⟨rfl, fun _ => rfl, rfl, rfl, rfl⟩
  | redeem sender blob pw nowMs calls =>
    rw [step, redeem_snd]
    cases hredeemed : start.redeemed S (.redeem sender blob pw nowMs calls) with
    | none => exact hstart
    | some found =>
      obtain ⟨token, member⟩ := found
      dsimp only
      have hcounted : SameGroups start (start.countedUse token) :=
        ⟨rfl, fun _ => rfl, rfl, rfl, rfl⟩
      have hjoining : start.joining S (.redeem sender blob pw nowMs calls) =
          some (token.channelId, member, calls) := by
        rw [joining, hredeemed]
        rfl
      have hadded :
          I ((start.countedUse token).mlsAddMember P S token.channelId member nowMs calls).2 :=
        add (aside hstart hcounted) hcounted hjoining
      rcases admit_snd (P := P) (S := S) (h := start) token member nowMs calls with heq | heq
      · rw [heq]
        exact hadded
      · rw [heq]
        exact aside hadded (markPresent_groups token.channelId member)
  | remove channelId member nowMs calls => exact remove hstart (if_pos rfl)
  | kick serverRoot member ban nowMs calls =>
    exact kickFromServer_keeps (aside · (setBanned_groups _ _)) (remove · rfl) hstart
  | kickRequest sender channelId member ban nowMs calls =>
    rw [step, kickRequest]
    cases start.kickTarget S sender channelId member ban with
    | none => exact hstart
    | some serverRoot =>
      exact kickFromServer_keeps (aside · (setBanned_groups _ _)) (remove · rfl) hstart
  | leave sender channelId nowMs calls =>
    rw [step, leave]
    cases hleaver : start.leaver S sender channelId with
    | none => exact hstart
    | some member =>
      obtain rfl := leaver_eq_some hleaver
      exact remove hstart (if_pos rfl)
  | unban serverRoot member =>
    rw [step]
    exact aside hstart (setBanned_groups serverRoot _)
  | setRole serverRoot iconsValid id allow deny | deleteRole serverRoot iconsValid roleId
  | assignRole serverRoot iconsValid member roleId add =>
    rw [step]
    exact aside hstart (commitPolicy_groups serverRoot iconsValid _)

end Steps

end Hosting

section Samples

open Ledger

def sampleGroups : Groups where
  Member := List (UInt32 × Bytes)
  members rows := rows
  processFrom rows _ _ _ := (.ok .ignored, rows)
  keyPackageIdentity _ kp :=
    if h : kp.length = 32 then .ok ((sampleSuite.sha256 kp).toList, .ofList kp h)
    else .error "key package"
  add rows kp :=
    let leaf := UInt32.ofNat rows.length
    if kp.length ≠ 32 ∨ rows.any fun row => row.1 = leaf then (.error "cannot add", rows)
    else (.ok { commit := 0 :: kp, welcome := some kp },
      (leaf, (sampleSuite.sha256 kp).toList) :: rows)
  remove rows leaf :=
    (.ok { commit := 1 :: Enc.Writer.u32 leaf, welcome := none }, rows.filter fun row => row.1 ≠ leaf)

theorem sampleGroups_correct : sampleGroups.Correct where
  add_ok {m m' kp identity key handshake} hidentity hadd := by
    simp only [sampleGroups] at hidentity hadd
    split at hidentity
    · rename_i hlen
      obtain ⟨rfl, -⟩ := Prod.mk.inj (Except.ok.inj hidentity)
      split at hadd
      · cases hadd
      · rename_i hfree
        obtain ⟨-, rfl⟩ := Prod.mk.inj hadd
        refine ⟨UInt32.ofNat m.length, ?_, List.Perm.refl _⟩
        intro row hrow heq
        exact hfree (.inr (List.any_eq_true.mpr ⟨row, hrow, decide_eq_true heq⟩))
    · cases hidentity
  add_error {m m' kp e} hadd := by
    simp only [sampleGroups] at hadd
    split at hadd
    · exact congrArg _ (Prod.mk.inj hadd).2.symm
    · cases hadd
  remove_ok {m m' leaf handshake} hremove := by
    obtain ⟨-, rfl⟩ := Prod.mk.inj hremove
    exact List.Perm.refl _
  remove_error hremove := by cases (Prod.mk.inj hremove).1

def sampleId (key : Key) : Hash := sampleSuite.sha256 key.toList

def sampleChannelId : ChannelId := .fill 32 7

def sampleGeneral : ChannelSession sampleGroups.toMls where
  info := { serverRoot := sampleKey 9, serverName := "s", channelName := "general",
            hostId := sampleId (sampleKey 2) }
  mls := [(0, (sampleId (sampleKey 2)).toList)]
  roster := {sampleId (sampleKey 2)}
  lastSeq := 0
  removed := ∅
  logKey := none

/-- The server's root key is the ninth, the host has the second, and the ledger knows the first. -/
def sampleHost : Hosting sampleGroups where
  me := sampleId (sampleKey 2)
  ledger := run sampleSuite sampleParams [.append (sampleAnnounce (sampleKey 1) 1000) 1000]
  hosted := (∅ : AssocMap Key HostedServer).insert (sampleKey 9)
    { channels := [sampleChannelId], joinPwHash := none, banned := ∅ }
  serverPolicies := (∅ : AssocMap Key ServerPolicy).insert (sampleKey 9)
    { ownerId := sampleId (sampleKey 2), roles := [], assignments := [] }
  channels := (∅ : AssocMap ChannelId (ChannelSession sampleGroups.toMls)).insert sampleChannelId
    sampleGeneral
  channelRosterVersion := ∅
  invitesSent := ∅
  inviteUses := ∅
  rosters := ∅
  logs := ∅
  removals := []

def sampleAdd (keyPackage : Option Bytes) : AddCalls where
  keyPackage := some keyPackage
  roster := .done
  nonce := .fill 24 0
  post := .done
  welcome := .done

def sampleRemove : RemoveCalls where
  roster := .done
  nonce := .fill 24 0
  post := .done

def sampleInvitation : List HostOp :=
  [.invite sampleChannelId (sampleId (sampleKey 1)),
    .inviteAccept (sampleKey 1) sampleChannelId 2000 (sampleAdd (some (sampleKey 1).toList))]

theorem sampleHost_distinctLeaves : sampleHost.DistinctLeaves := by
  intro channelId mls hgroup
  rw [Hosting.groupOf, sampleHost, AssocMap.lookup_insert] at hgroup
  split at hgroup
  · cases hgroup
    decide
  · cases hgroup

end Samples

end Dante.Core
