import Dante.Core.Hosting

/-!
What the operations of a host can do, said once: how adding and removing a member end, and
which parts of the state they leave alone. Everything about runs of a host goes through
these cases.
-/

namespace Dante.Core

open Crypto Dm

/-- What the results need of the MLS library: an addition gives the key package's identity one
more leaf, a removal takes the leaf away, and a failed change changes nobody. -/
structure Groups.Correct (G : Groups) : Prop where
  add_ok : ∀ {m m' : G.Member} {kp identity : Bytes} {key : Key} {handshake : Handshake},
    G.keyPackageIdentity m kp = .ok (identity, key) → G.add m kp = (.ok handshake, m') →
      ∃ leaf, (∀ row ∈ G.members m, row.1 ≠ leaf) ∧
        (G.members m').Perm ((leaf, identity) :: G.members m)
  add_error : ∀ {m m' : G.Member} {kp : Bytes} {e : String},
    G.add m kp = (.error e, m') → G.members m' = G.members m
  remove_ok : ∀ {m m' : G.Member} {leaf : UInt32} {handshake : Handshake},
    G.remove m leaf = (.ok handshake, m') →
      (G.members m').Perm ((G.members m).filter fun row => row.1 ≠ leaf)
  remove_error : ∀ {m m' : G.Member} {leaf : UInt32} {e : String},
    G.remove m leaf = (.error e, m') → G.members m' = G.members m

theorem Groups.Correct.members_add {G : Groups} (hG : G.Correct) {m : G.Member}
    {kp identity : Bytes} {key : Key} (hidentity : G.keyPackageIdentity m kp = .ok (identity, key)) :
    G.members (G.add m kp).2 = G.members m ∨
      ∃ leaf, (∀ row ∈ G.members m, row.1 ≠ leaf) ∧
        (G.members (G.add m kp).2).Perm ((leaf, identity) :: G.members m) := by
  rcases hadd : G.add m kp with ⟨result, m'⟩
  cases result with
  | error e => exact .inl (hG.add_error hadd)
  | ok handshake => exact .inr (hG.add_ok hidentity hadd)

theorem Groups.Correct.members_remove {G : Groups} (hG : G.Correct) (m : G.Member)
    (leaf : UInt32) :
    G.members (G.remove m leaf).2 = G.members m ∨
      (G.members (G.remove m leaf).2).Perm ((G.members m).filter fun row => row.1 ≠ leaf) := by
  rcases hremove : G.remove m leaf with ⟨result, m'⟩
  cases result with
  | error e => exact .inl (hG.remove_error hremove)
  | ok handshake => exact .inr (hG.remove_ok hremove)

theorem ChannelSession.leafOf_eq_some {M : Mls} {ch : ChannelSession M} {member : Hash}
    {leaf : UInt32} (h : ch.leafOf member = some leaf) :
    (leaf, member.toList) ∈ M.members ch.mls := by
  obtain ⟨row, hfind, rfl⟩ := Option.map_eq_some_iff.mp h
  have hid := List.find?_some hfind
  rw [← of_decide_eq_true hid]
  exact List.mem_of_find?_eq_some hfind

namespace Hosting

/-- The number of leaves that a member has in the host's group of a channel. -/
def leaves {G : Groups} (h : Hosting G) (channelId : ChannelId) (member : Hash) : Nat :=
  (h.channels.lookup channelId).elim 0 fun ch =>
    (G.members ch.mls).countP fun row => row.2 = member.toList

variable {P : Primitives} {S : Suite} {G : Groups} {h h' : Hosting G}
variable {channelId : ChannelId} {ch : ChannelSession G.toMls} {result : Except HostError Unit}

/-- Both states agree on everything but the channels and what the relay has of them. -/
structure SameServer (h h' : Hosting G) : Prop where
  me : h'.me = h.me
  ledger : h'.ledger = h.ledger
  hosted : h'.hosted = h.hosted
  serverPolicies : h'.serverPolicies = h.serverPolicies
  invitesSent : h'.invitesSent = h.invitesSent
  inviteUses : h'.inviteUses = h.inviteUses

namespace SameServer

theorem refl (h : Hosting G) : SameServer h h := ⟨rfl, rfl, rfl, rfl, rfl, rfl⟩

theorem trans {h h' h'' : Hosting G} (first : SameServer h h') (second : SameServer h' h'') :
    SameServer h h'' where
  me := second.me.trans first.me
  ledger := second.ledger.trans first.ledger
  hosted := second.hosted.trans first.hosted
  serverPolicies := second.serverPolicies.trans first.serverPolicies
  invitesSent := second.invitesSent.trans first.invitesSent
  inviteUses := second.inviteUses.trans first.inviteUses

end SameServer

/-- Both states agree on everything but what the relay has. -/
structure AtRelay (h h' : Hosting G) : Prop extends SameServer h h' where
  channels : h'.channels = h.channels
  removals : h'.removals = h.removals

theorem AtRelay.refl (h : Hosting G) : AtRelay h h := ⟨.refl h, rfl, rfl⟩

theorem withSession_same (channelId : ChannelId) (ch : ChannelSession G.toMls) :
    SameServer h (h.withSession channelId ch) :=
  ⟨rfl, rfl, rfl, rfl, rfl, rfl⟩

theorem pushChannelRoster_atRelay (channelId : ChannelId) (nowMs : UInt64) (reply : Reply) :
    AtRelay h (h.pushChannelRoster channelId nowMs reply).2 := by
  unfold pushChannelRoster
  split
  · exact .refl h
  · split
    · exact ⟨⟨rfl, rfl, rfl, rfl, rfl, rfl⟩, rfl, rfl⟩
    · exact .refl h

theorem pushChannelRoster_logs (channelId : ChannelId) (nowMs : UInt64) (reply : Reply) :
    (h.pushChannelRoster channelId nowMs reply).2.logs = h.logs := by
  unfold pushChannelRoster
  split
  · rfl
  · split <;> rfl

/-- The relay keeps its roster or takes the session's. -/
theorem pushChannelRoster_rosters (channelId : ChannelId) (nowMs : UInt64) (reply : Reply) :
    (h.pushChannelRoster channelId nowMs reply).2.rosters = h.rosters ∨
      ∃ ch version, h.channels.lookup channelId = some ch ∧
        (h.pushChannelRoster channelId nowMs reply).2.rosters =
          h.rosters.insert channelId (version, ch.roster) := by
  unfold pushChannelRoster
  cases hlookup : h.channels.lookup channelId with
  | none => exact .inl rfl
  | some ch =>
    dsimp only
    split
    · dsimp only
      split
      · exact .inr ⟨ch, _, rfl, rfl⟩
      · exact .inl rfl
    · exact .inl rfl

theorem pushChannelRoster_done (hlookup : h.channels.lookup channelId = some ch)
    (hhosts : h.hosts ch.info.serverRoot = true) (nowMs : UInt64) :
    ∃ version, (h.pushChannelRoster channelId nowMs .done).1 = .ok () ∧
      (h.pushChannelRoster channelId nowMs .done).2.rosters =
        h.rosters.insert channelId (version, ch.roster) := by
  simp only [pushChannelRoster, hlookup, hhosts, if_true]
  exact ⟨_, rfl, rfl⟩

theorem log_postChannelFrame (channelId other : ChannelId) (frame : Bytes) (reply : Reply) :
    (h.postChannelFrame channelId frame reply).2.log other =
      if other = channelId ∧ reply.effective = true then h.log channelId ++ [frame]
      else h.log other := by
  unfold postChannelFrame log
  dsimp only
  cases hreply : reply.effective with
  | false => simp
  | true =>
    simp only [if_true, AssocMap.lookup_insert]
    split <;> simp_all

theorem AtRelay.post (relay : AtRelay h h') (channelId : ChannelId) (frame : Bytes)
    (reply : Reply) : AtRelay h (h'.postChannelFrame channelId frame reply).2 :=
  { relay with }

/-- A commit is published with a roster and a post, whatever becomes of the Welcome. -/
theorem publishAdd_snd (channelId : ChannelId) (logKey : Option Key) (commit : Bytes)
    (nowMs : UInt64) (calls : AddCalls) :
    (h.publishAdd P channelId logKey commit nowMs calls).2 =
      ((h.pushChannelRoster channelId nowMs calls.roster).2.postChannelFrame channelId
        (wrapChannelFrame P logKey channelId frameCommit commit calls.nonce) calls.post).2 := by
  unfold publishAdd
  dsimp only
  rcases (h.pushChannelRoster channelId nowMs calls.roster).2.postChannelFrame channelId
    (wrapChannelFrame P logKey channelId frameCommit commit calls.nonce) calls.post with
    ⟨result, posted⟩
  cases result <;> rfl

theorem publishAdd_atRelay (channelId : ChannelId) (logKey : Option Key) (commit : Bytes)
    (nowMs : UInt64) (calls : AddCalls) :
    AtRelay h (h.publishAdd P channelId logKey commit nowMs calls).2 := by
  rw [publishAdd_snd]
  exact (pushChannelRoster_atRelay channelId nowMs calls.roster).post channelId _ calls.post

theorem log_publishAdd (channelId other : ChannelId) (logKey : Option Key) (commit : Bytes)
    (nowMs : UInt64) (calls : AddCalls) :
    (h.publishAdd P channelId logKey commit nowMs calls).2.log other =
      if other = channelId ∧ calls.post.effective = true then
        h.log channelId ++ [wrapChannelFrame P logKey channelId frameCommit commit calls.nonce]
      else h.log other := by
  rw [publishAdd_snd, log_postChannelFrame]
  simp only [log, pushChannelRoster_logs]

inductive AddOutcome (P : Primitives) (S : Suite) (h : Hosting G) (channelId : ChannelId)
    (peerId : Hash) (nowMs : UInt64) (calls : AddCalls) :
    Except HostError Unit → Hosting G → Prop where
  | refused {e : HostError} (check : h.checkAdd S channelId peerId calls.keyPackage = .error e) :
      AddOutcome P S h channelId peerId nowMs calls (.error e) h
  | failed {ch : ChannelSession G.toMls} {kp : Bytes} {mls : G.Member} {e : String}
      (check : h.checkAdd S channelId peerId calls.keyPackage = .ok (ch, kp))
      (add : G.add ch.mls kp = (.error e, mls)) :
      AddOutcome P S h channelId peerId nowMs calls (.error (.voice ("mls: " ++ e)))
        (h.withSession channelId { ch with mls })
  | unwelcome {ch : ChannelSession G.toMls} {kp : Bytes} {mls : G.Member} {handshake : Handshake}
      (check : h.checkAdd S channelId peerId calls.keyPackage = .ok (ch, kp))
      (add : G.add ch.mls kp = (.ok handshake, mls)) (welcome : handshake.welcome = none) :
      AddOutcome P S h channelId peerId nowMs calls (.error (.voice "MLS add produced no Welcome"))
        (h.withSession channelId { ch with mls })
  | added {ch : ChannelSession G.toMls} {kp welcome : Bytes} {mls : G.Member}
      {handshake : Handshake} {result : Except HostError Unit}
      (check : h.checkAdd S channelId peerId calls.keyPackage = .ok (ch, kp))
      (add : G.add ch.mls kp = (.ok handshake, mls))
      (welcomed : handshake.welcome = some welcome) :
      AddOutcome P S h channelId peerId nowMs calls result
        ((h.withSession channelId { ch with mls }.resyncRoster).publishAdd P channelId ch.logKey
          handshake.commit nowMs calls).2

theorem mlsAddMember_outcome (channelId : ChannelId) (peerId : Hash) (nowMs : UInt64)
    (calls : AddCalls) :
    AddOutcome P S h channelId peerId nowMs calls
      (h.mlsAddMember P S channelId peerId nowMs calls).1
      (h.mlsAddMember P S channelId peerId nowMs calls).2 := by
  unfold mlsAddMember
  cases check : h.checkAdd S channelId peerId calls.keyPackage with
  | error e => exact .refused check
  | ok found =>
    obtain ⟨ch, kp⟩ := found
    dsimp only
    rcases add : G.add ch.mls kp with ⟨result, mls⟩
    cases result with
    | error e => exact .failed check add
    | ok handshake =>
      dsimp only
      cases welcome : handshake.welcome with
      | none => exact .unwelcome check add welcome
      | some bytes => exact .added check add welcome

/-- An addition that is not refused puts the group where `add` leaves it. -/
theorem AddOutcome.merged {peerId : Hash} {nowMs : UInt64} {calls : AddCalls}
    (outcome : AddOutcome P S h channelId peerId nowMs calls result h') :
    (∃ e, h.checkAdd S channelId peerId calls.keyPackage = .error e) ∧ h' = h ∨
      ∃ ch kp ch', h.checkAdd S channelId peerId calls.keyPackage = .ok (ch, kp) ∧
        ch'.logKey = ch.logKey ∧ ch'.mls = (G.add ch.mls kp).2 ∧
        AtRelay (h.withSession channelId ch') h' := by
  cases outcome with
  | refused check => exact .inl ⟨⟨_, check⟩, rfl⟩
  | @failed ch kp mls e check add | @unwelcome ch kp mls handshake check add welcome =>
    exact .inr ⟨ch, kp, { ch with mls }, check, rfl, by rw [add], .refl _⟩
  | @added ch kp welcome mls handshake result check add welcomed =>
    exact .inr ⟨ch, kp, { ch with mls }.resyncRoster, check, rfl, by rw [add]; rfl,
      publishAdd_atRelay channelId _ _ nowMs calls⟩

theorem AddOutcome.same {peerId : Hash} {nowMs : UInt64} {calls : AddCalls}
    (outcome : AddOutcome P S h channelId peerId nowMs calls result h') : SameServer h h' := by
  rcases outcome.merged with ⟨-, rfl⟩ | ⟨_, _, ch', -, -, -, relay⟩
  · exact .refl h'
  · exact (withSession_same channelId ch').trans relay.toSameServer

theorem checkAdd_eq_ok {peerId : Hash} {keyPackage : Option (Option Bytes)} {kp : Bytes}
    (check : h.checkAdd S channelId peerId keyPackage = .ok (ch, kp)) :
    h.channels.lookup channelId = some ch ∧ h.isBanned ch.info.serverRoot peerId = false ∧
      keyPackage = some (some kp) ∧
      ∃ key, G.keyPackageIdentity ch.mls kp = .ok (peerId.toList, key) := by
  simp only [checkAdd, Except.bind_eq_ok, Except.okOr_eq_ok, Except.refuseIf_eq_ok,
    Except.pure_eq_ok, Prod.mk.injEq, Bool.not_eq_true, Bool.not_eq_false] at check
  obtain ⟨_, hlookup, _, hbanned, _, hcall, _, hkp, _, hbinds, rfl, rfl⟩ := check
  refine ⟨hlookup, hbanned, by rw [hcall, hkp], ?_⟩
  unfold keyPackageBindsTo at hbinds
  split at hbinds
  · cases hbinds
  · rename_i identity key hidentity
    obtain ⟨rfl, -⟩ := of_decide_eq_true hbinds
    exact ⟨key, hidentity⟩

theorem leaves_withSession (channelId : ChannelId) (ch : ChannelSession G.toMls) (member : Hash) :
    (h.withSession channelId ch).leaves channelId member =
      (G.members ch.mls).countP fun row => row.2 = member.toList := by
  rw [leaves, withSession, AssocMap.lookup_insert, if_pos rfl]
  rfl

theorem leaves_congr (heq : h'.channels = h.channels) (channelId : ChannelId) (member : Hash) :
    h'.leaves channelId member = h.leaves channelId member := by
  rw [leaves, leaves, heq]

/-- A member that the group has added has one leaf more. -/
theorem AddOutcome.leaves_succ (hG : G.Correct) {peerId : Hash} {nowMs : UInt64} {calls : AddCalls}
    (outcome : AddOutcome P S h channelId peerId nowMs calls result h') {kp : Bytes}
    {handshake : Handshake} (check : h.checkAdd S channelId peerId calls.keyPackage = .ok (ch, kp))
    (add : (G.add ch.mls kp).1 = .ok handshake) :
    h'.leaves channelId peerId = h.leaves channelId peerId + 1 := by
  obtain ⟨hlookup, -, -, key, hidentity⟩ := checkAdd_eq_ok check
  obtain ⟨leaf, -, hmembers⟩ := hG.add_ok hidentity (Prod.ext add rfl)
  rcases outcome.merged with ⟨⟨e, herror⟩, -⟩ | ⟨_, _, ch', check', -, hmls, relay⟩
  · cases herror.symm.trans check
  · cases check'.symm.trans check
    rw [leaves_congr relay.channels, leaves_withSession, hmls, hmembers.countP_eq,
      List.countP_cons_of_pos (by simp), leaves, hlookup]
    rfl

theorem leaves_markPresent (channelId : ChannelId) (member : Hash) :
    (h.markPresent channelId member).leaves channelId member = h.leaves channelId member := by
  unfold markPresent
  cases hlookup : h.channels.lookup channelId with
  | none => rfl
  | some ch =>
    dsimp only
    rw [leaves_withSession, leaves, hlookup]
    rfl

theorem markPresent_same (channelId : ChannelId) (member : Hash) :
    SameServer h (h.markPresent channelId member) := by
  unfold markPresent
  split
  · exact ⟨rfl, rfl, rfl, rfl, rfl, rfl⟩
  · exact .refl h

inductive RemoveOutcome (P : Primitives) (h : Hosting G) (channelId : ChannelId) (member : Hash)
    (nowMs : UInt64) (calls : RemoveCalls) : Except HostError Unit → Hosting G → Prop where
  | refused {e : HostError} (check : h.checkRemoval channelId member = .error e) :
      RemoveOutcome P h channelId member nowMs calls (.error e) h
  | absent {ch : ChannelSession G.toMls} (check : h.checkRemoval channelId member = .ok (ch, none)) :
      RemoveOutcome P h channelId member nowMs calls (.ok ()) h
  | failed {ch : ChannelSession G.toMls} {leaf : UInt32} {mls : G.Member} {e : String}
      (check : h.checkRemoval channelId member = .ok (ch, some leaf))
      (remove : G.remove ch.mls leaf = (.error e, mls)) :
      RemoveOutcome P h channelId member nowMs calls (.error (.voice ("mls: " ++ e)))
        (h.withSession channelId { ch with mls })
  | removed {ch : ChannelSession G.toMls} {leaf : UInt32} {mls : G.Member} {handshake : Handshake}
      {merged : Hosting G}
      (check : h.checkRemoval channelId member = .ok (ch, some leaf))
      (remove : G.remove ch.mls leaf = (.ok handshake, mls))
      (merge : merged = { h.withSession channelId
          { ch with mls, removed := ch.removed.insert member nowMs }.resyncRoster with
        removals := h.removals ++ [⟨channelId, member, leaf, handshake.commit⟩] }) :
      RemoveOutcome P h channelId member nowMs calls
        (merged.publishRemoval P channelId ch.logKey handshake.commit nowMs calls).1
        (merged.publishRemoval P channelId ch.logKey handshake.commit nowMs calls).2

/-- The host's state between a removal from the group and its publication. -/
theorem lookup_merged {merged : Hosting G} {removals : List Removal}
    (merge : merged = { h.withSession channelId ch with removals := removals }) :
    merged.channels.lookup channelId = some ch ∧
      ∀ serverRoot, merged.hosts serverRoot = h.hosts serverRoot := by
  rw [merge]
  exact ⟨AList.lookup_insert _, fun _ => rfl⟩

theorem removeFromChannel_outcome (channelId : ChannelId) (member : Hash) (nowMs : UInt64)
    (calls : RemoveCalls) :
    RemoveOutcome P h channelId member nowMs calls
      (h.removeFromChannel P channelId member nowMs calls).1
      (h.removeFromChannel P channelId member nowMs calls).2 := by
  unfold removeFromChannel
  cases check : h.checkRemoval channelId member with
  | error e => exact .refused check
  | ok found =>
    obtain ⟨ch, leaf⟩ := found
    cases leaf with
    | none => exact .absent check
    | some leaf =>
      dsimp only
      rcases remove : G.remove ch.mls leaf with ⟨result, mls⟩
      cases result with
      | error e => exact .failed check remove
      | ok handshake => exact .removed check remove rfl

/-- A removal whose roster is lost stops before the commit. -/
theorem publishRemoval_eq (channelId : ChannelId) (logKey : Option Key) (commit : Bytes)
    (nowMs : UInt64) (calls : RemoveCalls) :
    h.publishRemoval P channelId logKey commit nowMs calls =
      match (h.pushChannelRoster channelId nowMs calls.roster).1 with
      | .error e => (.error e, (h.pushChannelRoster channelId nowMs calls.roster).2)
      | .ok () => (h.pushChannelRoster channelId nowMs calls.roster).2.postChannelFrame channelId
          (wrapChannelFrame P logKey channelId frameCommit commit calls.nonce) calls.post := by
  unfold publishRemoval
  rcases h.pushChannelRoster channelId nowMs calls.roster with ⟨result, pushed⟩
  cases result <;> rfl

theorem publishRemoval_atRelay (channelId : ChannelId) (logKey : Option Key) (commit : Bytes)
    (nowMs : UInt64) (calls : RemoveCalls) :
    AtRelay h (h.publishRemoval P channelId logKey commit nowMs calls).2 := by
  have pushed := pushChannelRoster_atRelay (h := h) channelId nowMs calls.roster
  rw [publishRemoval_eq]
  cases (h.pushChannelRoster channelId nowMs calls.roster).1 with
  | error e => exact pushed
  | ok u => exact pushed.post channelId _ calls.post

theorem publishRemoval_done (hlookup : h.channels.lookup channelId = some ch)
    (hhosts : h.hosts ch.info.serverRoot = true) (logKey : Option Key) (commit : Bytes)
    (nowMs : UInt64) {calls : RemoveCalls} (hroster : calls.roster = .done) :
    (∃ version, (h.publishRemoval P channelId logKey commit nowMs calls).2.rosters =
        h.rosters.insert channelId (version, ch.roster)) ∧
      ∀ other, (h.publishRemoval P channelId logKey commit nowMs calls).2.log other =
        if other = channelId ∧ calls.post.effective = true then
          h.log channelId ++ [wrapChannelFrame P logKey channelId frameCommit commit calls.nonce]
        else h.log other := by
  obtain ⟨version, hok, hrosters⟩ := pushChannelRoster_done hlookup hhosts nowMs
  rw [publishRemoval_eq, hroster, hok]
  refine ⟨⟨version, hrosters⟩, fun other => ?_⟩
  dsimp only
  rw [log_postChannelFrame]
  simp only [log, pushChannelRoster_logs]

/-- What a removal does to the logs: at most one frame more, in its channel. -/
theorem log_publishRemoval (channelId other : ChannelId) (logKey : Option Key) (commit : Bytes)
    (nowMs : UInt64) (calls : RemoveCalls) :
    (h.publishRemoval P channelId logKey commit nowMs calls).2.log other = h.log other ∨
      other = channelId ∧
        (h.publishRemoval P channelId logKey commit nowMs calls).2.log other = h.log other ++
          [wrapChannelFrame P logKey channelId frameCommit commit calls.nonce] := by
  have pushed : (h.pushChannelRoster channelId nowMs calls.roster).2.log = h.log := by
    funext other
    rw [log, log, pushChannelRoster_logs]
  rw [publishRemoval_eq]
  cases (h.pushChannelRoster channelId nowMs calls.roster).1 with
  | error e => exact .inl (congrFun pushed other)
  | ok u =>
    dsimp only
    rw [log_postChannelFrame, pushed]
    split
    · rename_i heq
      rw [heq.1]
      exact .inr ⟨rfl, rfl⟩
    · exact .inl rfl

/-- A removal that finds a leaf puts the group where `remove` leaves it. -/
theorem RemoveOutcome.merged {member : Hash} {nowMs : UInt64} {calls : RemoveCalls}
    (outcome : RemoveOutcome P h channelId member nowMs calls result h') :
    h' = h ∨ ∃ ch leaf ch' removals, h.checkRemoval channelId member = .ok (ch, some leaf) ∧
      ch'.logKey = ch.logKey ∧ ch'.mls = (G.remove ch.mls leaf).2 ∧ h.removals ⊆ removals ∧
      AtRelay { h.withSession channelId ch' with removals := removals } h' := by
  cases outcome with
  | refused check => exact .inl rfl
  | absent check => exact .inl rfl
  | @failed ch leaf mls e check remove =>
    exact .inr ⟨ch, leaf, { ch with mls }, h.removals, check, rfl, by rw [remove],
      List.Subset.refl _, .refl _⟩
  | @removed ch leaf mls handshake merged check remove merge =>
    have relay := publishRemoval_atRelay (P := P) (h := merged) channelId ch.logKey handshake.commit
      nowMs calls
    rw [merge] at relay ⊢
    exact .inr ⟨ch, leaf, { ch with mls, removed := ch.removed.insert member nowMs }.resyncRoster,
      _, check, rfl, by rw [remove]; rfl, List.subset_append_left _ _, relay⟩

theorem RemoveOutcome.same {member : Hash} {nowMs : UInt64} {calls : RemoveCalls}
    (outcome : RemoveOutcome P h channelId member nowMs calls result h') : SameServer h h' := by
  rcases outcome.merged with rfl | ⟨_, _, ch', removals, -, -, -, -, relay⟩
  · exact .refl h'
  · have removed : SameServer h { h.withSession channelId ch' with removals := removals } :=
      ⟨rfl, rfl, rfl, rfl, rfl, rfl⟩
    exact removed.trans relay.toSameServer

theorem removeFromEach_keeps {I : Hosting G → Prop} {channels : List ChannelId}
    {member : Hash} {nowMs : UInt64} {calls : ChannelId → RemoveCalls}
    (remove : ∀ {h' : Hosting G} {channelId : ChannelId}, I h' →
      I (h'.removeFromChannel P channelId member nowMs (calls channelId)).2)
    (hstart : I h) : I (h.removeFromEach P channels member nowMs calls) := by
  induction channels generalizing h with
  | nil => exact hstart
  | cons channelId channels ih =>
    rw [removeFromEach, List.foldl_cons, ← removeFromEach]
    split
    · exact ih (remove hstart)
    · exact ih hstart

theorem removeFromEach_same (channels : List ChannelId) (member : Hash) (nowMs : UInt64)
    (calls : ChannelId → RemoveCalls) :
    SameServer h (h.removeFromEach P channels member nowMs calls) :=
  removeFromEach_keeps (fun hsame => hsame.trans (removeFromChannel_outcome _ _ _ _).same) (.refl h)

/-- Removing somebody from all channels of a server is the same there, up to the ban. -/
theorem kickFromServer_snd (serverRoot : Key) (member : Hash) (ban : Bool) (nowMs : UInt64)
    (calls : ChannelId → RemoveCalls) :
    (h.kickFromServer P serverRoot member ban nowMs calls).2 = h ∨
      ∃ server, h.hosted.lookup serverRoot = some server ∧ member ≠ h.me ∧
        (h.kickFromServer P serverRoot member ban nowMs calls).2 =
          if ban then
            (h.removeFromEach P server.channels member nowMs calls).setBanned serverRoot
              (insert member)
          else h.removeFromEach P server.channels member nowMs calls := by
  unfold kickFromServer
  cases hhosted : h.hosted.lookup serverRoot with
  | none => exact .inl rfl
  | some server =>
    by_cases hme : member = h.me
    · simp [hme]
    · exact .inr ⟨server, rfl, hme, by simp [hme]⟩

end Hosting

end Dante.Core
