import Dante.Core.HostRuns

/-!
Whether a removed member is gone. The host takes the leaf out of its MLS group, then tells the relay
who is left, then posts the commit. If the roster is not taken, the commit is never posted, and a
second attempt finds nothing to do and succeeds.
-/

namespace Dante.Core

open Crypto Dm

/-- After a resync, whoever is in the roster has a leaf. -/
theorem ChannelSession.countP_pos_of_mem_resyncRoster {M : Mls} {ch : ChannelSession M}
    {member : Hash} (hmem : member ∈ ch.resyncRoster.roster) :
    0 < (M.members ch.mls).countP fun row => row.2 = member.toList := by
  obtain ⟨row, hrow, hid⟩ := List.mem_filterMap.mp (List.mem_toFinset.mp hmem)
  exact List.countP_pos_iff.mpr ⟨row, hrow, decide_eq_true (toId_eq_some.mp hid)⟩

namespace Hosting

variable (P : Primitives) (S : Suite) {G : Groups}
variable {calls : RemoveCalls} {ch : ChannelSession G.toMls} {other : ChannelId} {anyone : Hash}

/-- The log of the channel has the commit of the removal. -/
def Posted (h : Hosting G) (removal : Removal) : Prop :=
  ∃ ch nonce, h.channels.lookup removal.channelId = some ch ∧
    wrapChannelFrame P ch.logKey removal.channelId frameCommit removal.commit nonce ∈
      h.log removal.channelId

/-- The member is out of the channel: no leaf in the host's group, not in the roster that the
relay has, and it was removed with a commit that is in the log. -/
structure Gone (h : Hosting G) (channelId : ChannelId) (member : Hash) : Prop where
  leaf : h.leaves channelId member = 0
  roster : ∀ version roster, h.rosters.lookup channelId = some (version, roster) → member ∉ roster
  removed : ∃ removal ∈ h.removals, removal.channelId = channelId ∧ removal.member = member
  posted : ∀ removal ∈ h.removals, removal.channelId = channelId → removal.member = member →
    h.Posted P removal

/-- Nobody who has a leaf is added again, and a removal gets its roster to the relay and its
commit into the log. -/
def Undisturbed (h : Hosting G) (op : HostOp) : Prop :=
  (∀ channelId peerId calls, h.joining S op = some (channelId, peerId, calls) →
    h.leaves channelId peerId = 0) ∧
  ∀ channelId member calls, op.removing S channelId = some (member, calls) →
    calls.roster = .done ∧ calls.post.effective = true

/-- The three copies of the membership fit together. -/
structure Consistent (h : Hosting G) : Prop where
  distinct : h.DistinctLeaves
  single : ∀ channelId member, h.leaves channelId member ≤ 1
  rosters : ∀ channelId version roster, h.rosters.lookup channelId = some (version, roster) →
    ∀ member ∈ roster, 0 < h.leaves channelId member
  posted : ∀ removal ∈ h.removals, h.Posted P removal

variable {P S} {h h' : Hosting G} {channelId : ChannelId} {member : Hash} {nowMs : UInt64}
  {result : Except HostError Unit}

/-- The log of every channel goes on, under the same key. -/
structure LogsGrow (h h' : Hosting G) : Prop where
  keys : ∀ channelId, (h'.channels.lookup channelId).map ChannelSession.logKey =
    (h.channels.lookup channelId).map ChannelSession.logKey
  logs : ∀ channelId, h.log channelId ⊆ h'.log channelId

theorem Posted.mono {removal : Removal} (hposted : h.Posted P removal) (hgrow : LogsGrow h h') :
    h'.Posted P removal := by
  obtain ⟨ch, nonce, hlookup, hframe⟩ := hposted
  have hkey := hgrow.keys removal.channelId
  rw [hlookup] at hkey
  obtain ⟨ch', hlookup', heq⟩ := Option.map_eq_some_iff.mp hkey
  refine ⟨ch', nonce, hlookup', ?_⟩
  rw [heq]
  exact hgrow.logs removal.channelId hframe

theorem keys_withSession {ch ch' : ChannelSession G.toMls}
    (hlookup : h.channels.lookup channelId = some ch) (hkey : ch'.logKey = ch.logKey)
    (other : ChannelId) :
    ((h.withSession channelId ch').channels.lookup other).map ChannelSession.logKey =
      (h.channels.lookup other).map ChannelSession.logKey := by
  rw [withSession, AssocMap.lookup_insert]
  split
  · rename_i heq
    rw [heq, hlookup]
    exact congrArg some hkey
  · rfl

theorem SameGroups.logsGrow (same : SameGroups h h') : LogsGrow h h' where
  keys channelId := by
    have hgroup := congrArg (Option.map fun group => group.2.2.2) (same.groups channelId)
    rw [Option.map_map, Option.map_map] at hgroup
    exact hgroup
  logs channelId := by
    rw [log, log, same.logs]
    exact List.Subset.refl _

/-- An addition puts one frame more into the log of its channel, or none. -/
theorem AddOutcome.log_cases {calls : AddCalls}
    (outcome : AddOutcome P S h channelId member nowMs calls result h') (other : ChannelId) :
    h'.log other = h.log other ∨
      other = channelId ∧ ∃ frame, h'.log other = h.log other ++ [frame] := by
  cases outcome with
  | refused check => exact .inl rfl
  | failed check add => exact .inl rfl
  | unwelcome check add welcome => exact .inl rfl
  | added check add welcomed =>
    rw [log_publishAdd]
    split
    · rename_i heq
      obtain ⟨rfl, -⟩ := heq
      exact .inr ⟨rfl, _, rfl⟩
    · exact .inl rfl

theorem RemoveOutcome.log_cases
    (outcome : RemoveOutcome P h channelId member nowMs calls result h') (other : ChannelId) :
    h'.log other = h.log other ∨
      other = channelId ∧ ∃ frame, h'.log other = h.log other ++ [frame] := by
  cases outcome with
  | refused check => exact .inl rfl
  | absent check => exact .inl rfl
  | failed check remove => exact .inl rfl
  | removed check remove merge =>
    subst merge
    exact (log_publishRemoval channelId other _ _ nowMs calls).imp id
      fun ⟨heq, happend⟩ => ⟨heq, _, happend⟩

theorem AddOutcome.logsGrow {calls : AddCalls}
    (outcome : AddOutcome P S h channelId member nowMs calls result h') : LogsGrow h h' := by
  refine ⟨fun other => ?_, fun other => ?_⟩
  · rcases outcome.merged with ⟨-, rfl⟩ | ⟨ch, kp, ch', check, hkey, -, relay⟩
    · rfl
    · rw [relay.channels]
      exact keys_withSession (checkAdd_eq_ok check).1 hkey other
  · rcases outcome.log_cases other with hsame | ⟨-, frame, happend⟩
    · exact hsame ▸ List.Subset.refl _
    · exact happend ▸ List.subset_append_left _ _

theorem RemoveOutcome.logsGrow (outcome : RemoveOutcome P h channelId member nowMs calls result h') :
    LogsGrow h h' := by
  refine ⟨fun other => ?_, fun other => ?_⟩
  · rcases outcome.merged with rfl | ⟨ch, leaf, ch', _, check, hkey, -, -, relay⟩
    · rfl
    · rw [relay.channels]
      exact keys_withSession (checkRemoval_eq_ok check).2.1 hkey other
  · rcases outcome.log_cases other with hsame | ⟨-, frame, happend⟩
    · exact hsame ▸ List.Subset.refl _
    · exact happend ▸ List.subset_append_left _ _

theorem Gone.not_listed (hgone : h.Gone P channelId member) :
    ((h.rosters.lookup channelId).any fun entry => member ∈ entry.2) = false := by
  rw [Option.any_eq_false]
  intro entry hlookup
  simpa using hgone.roster entry.1 entry.2 hlookup

/-- The relay has the rosters as before, or a new one for the channel with nobody in it but
members with leaves. -/
def TakesRoster (h h' : Hosting G) (channelId : ChannelId) : Prop :=
  h'.rosters = h.rosters ∨ ∃ version roster,
    h'.rosters = h.rosters.insert channelId (version, roster) ∧
      ∀ anyone ∈ roster, 0 < h'.leaves channelId anyone

theorem leaves_pos_of_mem_roster (hlookup : h.channels.lookup channelId = some ch.resyncRoster)
    (hmem : anyone ∈ ch.resyncRoster.roster) : 0 < h.leaves channelId anyone := by
  rw [leaves, hlookup]
  exact ChannelSession.countP_pos_of_mem_resyncRoster hmem

theorem push_takesRoster (hlookup : h.channels.lookup channelId = some ch.resyncRoster)
    (reply : Reply) : TakesRoster h (h.pushChannelRoster channelId nowMs reply).2 channelId := by
  rcases pushChannelRoster_rosters (h := h) channelId nowMs reply with
    hsame | ⟨ch', version, hlookup', hroster⟩
  · exact .inl hsame
  · obtain rfl := Option.some.inj (hlookup'.symm.trans hlookup)
    refine .inr ⟨version, _, hroster, fun anyone hmem => ?_⟩
    rw [leaves_congr (pushChannelRoster_atRelay channelId nowMs reply).channels]
    exact leaves_pos_of_mem_roster hlookup hmem

theorem AddOutcome.takesRoster {calls : AddCalls}
    (outcome : AddOutcome P S h channelId member nowMs calls result h') :
    TakesRoster h h' channelId := by
  cases outcome with
  | refused check => exact .inl rfl
  | failed check add => exact .inl rfl
  | unwelcome check add welcome => exact .inl rfl
  | @added ch kp welcome mls handshake result check add welcomed =>
    rw [publishAdd_snd]
    exact push_takesRoster (h := h.withSession channelId { ch with mls }.resyncRoster)
      (AList.lookup_insert _) calls.roster

theorem AddOutcome.removals {calls : AddCalls}
    (outcome : AddOutcome P S h channelId member nowMs calls result h') :
    h'.removals = h.removals := by
  rcases outcome.merged with ⟨-, rfl⟩ | ⟨_, _, _, -, -, -, relay⟩
  · rfl
  · exact relay.removals

/-- A removal leaves everything as it was, or it takes out the leaf and says so in its record; and
if the relay answers, the roster and the log follow. -/
theorem RemoveOutcome.relay (hG : G.Correct)
    (outcome : RemoveOutcome P h channelId member nowMs calls result h')
    (hroster : calls.roster = .done) (hpost : calls.post.effective = true) :
    h'.removals = h.removals ∧ h'.rosters = h.rosters ∧
        (∀ other anyone, h'.leaves other anyone = h.leaves other anyone) ∨
      ∃ removal, h'.removals = h.removals ++ [removal] ∧ removal.channelId = channelId ∧
        removal.member = member ∧ h'.Posted P removal ∧
        ∃ version roster, h'.rosters = h.rosters.insert channelId (version, roster) ∧
          ∀ anyone ∈ roster, 0 < h'.leaves channelId anyone := by
  cases outcome with
  | refused check | absent check => exact .inl ⟨rfl, rfl, fun _ _ => rfl⟩
  | failed check remove =>
    refine .inl ⟨rfl, rfl, fun other anyone => ?_⟩
    obtain ⟨-, hlookup, -, -⟩ := checkRemoval_eq_ok check
    rw [leaves_eq, leaves_eq, groupOf_withSession]
    split
    · rename_i heq
      rw [heq, groupOf_of_lookup hlookup, Option.elim_some, Option.elim_some,
        hG.remove_error remove]
    · rfl
  | @removed ch leaf mls handshake merged check remove merge =>
    obtain ⟨-, hlookup, hhosts, -⟩ := checkRemoval_eq_ok check
    obtain ⟨hchannel, hsame⟩ := lookup_merged merge
    obtain ⟨⟨version, hrosters⟩, hlogs⟩ := publishRemoval_done (P := P) hchannel
      ((hsame _).trans hhosts) ch.logKey handshake.commit nowMs hroster
    have hrelay := publishRemoval_atRelay (P := P) (h := merged) channelId ch.logKey
      handshake.commit nowMs calls
    have hbefore : merged.rosters = h.rosters := by
      rw [merge]
      rfl
    rw [hbefore] at hrosters
    refine .inr ⟨⟨channelId, member, leaf, handshake.commit⟩, ?_, rfl, rfl, ?_, version, _, hrosters,
      ?_⟩
    · rw [hrelay.removals, merge]
    · refine ⟨_, calls.nonce, by rw [hrelay.channels, hchannel], ?_⟩
      rw [hlogs, if_pos ⟨rfl, hpost⟩]
      exact List.mem_append_right _ (List.mem_singleton.mpr rfl)
    · intro anyone hmem
      rw [leaves_congr hrelay.channels]
      exact leaves_pos_of_mem_roster hchannel hmem

theorem Consistent.aside (hconsistent : h.Consistent P) (same : SameGroups h h') :
    h'.Consistent P where
  distinct := same.distinctLeaves hconsistent.distinct
  single channelId member := by
    rw [same.leaves]
    exact hconsistent.single channelId member
  rosters channelId version roster hlookup member hmem := by
    rw [same.rosters] at hlookup
    rw [same.leaves]
    exact hconsistent.rosters channelId version roster hlookup member hmem
  posted removal hremoval := by
    rw [same.removals] at hremoval
    exact (hconsistent.posted removal hremoval).mono same.logsGrow

/-- A new roster of members with leaves is fine, and an old one if nobody in it has lost a leaf. -/
theorem rosters_insert {version : UInt64} {roster : Finset Hash}
    (hold : ∀ other version roster, other ≠ channelId →
      h.rosters.lookup other = some (version, roster) →
      ∀ anyone ∈ roster, 0 < h'.leaves other anyone)
    (hinsert : h'.rosters = h.rosters.insert channelId (version, roster))
    (hnew : ∀ anyone ∈ roster, 0 < h'.leaves channelId anyone) (other : ChannelId)
    (version' : UInt64) (roster' : Finset Hash)
    (hlookup : h'.rosters.lookup other = some (version', roster')) (anyone : Hash)
    (hmem : anyone ∈ roster') : 0 < h'.leaves other anyone := by
  rw [hinsert, AssocMap.lookup_insert] at hlookup
  split at hlookup
  · rename_i heq
    obtain ⟨rfl, rfl⟩ := Prod.mk.inj (Option.some.inj hlookup)
    rw [heq]
    exact hnew anyone hmem
  · rename_i hne
    exact hold other version' roster' hne hlookup anyone hmem

theorem Consistent.add (hG : G.Correct) (hconsistent : h.Consistent P) {calls : AddCalls}
    (outcome : AddOutcome P S h channelId member nowMs calls result h')
    (hnew : h.leaves channelId member = 0) : h'.Consistent P where
  distinct := outcome.distinctLeaves hG hconsistent.distinct
  single other anyone := by
    have hsingle := hconsistent.single other anyone
    rcases outcome.leaves_cases hG other anyone with heq | ⟨rfl, rfl, heq⟩ <;> omega
  rosters := by
    have hkeeps {other : ChannelId} {version : UInt64} {roster : Finset Hash}
        (hlookup : h.rosters.lookup other = some (version, roster)) (anyone : Hash)
        (hmem : anyone ∈ roster) : 0 < h'.leaves other anyone :=
      (hconsistent.rosters other version roster hlookup anyone hmem).trans_le
        (outcome.leaves_le hG other anyone)
    rcases outcome.takesRoster with hsame | ⟨version, roster, hinsert, hpos⟩
    · intro other version roster hlookup
      rw [hsame] at hlookup
      exact hkeeps hlookup
    · exact rosters_insert (fun _ _ _ _ hlookup => hkeeps hlookup) hinsert hpos
  posted removal hremoval := by
    rw [outcome.removals] at hremoval
    exact (hconsistent.posted removal hremoval).mono outcome.logsGrow

theorem RemoveOutcome.leaves_other
    (outcome : RemoveOutcome P h channelId member nowMs calls result h') (hne : other ≠ channelId)
    (anyone : Hash) : h'.leaves other anyone = h.leaves other anyone := by
  rcases outcome.groups with rfl | ⟨_, _, -, -, -, hgroups⟩
  · rfl
  · rw [leaves_eq, leaves_eq, hgroups, if_neg hne]

theorem RemoveOutcome.leaves_le (hG : G.Correct)
    (outcome : RemoveOutcome P h channelId member nowMs calls result h') (other : ChannelId)
    (anyone : Hash) : h'.leaves other anyone ≤ h.leaves other anyone := by
  rcases outcome.groups with rfl | ⟨ch, leaf, hlookup, -, -, hgroups⟩
  · exact Nat.le_refl _
  · rw [leaves_eq, leaves_eq, hgroups]
    split
    · rename_i heq
      rw [heq, groupOf_of_lookup hlookup, Option.elim_some, Option.elim_some]
      rcases hG.members_remove ch.mls leaf with hsame | hperm
      · rw [hsame]
      · rw [hperm.countP_eq]
        exact List.filter_sublist.countP_le
    · exact Nat.le_refl _

theorem leaves_eq_zero_of_leafOf (hlookup : h.channels.lookup channelId = some ch)
    (hleaf : ch.leafOf member = none) : h.leaves channelId member = 0 := by
  have hfind := Option.map_eq_none_iff.mp hleaf
  rw [leaves, hlookup, Option.elim_some, List.countP_eq_zero]
  intro row hrow
  exact List.find?_eq_none.mp hfind row hrow

/-- A member with one leaf has none after a removal that succeeds. -/
theorem RemoveOutcome.leaves_eq_zero (hG : G.Correct)
    (outcome : RemoveOutcome P h channelId member nowMs calls (.ok ()) h')
    (hsingle : h.leaves channelId member ≤ 1) : h'.leaves channelId member = 0 := by
  generalize hresult : (Except.ok () : Except HostError Unit) = result at outcome
  cases outcome with
  | refused check => cases hresult
  | absent check =>
    obtain ⟨-, hlookup, -, hleaf⟩ := checkRemoval_eq_ok check
    exact leaves_eq_zero_of_leafOf hlookup hleaf.symm
  | failed check remove => cases hresult
  | @removed ch leaf mls handshake merged check remove merge =>
    obtain ⟨-, hlookup, -, hleaf⟩ := checkRemoval_eq_ok check
    have hgroup : (merged.publishRemoval P channelId ch.logKey handshake.commit nowMs
        calls).2.groupOf channelId = some mls := by
      rw [groupOf_congr (publishRemoval_atRelay channelId _ _ nowMs calls).channels, merge]
      exact (groupOf_withSession channelId channelId _).trans (if_pos rfl)
    rw [leaves_eq, groupOf_of_lookup hlookup, Option.elim_some] at hsingle
    rw [leaves_eq, hgroup, Option.elim_some, (hG.remove_ok remove).countP_eq]
    -- the row of the leaf is the member's, and it is taken out
    have hlt : ((G.members ch.mls).filter fun row => row.1 ≠ leaf).countP
        (fun row => row.2 = member.toList) <
          (G.members ch.mls).countP fun row => row.2 = member.toList := by
      rw [List.countP_eq_length_filter, List.countP_eq_length_filter, List.filter_comm,
        List.length_filter_lt_length_iff_exists]
      exact ⟨(leaf, member.toList), List.mem_filter.mpr
        ⟨ChannelSession.leafOf_eq_some hleaf.symm, by simp⟩, by simp⟩
    omega

theorem Consistent.remove (hG : G.Correct) (hconsistent : h.Consistent P)
    (outcome : RemoveOutcome P h channelId member nowMs calls result h')
    (hroster : calls.roster = .done) (hpost : calls.post.effective = true) :
    h'.Consistent P where
  distinct := outcome.distinctLeaves hG hconsistent.distinct
  single other anyone :=
    (outcome.leaves_le hG other anyone).trans (hconsistent.single other anyone)
  rosters := by
    rcases outcome.relay hG hroster hpost with
      ⟨-, hsame, hleaves⟩ | ⟨-, -, -, -, -, version, roster, hinsert, hpos⟩
    · intro other version roster hlookup anyone hmem
      rw [hsame] at hlookup
      rw [hleaves]
      exact hconsistent.rosters other version roster hlookup anyone hmem
    · refine rosters_insert ?_ hinsert hpos
      intro other version roster hne hlookup anyone hmem
      rw [outcome.leaves_other hne]
      exact hconsistent.rosters other version roster hlookup anyone hmem
  posted removal hremoval := by
    rcases outcome.relay hG hroster hpost with
      ⟨hsame, -⟩ | ⟨new, happend, -, -, hnew, -⟩
    · rw [hsame] at hremoval
      exact (hconsistent.posted removal hremoval).mono outcome.logsGrow
    · rw [happend] at hremoval
      rcases List.mem_append.mp hremoval with hold | hlast
      · exact (hconsistent.posted removal hold).mono outcome.logsGrow
      · rw [List.mem_singleton.mp hlast]
        exact hnew

/-- The member has a leaf in the channel, or the record of the removals has it. -/
def Accounted (h : Hosting G) (channelId : ChannelId) (member : Hash) : Prop :=
  0 < h.leaves channelId member ∨
    ∃ removal ∈ h.removals, removal.channelId = channelId ∧ removal.member = member

theorem Accounted.remove (hG : G.Correct) (hconsistent : h.Consistent P)
    (outcome : RemoveOutcome P h channelId member nowMs calls result h')
    (hroster : calls.roster = .done) (hpost : calls.post.effective = true)
    (haccounted : h.Accounted other anyone) : h'.Accounted other anyone := by
  rcases outcome.relay hG hroster hpost with
    ⟨hremovals, -, hleaves⟩ | ⟨new, happend, hchannel, hmember, -⟩
  · rw [Accounted, hremovals, hleaves]
    exact haccounted
  · rw [Accounted, happend]
    rcases haccounted with hpos | ⟨removal, hremoval, heq⟩
    · by_cases hne : other = channelId ∧ anyone = member
      · obtain ⟨rfl, rfl⟩ := hne
        exact .inr ⟨new, List.mem_append_right _ (List.mem_singleton.mpr rfl), hchannel, hmember⟩
      · left
        rcases not_and_or.mp hne with hother | hanyone
        · rw [outcome.leaves_other hother]
          exact hpos
        · rw [outcome.leaves_of_ne hG hconsistent.distinct other hanyone]
          exact hpos
    · exact .inr ⟨removal, List.mem_append_left _ hremoval, heq⟩

theorem Accounted.add (hG : G.Correct) {calls : AddCalls}
    (outcome : AddOutcome P S h channelId member nowMs calls result h')
    (haccounted : h.Accounted other anyone) : h'.Accounted other anyone := by
  rcases haccounted with hpos | hremoved
  · exact .inl (hpos.trans_le (outcome.leaves_le hG other anyone))
  · right
    rw [outcome.removals]
    exact hremoved

theorem SameGroups.accounted (same : SameGroups h h') (haccounted : h.Accounted other anyone) :
    h'.Accounted other anyone := by
  rw [Accounted, same.leaves, same.removals]
  exact haccounted

/-- One undisturbed step keeps the three copies together and loses track of nobody. -/
theorem consistent_step (hG : G.Correct) {op : HostOp} (hop : h.Undisturbed S op)
    (hconsistent : h.Consistent P) :
    (h.step P S op).Consistent P ∧ ∀ {other : ChannelId} {anyone : Hash},
      h.Accounted other anyone → (h.step P S op).Accounted other anyone := by
  refine step_keeps (I := fun x => x.Consistent P ∧ ∀ {other : ChannelId} {anyone : Hash},
    h.Accounted other anyone → x.Accounted other anyone) ?_ ?_ ?_ ⟨hconsistent, id⟩
  · rintro x x' ⟨hx, haccounted⟩ hsame
    exact ⟨hx.aside hsame, fun hbefore => hsame.accounted (haccounted hbefore)⟩
  · rintro x channelId peerId nowMs calls ⟨hx, haccounted⟩ hsame hjoining
    have outcome := mlsAddMember_outcome (P := P) (S := S) (h := x) channelId peerId nowMs calls
    have hnew : x.leaves channelId peerId = 0 := by
      rw [hsame.leaves]
      exact hop.1 channelId peerId calls hjoining
    exact ⟨hx.add hG outcome hnew, fun hbefore => (haccounted hbefore).add hG outcome⟩
  · rintro x channelId member nowMs calls ⟨hx, haccounted⟩ hremoving
    have outcome := removeFromChannel_outcome (P := P) (h := x) channelId member nowMs calls
    obtain ⟨hroster, hpost⟩ := hop.2 channelId member calls hremoving
    exact ⟨hx.remove hG outcome hroster hpost,
      fun hbefore => (haccounted hbefore).remove hG hx outcome hroster hpost⟩

/-- A removal that succeeds did nothing, or the relay has answered all of it. -/
theorem RemoveOutcome.answered
    (outcome : RemoveOutcome P h channelId member nowMs calls (.ok ()) h') :
    h' = h ∨ calls.roster = .done ∧ calls.post.effective = true := by
  generalize hresult : (Except.ok () : Except HostError Unit) = result at outcome
  cases outcome with
  | refused check => cases hresult
  | absent check => exact .inl rfl
  | failed check remove => cases hresult
  | @removed ch leaf mls handshake merged check remove merge =>
    right
    obtain ⟨-, -, hhosts, -⟩ := checkRemoval_eq_ok check
    obtain ⟨hchannel, hsame⟩ := lookup_merged merge
    have hpush : (merged.pushChannelRoster channelId nowMs calls.roster).1 =
        calls.roster.result := by
      rw [pushChannelRoster, hchannel]
      exact congrArg Prod.fst (if_pos ((hsame _).trans hhosts))
    rw [publishRemoval_eq, hpush] at hresult
    cases hroster : calls.roster with
    | done =>
      rw [hroster] at hresult
      refine ⟨rfl, ?_⟩
      cases hpost : calls.post with
      | done => rfl
      | unheard => rfl
      | failed =>
        rw [hpost] at hresult
        cases hresult
    | unheard | failed =>
      rw [hroster] at hresult
      cases hresult

/-- In an undisturbed run, a member who was once in the channel is gone from all three places
when a removal succeeds. -/
theorem removal_effective_run (hG : G.Correct) (start : Hosting G) (hstart : start.Consistent P)
    (before after : List HostOp)
    (hops : Steps.Along (step P S) (Undisturbed S) start (before ++ after)) (channelId : ChannelId)
    (member : Hash) (nowMs : UInt64) (calls : RemoveCalls)
    (hmember : 0 < (Steps.exec (step P S) start before).leaves channelId member)
    (hok : ((Steps.exec (step P S) start (before ++ after)).removeFromChannel P channelId member
      nowMs calls).1 = .ok ()) :
    ((Steps.exec (step P S) start (before ++ after)).removeFromChannel P channelId member nowMs
      calls).2.Gone P channelId member := by
  obtain ⟨hfirst, hsecond⟩ := Steps.along_append.mp hops
  have hbefore : (Steps.exec (step P S) start before).Consistent P :=
    Steps.exec_invariant (fun h => h.Consistent P)
      (fun h op hconsistent hop => (consistent_step hG hop hconsistent).1) hstart hfirst
  have hinvariant : (Steps.exec (step P S) start (before ++ after)).Consistent P ∧
      (Steps.exec (step P S) start (before ++ after)).Accounted channelId member := by
    rw [Steps.exec_append]
    refine Steps.exec_invariant (fun h => h.Consistent P ∧ h.Accounted channelId member) ?_
      ⟨hbefore, .inl hmember⟩ hsecond
    rintro h op ⟨hconsistent, haccounted⟩ hop
    obtain ⟨hkept, hstill⟩ := consistent_step (P := P) hG hop hconsistent
    exact ⟨hkept, hstill haccounted⟩
  generalize Steps.exec (step P S) start (before ++ after) = h at hok hinvariant ⊢
  obtain ⟨hconsistent, haccounted⟩ := hinvariant
  have outcome := removeFromChannel_outcome (P := P) (h := h) channelId member nowMs calls
  rw [hok] at outcome
  have hleaf := outcome.leaves_eq_zero hG (hconsistent.single channelId member)
  have hafter : (h.removeFromChannel P channelId member nowMs calls).2.Consistent P ∧
      (h.removeFromChannel P channelId member nowMs calls).2.Accounted channelId member := by
    rcases outcome.answered with hsame | ⟨hroster, hpost⟩
    · rw [hsame]
      exact ⟨hconsistent, haccounted⟩
    · exact ⟨hconsistent.remove hG outcome hroster hpost,
        haccounted.remove hG hconsistent outcome hroster hpost⟩
  refine ⟨hleaf, ?_, ?_, fun removal hremoval _ _ => hafter.1.posted removal hremoval⟩
  · intro version roster hlookup hmem
    have hpos := hafter.1.rosters channelId version roster hlookup member hmem
    omega
  · exact hafter.2.resolve_left (by omega)

end Hosting

section Samples

open Ledger (sampleKey)
open Hosting

theorem sampleHost_consistent : sampleHost.Consistent samplePrimitives where
  distinct := sampleHost_distinctLeaves
  single channelId member := by
    rw [leaves, sampleHost, AssocMap.lookup_insert]
    split
    · exact List.countP_le_length
    · exact Nat.zero_le 1
  rosters := nofun
  posted := nofun

theorem sampleInvitation_undisturbed :
    Steps.Along (step samplePrimitives sampleSuite) (Undisturbed sampleSuite) sampleHost
      sampleInvitation := by
  refine ⟨⟨nofun, nofun⟩, ⟨?_, nofun⟩, trivial⟩
  intro channelId peerId calls hjoining
  simp only [joining] at hjoining
  split at hjoining
  · obtain ⟨rfl, hrest⟩ := Prod.mk.inj (Option.some.inj hjoining)
    obtain ⟨rfl, -⟩ := Prod.mk.inj hrest
    decide +kernel
  · cases hjoining

theorem removal_effective_sample :
    let joined := Steps.exec (step samplePrimitives sampleSuite) sampleHost sampleInvitation
    (joined.removeFromChannel samplePrimitives sampleChannelId (sampleId (sampleKey 1)) 3000
      sampleRemove).2.Gone samplePrimitives sampleChannelId (sampleId (sampleKey 1)) := by
  have hops := sampleInvitation_undisturbed
  rw [← List.append_nil sampleInvitation] at hops
  exact removal_effective_run sampleGroups_correct sampleHost sampleHost_consistent
    sampleInvitation [] hops sampleChannelId (sampleId (sampleKey 1)) 3000 sampleRemove
    (by decide +kernel) (by decide +kernel)

/-- The roster does not get through and the removal fails. The second attempt succeeds, and the
relay still lets the member write. -/
theorem retried_removal_incomplete :
    let joined := Steps.exec (step samplePrimitives sampleSuite) sampleHost sampleInvitation
    let failed := (joined.removeFromChannel samplePrimitives sampleChannelId
      (sampleId (sampleKey 1)) 3000 { sampleRemove with roster := .failed }).2
    let retried := failed.removeFromChannel samplePrimitives sampleChannelId
      (sampleId (sampleKey 1)) 4000 sampleRemove
    0 < joined.leaves sampleChannelId (sampleId (sampleKey 1)) ∧ retried.1 = .ok () ∧
      ¬ retried.2.Gone samplePrimitives sampleChannelId (sampleId (sampleKey 1)) := by
  refine ⟨by decide +kernel, by decide +kernel, ?_⟩
  intro hgone
  have hlisted := hgone.not_listed
  revert hlisted
  decide +kernel

end Samples

end Dante.Core
