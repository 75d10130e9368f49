import Dante.Relay.ChannelLog

/-!
Who may write to a channel. The first roster of a channel binds it to the root key
that signed it, and only a later version of the same root replaces it. Posts and
gossiped frames are checked against the roster; a sibling's log is not.
-/

namespace Dante.Relay

open Crypto Method Except

/-- The author and the signature that come with a frame. -/
def ChannelOp.signature : ChannelOp → Option (Hash × Signature)
  | .post _ _ _ identity sig _ => some (identity, sig)
  | .gossip _ _ _ identity sig _ => some (identity, sig)
  | _ => none

namespace ChannelStore

variable {S : Suite} {store : ChannelStore}

/-- The step carries a signature of a member of the roster over the frame, under the key that
the ledger has for the member. -/
def SignedByMember (S : Suite) (store : ChannelStore) (op : ChannelOp) (channelId : Hash)
    (roster : ChannelRoster) (frame : Frame) : Prop :=
  ∃ identity sig idk, op.signature = some (identity, sig) ∧ identity ∈ roster.members ∧
    store.ledger.idkForId identity = some idk ∧
    Verifies S idk (postToChannelChallenge S channelId identity frame.blob).toList sig

/-- The frame is in the log after the step and not before it. -/
def Enters (S : Suite) (store : ChannelStore) (op : ChannelOp) (channelId : Hash)
    (frame : Frame) : Prop :=
  frame ∉ (store.log channelId).entries ∧ frame ∈ ((store.step S op).log channelId).entries

/-- No sibling's log is adopted for a channel that has a roster. -/
def AdoptsUnbound (store : ChannelStore) : ChannelOp → Prop
  | .adopt channelId _ _ => store.rosters.lookup channelId = none
  | _ => True

instance (op : ChannelOp) : Decidable (store.AdoptsUnbound op) :=
  match op with
  | .post .. => isTrue trivial
  | .gossip .. => isTrue trivial
  | .adopt channelId _ _ => inferInstanceAs (Decidable (store.rosters.lookup channelId = none))
  | .maintain _ => isTrue trivial
  | .setRoster _ _ => isTrue trivial
  | .gossipRoster _ => isTrue trivial
  | .ledger _ => isTrue trivial

/-- What a step brings into a channel with a roster is signed by a member. -/
theorem Brings.signedByMember {channelId : Hash} {frame : Frame} {op : ChannelOp}
    {roster : ChannelRoster} (hbrings : store.Brings S channelId frame op)
    (hadopts : store.AdoptsUnbound op) (hroster : store.rosters.lookup channelId = some roster) :
    store.SignedByMember S op channelId roster frame := by
  cases op with
  | post limited target blob identity sig nowMs =>
    obtain ⟨rfl, hcheck, rfl⟩ := hbrings
    obtain ⟨-, hsig, ⟨held, hheld, hmember⟩, -⟩ := checkPost_eq_ok hcheck
    cases hheld.symm.trans hroster
    obtain ⟨idk, hidk, hverifies⟩ := verifyChannelPostSig_eq_ok.mp hsig
    exact ⟨identity, sig, idk, rfl, hmember, hidk, hverifies⟩
  | gossip target seq blob identity sig nowMs =>
    obtain ⟨rfl, ⟨-, hsig, hmember, -⟩, -, rfl⟩ := hbrings
    obtain ⟨idk, hidk, hverifies⟩ := verifyChannelPostSig_eq_ok.mp hsig
    exact ⟨identity, sig, idk, rfl, hmember roster hroster, hidk, hverifies⟩
  | adopt target rows nowMs =>
    obtain ⟨rfl, -⟩ := hbrings
    cases hroster.symm.trans hadopts
  | maintain nowMs => cases hbrings
  | setRoster limited update => cases hbrings
  | gossipRoster update => cases hbrings
  | ledger ledger => cases hbrings

end ChannelStore

/-- In every run that adopts no log for a channel with a roster, each frame that enters the log
of a channel with a roster is signed by one of its members at that moment. -/
theorem entering_signed_run (S : Suite) (ledger : Ledger) (cap : Nat) (ops : List ChannelOp)
    (hadopts : Steps.Along (ChannelStore.step S) ChannelStore.AdoptsUnbound (.new ledger cap) ops)
    (before after : List ChannelOp) (op : ChannelOp) (hops : ops = before ++ op :: after)
    (channelId : Hash) (roster : ChannelRoster) (frame : Frame) :
    let store := Steps.exec (ChannelStore.step S) (.new ledger cap) before
    store.rosters.lookup channelId = some roster → store.Enters S op channelId frame →
      store.SignedByMember S op channelId roster frame := by
  intro store hroster henters
  rw [hops, Steps.along_append] at hadopts
  rcases ChannelStore.mem_step henters.2 with hold | hbrings
  · exact absurd hold henters.1
  · exact hbrings.signedByMember hadopts.2.1 hroster

/-- A post, and the same frame again from a sibling. -/
theorem entering_signed_sample :
    ChannelStore.SignedByMember sampleSuite
      (Steps.exec (ChannelStore.step sampleSuite) (.new sampleLedger 1000)
        [.setRoster false (sampleRoster sampleChannel 1 [sampleMember])])
      (samplePost [1] 2000) sampleChannel
      { serverRoot := Ledger.sampleKey 9, version := 1, members := [sampleMember].toFinset }
      { seq := 1, blob := [1], storedMs := 2000 } :=
  entering_signed_run sampleSuite sampleLedger 1000
    [.setRoster false (sampleRoster sampleChannel 1 [sampleMember]), samplePost [1] 2000,
      sampleGossip 1 [1] 3000]
    (by decide +kernel) [.setRoster false (sampleRoster sampleChannel 1 [sampleMember])]
    [sampleGossip 1 [1] 3000] (samplePost [1] 2000) rfl sampleChannel _ _ (by decide +kernel)
    ⟨by decide +kernel, by decide +kernel⟩

/-- A sibling's log goes into a channel with a roster, and no row of it is signed. -/
theorem adopted_unsigned :
    sampleStore.rosters.lookup sampleChannel =
        some { serverRoot := Ledger.sampleKey 9, version := 1,
               members := [sampleMember].toFinset } ∧
      sampleStore.Enters sampleSuite (.adopt sampleChannel [(1, [6])] 2000) sampleChannel
        { seq := 1, blob := [6], storedMs := 2000 } ∧
      ∀ roster, ¬ sampleStore.SignedByMember sampleSuite (.adopt sampleChannel [(1, [6])] 2000)
        sampleChannel roster { seq := 1, blob := [6], storedMs := 2000 } := by
  constructor
  · decide +kernel
  constructor
  · exact ⟨by decide +kernel, by decide +kernel⟩
  · rintro roster ⟨identity, sig, idk, hsignature, -⟩
    cases hsignature

namespace RosterUpdate

def roster (update : RosterUpdate) : ChannelRoster where
  serverRoot := update.serverRoot
  version := update.version
  members := update.members.toFinset

/-- The root key signed the update, and the list is not too long. -/
def Genuine (S : Suite) (update : RosterUpdate) : Prop :=
  update.members.length ≤ maxChannelRosterMembers ∧
    Verifies S update.serverRoot (channelRosterChallenge S update.channelId update.serverRoot
      update.version update.members).toList update.sig

instance (S : Suite) (update : RosterUpdate) : Decidable (update.Genuine S) :=
  inferInstanceAs (Decidable (_ ∧ _))

end RosterUpdate

namespace ChannelStore

variable {S : Suite} {store : ChannelStore}

/-- The update comes from the root that the channel is bound to and is newer than what is
held, or it is the channel's first and there is room for it. -/
def Supersedes (store : ChannelStore) (update : RosterUpdate) : Prop :=
  match store.rosters.lookup update.channelId with
  | some bound => bound.serverRoot = update.serverRoot ∧ bound.version < update.version
  | none => store.rosters.entries.length < maxChannelRosters

/-- An update is applied if it is genuine and supersedes what is held, and otherwise it changes
nothing. -/
theorem applyChannelRoster_cases (S : Suite) (store : ChannelStore) (update : RosterUpdate) :
    (update.Genuine S ∧ store.Supersedes update ∧
      (store.applyChannelRoster S update).2 =
        { store with rosters := store.rosters.insert update.channelId update.roster }) ∨
    (¬ (update.Genuine S ∧ store.Supersedes update) ∧
      (store.applyChannelRoster S update).2 = store) := by
  unfold applyChannelRoster Supersedes RosterUpdate.Genuine
  by_cases hsize : update.members.length > maxChannelRosterMembers
  · rw [if_pos hsize]
    exact Or.inr ⟨fun h => absurd h.1.1 (Nat.not_le.mpr hsize), rfl⟩
  rw [if_neg hsize]
  cases hlookup : store.rosters.lookup update.channelId with
  | some bound =>
    dsimp only
    by_cases hroot : bound.serverRoot = update.serverRoot
    · by_cases hversion : update.version ≤ bound.version
      · rw [if_neg (not_not.mpr hroot), if_pos hversion]
        exact Or.inr ⟨fun h => by have := h.2.2; grind, rfl⟩
      · rw [if_neg (not_not.mpr hroot), if_neg hversion, bindRoster]
        have hnewer : bound.version < update.version := by grind
        split
        · rename_i hforged
          exact Or.inr ⟨fun h => hforged h.1.2, rfl⟩
        · rename_i hsig
          exact Or.inl ⟨⟨Nat.not_lt.mp hsize, not_not.mp hsig⟩, ⟨hroot, hnewer⟩, rfl⟩
    · rw [if_pos hroot]
      exact Or.inr ⟨fun h => hroot h.2.1, rfl⟩
  | none =>
    dsimp only
    by_cases hfull : store.rosters.entries.length ≥ maxChannelRosters
    · rw [if_pos hfull]
      exact Or.inr ⟨fun h => absurd h.2 (Nat.not_lt.mpr hfull), rfl⟩
    · rw [if_neg hfull, bindRoster]
      split
      · rename_i hforged
        exact Or.inr ⟨fun h => hforged h.1.2, rfl⟩
      · rename_i hsig
        exact Or.inl ⟨⟨Nat.not_lt.mp hsize, not_not.mp hsig⟩, Nat.not_le.mp hfull, rfl⟩

/-- What a step makes of the roster of a channel: nothing, or a genuine update for the channel
takes its place. -/
theorem rosterStep (S : Suite) (store : ChannelStore) (op : ChannelOp) (channelId : Hash) :
    (store.step S op).rosters.lookup channelId = store.rosters.lookup channelId ∨
      ∃ update, op.rosterUpdate = some update ∧ update.channelId = channelId ∧
        update.Genuine S ∧ store.Supersedes update ∧
        (store.step S op).rosters.lookup channelId = some update.roster := by
  rw [(step_frame _ _ _).2]
  cases hupdate : op.rosterUpdate with
  | none => exact Or.inl rfl
  | some update =>
    rcases store.applyChannelRoster_cases S update with ⟨hgenuine, hsupersedes, heq⟩ | ⟨-, heq⟩
    · dsimp only
      rw [heq, AssocMap.lookup_insert]
      split
      · rename_i hchannel
        exact Or.inr ⟨update, rfl, hchannel.symm, hgenuine, hsupersedes, rfl⟩
      · exact Or.inl rfl
    · dsimp only
      rw [heq]
      exact Or.inl rfl

/-- A roster never changes its root, and it changes to a later version only. -/
theorem rosterStep_monotone (S : Suite) (store : ChannelStore) (op : ChannelOp)
    {channelId : Hash} {roster : ChannelRoster}
    (hroster : store.rosters.lookup channelId = some roster) :
    ∃ roster', (store.step S op).rosters.lookup channelId = some roster' ∧
      roster'.serverRoot = roster.serverRoot ∧
      (roster' = roster ∨ roster.version < roster'.version) := by
  rcases store.rosterStep S op channelId with hsame | ⟨update, -, rfl, -, hsupersedes, hnew⟩
  · exact ⟨roster, hsame.trans hroster, rfl, Or.inl rfl⟩
  · rw [Supersedes, hroster] at hsupersedes
    exact ⟨update.roster, hnew, hsupersedes.1.symm, Or.inr hsupersedes.2⟩

/-- The members that the store has for a channel are a list that the root signed for this
channel and version. -/
def Attested (S : Suite) (signed : Key → Bytes → Prop) (store : ChannelStore) : Prop :=
  ∀ channelId roster, store.rosters.lookup channelId = some roster →
    ∃ members : List Hash, roster.members = members.toFinset ∧
      signed roster.serverRoot
        (channelRosterChallenge S channelId roster.serverRoot roster.version members).toList

theorem Attested.step {signed : Key → Bytes → Prop}
    (hunforgeable : ∀ key msg sig, Verifies S key msg sig → signed key msg)
    (h : store.Attested S signed) (op : ChannelOp) : (store.step S op).Attested S signed := by
  intro channelId roster hroster
  rcases store.rosterStep S op channelId with hsame | ⟨update, -, rfl, hgenuine, -, hnew⟩
  · exact h channelId roster (hsame.symm.trans hroster)
  · cases hnew.symm.trans hroster
    exact ⟨update.members, rfl, hunforgeable _ _ _ hgenuine.2⟩

/-- The channel has one of the updates, none that has arrived is newer. -/
def Newest (store : ChannelStore) (channelId : Hash) (updates arrived : List RosterUpdate) :
    Prop :=
  ∃ newest ∈ updates, store.rosters.lookup channelId = some newest.roster ∧
    ∀ update ∈ updates, update ∈ arrived → update.version ≤ newest.version

variable {channelId : Hash} {serverRoot : Key} {updates arrived : List RosterUpdate}

section Convergence

variable (hupdates : ∀ update ∈ updates,
  update.channelId = channelId ∧ update.serverRoot = serverRoot ∧ update.Genuine S)

include hupdates

theorem Newest.step (h : store.Newest channelId updates arrived) {op : ChannelOp}
    (hop : ∀ update ∈ op.rosterUpdate, update.channelId = channelId →
      update.serverRoot = serverRoot → update.Genuine S → update ∈ updates) :
    (store.step S op).Newest channelId updates (arrived ++ op.rosterUpdate.toList) := by
  obtain ⟨newest, hnewest, hheld, hbound⟩ := h
  have hroot : newest.roster.serverRoot = serverRoot := (hupdates newest hnewest).2.1
  rw [Newest, (step_frame _ _ _).2]
  cases hupdate : op.rosterUpdate with
  | none => exact ⟨newest, hnewest, hheld, by simpa using hbound⟩
  | some update =>
    rw [Option.toList_some]
    rcases store.applyChannelRoster_cases S update with
      ⟨hgenuine, hsupersedes, heq⟩ | ⟨hrefused, heq⟩
    · dsimp only
      rw [heq]
      by_cases hchannel : update.channelId = channelId
      · -- the newer update of the same root takes the place
        rw [Supersedes, hchannel, hheld] at hsupersedes
        have hmem : update ∈ updates :=
          hop update hupdate hchannel (hsupersedes.1.symm.trans hroot) hgenuine
        refine ⟨update, hmem, by rw [hchannel, AList.lookup_insert], ?_⟩
        intro other hother harrived
        have hnewer : newest.version < update.version := hsupersedes.2
        rcases List.mem_append.mp harrived with hold | hlast
        · have hle := hbound other hother hold
          grind
        · rw [List.mem_singleton.mp hlast]
          grind
      · refine ⟨newest, hnewest, ?_, ?_⟩
        · rw [AList.lookup_insert_ne (Ne.symm hchannel)]
          exact hheld
        · intro other hother harrived
          rcases List.mem_append.mp harrived with hold | hlast
          · exact hbound other hother hold
          · rw [List.mem_singleton.mp hlast] at hother
            exact absurd (hupdates update hother).1 hchannel
    · dsimp only
      rw [heq]
      refine ⟨newest, hnewest, hheld, ?_⟩
      intro other hother harrived
      rcases List.mem_append.mp harrived with hold | hlast
      · exact hbound other hother hold
      · rw [List.mem_singleton.mp hlast] at hother ⊢
        -- a refused update of the set is not newer than what is held
        by_contra hnewer
        obtain ⟨hchannel, hsame, hgenuine⟩ := hupdates update hother
        apply hrefused
        refine ⟨hgenuine, ?_⟩
        rw [Supersedes, hchannel, hheld]
        exact ⟨hroot.trans hsame.symm, by
          have hlt : newest.version < update.version := by grind
          exact hlt⟩

theorem Newest.run (h : store.Newest channelId updates arrived) (ops : List ChannelOp)
    (hops : ∀ op ∈ ops, ∀ update ∈ op.rosterUpdate, update.channelId = channelId →
      update.serverRoot = serverRoot → update.Genuine S → update ∈ updates) :
    (Steps.exec (ChannelStore.step S) store ops).Newest channelId updates
      (arrived ++ ops.filterMap ChannelOp.rosterUpdate) := by
  induction ops generalizing store arrived with
  | nil =>
    rw [List.filterMap_nil, List.append_nil]
    exact h
  | cons op rest ih =>
    have hfirst := h.step hupdates (hops op List.mem_cons_self)
    have hrest := ih hfirst fun other hother => hops other (List.mem_cons_of_mem _ hother)
    have harrived : arrived ++ op.rosterUpdate.toList ++ rest.filterMap ChannelOp.rosterUpdate =
        arrived ++ (op :: rest).filterMap ChannelOp.rosterUpdate := by
      cases hupdate : op.rosterUpdate <;> simp [hupdate]
    rw [harrived] at hrest
    exact hrest

/-- The first update binds the channel. -/
theorem newest_first (hunbound : store.rosters.lookup channelId = none)
    (hroom : store.rosters.entries.length < maxChannelRosters) {op : ChannelOp}
    {update : RosterUpdate} (hop : op.rosterUpdate = some update) (hmem : update ∈ updates) :
    (store.step S op).Newest channelId updates [update] := by
  obtain ⟨rfl, -, hgenuine⟩ := hupdates update hmem
  have hsupersedes : store.Supersedes update := by
    rw [Supersedes, hunbound]
    exact hroom
  refine ⟨update, hmem, ?_, ?_⟩
  · rw [(step_frame _ _ _).2, hop]
    dsimp only
    rcases store.applyChannelRoster_cases S update with ⟨-, -, heq⟩ | ⟨hrefused, -⟩
    · rw [heq, AList.lookup_insert]
    · exact absurd ⟨hgenuine, hsupersedes⟩ hrefused
  · intro other _ harrived
    rw [List.mem_singleton.mp harrived]
    grind

end Convergence

/-- Once every update has arrived, the channel has the newest. -/
theorem Newest.eq_greatest (h : store.Newest channelId updates arrived)
    (hdistinct : ∀ u ∈ updates, ∀ v ∈ updates, u.version = v.version → u = v)
    (harrived : ∀ update ∈ updates, update ∈ arrived) {greatest : RosterUpdate}
    (hmem : greatest ∈ updates) (hgreatest : ∀ u ∈ updates, u.version ≤ greatest.version) :
    store.rosters.lookup channelId = some greatest.roster := by
  obtain ⟨newest, hnewest, hheld, hbound⟩ := h
  have hle := hbound greatest hmem (harrived greatest hmem)
  have hge := hgreatest newest hnewest
  have hsame : newest = greatest := hdistinct newest hnewest greatest hmem (by grind)
  rw [hheld, hsame]

end ChannelStore

/-- In every run a channel keeps the root it is bound to, changes its roster to later versions
only, and has members that the root signed. Once the updates of one root have reached a channel
without a roster, each at least once and in any order, the channel has the latest of them; whatever
else happens after the first one makes no difference. -/
theorem rosters_converge (S : Suite) (signed : Key → Bytes → Prop)
    (hunforgeable : ∀ key msg sig, Verifies S key msg sig → signed key msg) :
    (∀ (ledger : Ledger) (cap : Nat) (ops : List ChannelOp),
      let store := Steps.exec (ChannelStore.step S) (.new ledger cap) ops
      store.Attested S signed ∧
        ∀ op channelId roster, store.rosters.lookup channelId = some roster →
          ∃ roster', (store.step S op).rosters.lookup channelId = some roster' ∧
            roster'.serverRoot = roster.serverRoot ∧
            (roster' = roster ∨ roster.version < roster'.version)) ∧
    ∀ (store : ChannelStore) (channelId : Hash) (serverRoot : Key) (updates : List RosterUpdate)
      (first : ChannelOp) (rest : List ChannelOp) (greatest : RosterUpdate),
      (∀ update ∈ updates,
        update.channelId = channelId ∧ update.serverRoot = serverRoot ∧ update.Genuine S) →
      (∀ u ∈ updates, ∀ v ∈ updates, u.version = v.version → u = v) →
      store.rosters.lookup channelId = none →
      store.rosters.entries.length < maxChannelRosters →
      (∃ update ∈ updates, first.rosterUpdate = some update) →
      (∀ op ∈ rest, ∀ update ∈ op.rosterUpdate, update.channelId = channelId →
        update.serverRoot = serverRoot → update.Genuine S → update ∈ updates) →
      (∀ update ∈ updates, ∃ op ∈ first :: rest, op.rosterUpdate = some update) →
      greatest ∈ updates → (∀ update ∈ updates, update.version ≤ greatest.version) →
      (Steps.exec (ChannelStore.step S) store (first :: rest)).rosters.lookup channelId =
        some greatest.roster := by
  constructor
  · intro ledger cap ops store
    have hattested : store.Attested S signed :=
      Steps.exec_invariant (ChannelStore.Attested S signed)
        (fun store op h _ => h.step hunforgeable op)
        (fun channelId roster hroster => by cases hroster)
        (Steps.along_of_forall (p := fun _ => True) fun _ _ => trivial)
    exact ⟨hattested, fun op channelId roster hroster => store.rosterStep_monotone S op hroster⟩
  · intro store channelId serverRoot updates first rest greatest hupdates hdistinct hunbound hroom
      hfirst hrest hall hmem hgreatest
    obtain ⟨update, hupdate, hop⟩ := hfirst
    have hbound := ChannelStore.newest_first hupdates hunbound hroom hop hupdate
    rw [Steps.exec_cons]
    apply (hbound.run hupdates rest hrest).eq_greatest hdistinct _ hmem hgreatest
    intro other hother
    obtain ⟨op, hmemOp, hdelivers⟩ := hall other hother
    rcases List.mem_cons.mp hmemOp with rfl | hlater
    · rw [hop] at hdelivers
      cases hdelivers
      exact List.mem_append_left _ List.mem_cons_self
    · exact List.mem_append_right _ (List.mem_filterMap.mpr ⟨op, hlater, hdelivers⟩)

/-- Two versions in the wrong order, an older one again, and another root's roster between
them. -/
theorem rosters_converge_sample :
    (Steps.exec (ChannelStore.step sampleSuite) (.new sampleLedger 1000)
      [.gossipRoster (sampleRoster sampleChannel 2 []),
        .setRoster false (sampleRoster sampleChannel 1 [sampleMember]),
        .gossipRoster { sampleRoster sampleChannel 3 [] with serverRoot := Ledger.sampleKey 8 },
        .gossipRoster (sampleRoster sampleChannel 2 [])]).rosters.lookup sampleChannel =
      some (sampleRoster sampleChannel 2 []).roster :=
  (rosters_converge sampleSuite (fun key msg => ∃ sig, Verifies sampleSuite key msg sig)
    fun _ _ sig hsig => ⟨sig, hsig⟩).2 _ sampleChannel (Ledger.sampleKey 9)
    [sampleRoster sampleChannel 1 [sampleMember], sampleRoster sampleChannel 2 []] _ _ _
    (by decide +kernel) (by decide +kernel) (by decide +kernel) (by decide +kernel)
    (by decide +kernel) (by decide +kernel) (by decide +kernel) (by decide +kernel)
    (by decide +kernel)

end Dante.Relay
