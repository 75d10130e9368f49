import Dante.Core.ChannelReading
import Dante.Core.Removals

/-!
The epochs of a channel's group. The host merges a commit before it is published, and a member
learns of it from the channel's log, and from nowhere else. So a commit that does not reach the log
leaves every member behind for good.

MLS is assumed correct: a member who processes the host's commits in order, among whatever else is
in the log, follows the host's epochs.
-/

namespace Dante.Core

open Crypto Dm

/-- What is assumed of MLS for the commits of one host. -/
structure Groups.Tracking (G : Groups) (hostId : Hash) where
  epoch : G.Member → Nat
  /-- The epoch in which the host made a commit; other messages have none. -/
  madeAt : Bytes → Option Nat
  /-- The host, and a member of the same group and epoch with this leaf. -/
  inStep : G.Member → UInt32 → G.Member → Prop
  epoch_eq : ∀ {host member : G.Member} {leaf : UInt32},
    inStep host leaf member → epoch member = epoch host
  add_ok : ∀ {host host' : G.Member} {kp identity : Bytes} {key : Key} {handshake : Handshake},
    G.keyPackageIdentity host kp = .ok (identity, key) → G.add host kp = (.ok handshake, host') →
      handshake.welcome.isSome = true ∧
        ∀ {leaf : UInt32} {member : G.Member} {accepts : Bytes → Key → Bool},
          inStep host leaf member → accepts identity key = true →
            inStep host' leaf (G.processFrom member handshake.commit hostId accepts).2
  add_error : ∀ {host host' : G.Member} {kp : Bytes} {e : String},
    G.add host kp = (.error e, host') → ∀ {leaf : UInt32} {member : G.Member},
      inStep host leaf member → inStep host' leaf member
  remove_ok : ∀ {host host' : G.Member} {gone : UInt32} {handshake : Handshake},
    G.remove host gone = (.ok handshake, host') →
      ∀ {leaf : UInt32} {member : G.Member} {accepts : Bytes → Key → Bool},
        inStep host leaf member → leaf ≠ gone →
          inStep host' leaf (G.processFrom member handshake.commit hostId accepts).2
  remove_error : ∀ {host host' : G.Member} {gone : UInt32} {e : String},
    G.remove host gone = (.error e, host') → ∀ {leaf : UInt32} {member : G.Member},
      inStep host leaf member → inStep host' leaf member
  /-- What is not the host's commit of the present epoch moves nobody. -/
  other : ∀ {host member : G.Member} {leaf : UInt32} {payload : Bytes}
    {accepts : Bytes → Key → Bool}, inStep host leaf member → madeAt payload ≠ some (epoch host) →
      inStep host leaf (G.processFrom member payload hostId accepts).2

/-- Reading a log: each entry with the state that the member's engine has then. -/
abbrev LogReading (M : Mls) := List (ChannelEngine M × LogEntry)

def ChannelSession.read (P : Primitives) (S : Suite) {M : Mls} (channelId : ChannelId)
    (ch : ChannelSession M) (reads : LogReading M) : ChannelSession M :=
  reads.foldl (fun ch read => (read.1.openEntry P S channelId ch read.2).1) ch

/-- The entries are these frames in the order of the log, from the relay, and the member's
ledgers in the meantime are among `ledgers`. -/
def LogReading.Of {M : Mls} (reads : LogReading M) (ledgers : List Ledger) (frames : List Bytes) :
    Prop :=
  (reads.map fun read => read.2.blob) = frames ∧
    ∀ read ∈ reads, read.2.fromRelay = true ∧ read.1.ledger ∈ ledgers

/-- A host's operation, or a frame that somebody else posts. -/
inductive LogOp where
  | host (op : HostOp)
  | frame (channelId : ChannelId) (blob : Bytes)

section Frames

variable {P : Primitives} {S : Suite} {M : Mls} {channelId : ChannelId}

theorem payloadOf_wrapChannelFrame (hP : Honest P) (logKey : Option Key) (tag : UInt8)
    (payload : Bytes) (nonce : ByteArr 24) :
    payloadOf P logKey channelId (wrapChannelFrame P logKey channelId tag payload nonce) =
      some payload := by
  cases logKey with
  | none => rfl
  | some key =>
    have htake : (nonce.toList ++ P.xchachaSeal key nonce (tag :: payload)
        channelId.toList).take 24 = nonce.toList := by
      rw [List.take_left' nonce.length_toList]
    have hdrop : (nonce.toList ++ P.xchachaSeal key nonce (tag :: payload)
        channelId.toList).drop 24 = P.xchachaSeal key nonce (tag :: payload) channelId.toList := by
      rw [List.drop_left' nonce.length_toList]
    have hlen : 24 ≤ (nonce.toList ++ P.xchachaSeal key nonce (tag :: payload)
        channelId.toList).length := by
      rw [List.length_append, nonce.length_toList]
      omega
    simp only [payloadOf, wrapChannelFrame, unwrap, dif_pos hlen, htake, hdrop]
    have hnonce : ByteArr.ofList nonce.toList nonce.length_toList = nonce :=
      ByteArr.toList_injective (ByteArr.toList_ofList _ _)
    rw [hnonce, hP.open_seal]
    rfl

theorem openPayload_mls (engine : ChannelEngine M) (ch : ChannelSession M) (payload : Bytes) :
    (engine.openPayload S ch payload).1.mls = (M.processFrom ch.mls payload ch.info.hostId
      (ledgerAcceptsBinding S engine.ledger)).2 := by
  rw [ChannelEngine.openPayload]
  rcases M.processFrom ch.mls payload ch.info.hostId (ledgerAcceptsBinding S engine.ledger) with
    ⟨result, mls⟩
  cases result with
  | error e => rfl
  | ok processed => cases processed <;> rfl

theorem openEntry_mls (engine : ChannelEngine M) (ch : ChannelSession M) {entry : LogEntry}
    (hrelay : entry.fromRelay = true) :
    (engine.openEntry P S channelId ch entry).1.mls =
      match payloadOf P ch.logKey channelId entry.blob with
      | none => ch.mls
      | some payload => (M.processFrom ch.mls payload ch.info.hostId
          (ledgerAcceptsBinding S engine.ledger)).2 := by
  rw [ChannelEngine.openEntry, if_neg (by simp [hrelay])]
  dsimp only
  cases payloadOf P ch.logKey channelId entry.blob with
  | none => rfl
  | some payload => exact openPayload_mls engine _ payload

end Frames

section Reading

variable {P : Primitives} {S : Suite} {M : Mls} {channelId : ChannelId} {ch : ChannelSession M}

theorem ChannelSession.read_snoc (reads : LogReading M) (engine : ChannelEngine M)
    (entry : LogEntry) :
    ch.read P S channelId (reads ++ [(engine, entry)]) =
      (engine.openEntry P S channelId (ch.read P S channelId reads) entry).1 := by
  rw [ChannelSession.read, List.foldl_append]
  rfl

theorem ChannelSession.read_session (reads : LogReading M) :
    (ch.read P S channelId reads).info = ch.info ∧
      (ch.read P S channelId reads).logKey = ch.logKey := by
  induction reads using List.reverseRecOn with
  | nil => exact ⟨rfl, rfl⟩
  | append_singleton reads read ih =>
    obtain ⟨engine, entry⟩ := read
    obtain ⟨hinfo, hkey⟩ := ChannelEngine.openEntry_session P S engine channelId
      (ch.read P S channelId reads) entry
    rw [read_snoc]
    exact ⟨hinfo.trans ih.1, hkey.trans ih.2⟩

theorem LogReading.Of.snoc {reads : LogReading M} {ledgers : List Ledger} {frames : List Bytes}
    {frame : Bytes} (hreads : reads.Of ledgers (frames ++ [frame])) :
    ∃ (before : LogReading M) (engine : ChannelEngine M) (entry : LogEntry),
      reads = before ++ [(engine, entry)] ∧ before.Of ledgers frames ∧ entry.blob = frame ∧
        entry.fromRelay = true ∧ engine.ledger ∈ ledgers := by
  obtain ⟨hblobs, hall⟩ := hreads
  obtain ⟨before, last, rfl, hbefore, hlast⟩ := List.map_eq_append_iff.mp hblobs
  obtain ⟨read, rfl, hblob⟩ : ∃ read, last = [read] ∧ read.2.blob = frame := by
    match last, hlast with
    | [read], hsingle => exact ⟨read, rfl, (List.cons.inj hsingle).1⟩
  have hread := hall read (List.mem_append_right _ (List.mem_singleton.mpr rfl))
  exact ⟨before, read.1, read.2, rfl,
    ⟨hbefore, fun other hother => hall other (List.mem_append_left _ hother)⟩, hblob, hread⟩

theorem ChannelSession.read_snoc_mls (reads : LogReading M) (engine : ChannelEngine M)
    {entry : LogEntry} (hrelay : entry.fromRelay = true) :
    (ch.read P S channelId (reads ++ [(engine, entry)])).mls =
      match payloadOf P ch.logKey channelId entry.blob with
      | none => (ch.read P S channelId reads).mls
      | some payload => (M.processFrom (ch.read P S channelId reads).mls payload ch.info.hostId
          (ledgerAcceptsBinding S engine.ledger)).2 := by
  have hsession : (ch.read P S channelId reads).info = ch.info ∧
      (ch.read P S channelId reads).logKey = ch.logKey := read_session reads
  obtain ⟨hinfo, hkey⟩ := hsession
  rw [read_snoc, openEntry_mls engine _ hrelay, hkey, hinfo]

end Reading

namespace Hosting

variable (P : Primitives) (S : Suite) {G : Groups} {hostId : Hash} (T : G.Tracking hostId)

def stepLog (h : Hosting G) : LogOp → Hosting G
  | .host op => h.step P S op
  | .frame channelId blob => (h.postChannelFrame channelId blob .done).2

/-- Every commit of the channel gets into its log: additions reach the log, removals reach the
relay's roster and the log. And whoever is added has a binding that the members' ledgers
accept. -/
def Published (channelId : ChannelId) (ledgers : List Ledger) (h : Hosting G) (op : LogOp) : Prop :=
  match op with
  | .host op =>
    (∀ peerId calls, h.joining S op = some (channelId, peerId, calls) →
      calls.post.effective = true ∧ ∀ mls kp key, h.groupOf channelId = some mls →
        calls.keyPackage = some (some kp) →
        G.keyPackageIdentity mls kp = .ok (peerId.toList, key) →
        ∀ ledger ∈ ledgers, ledgerAcceptsBinding S ledger peerId.toList key = true) ∧
    ∀ member calls, op.removing S channelId = some (member, calls) →
      calls.roster = .done ∧ calls.post.effective = true
  | .frame _ _ => True

/-- The message in a frame is not the commit that the host is still to make in its present
epoch. -/
def NotAhead (channelId : ChannelId) (logKey : Option Key) (h : Hosting G) (blob : Bytes) : Prop :=
  ∀ mls payload, h.groupOf channelId = some mls →
    payloadOf P logKey channelId blob = some payload → T.madeAt payload ≠ some (T.epoch mls)

/-- Nobody else posts a commit of the host before the host has made it. -/
def Unforged (channelId : ChannelId) (logKey : Option Key) (h : Hosting G) (op : LogOp) : Prop :=
  match op with
  | .host _ => True
  | .frame other blob => other = channelId → h.NotAhead P T channelId logKey blob

/-- A member who has joined the channel: its session belongs to the host's group, and what it
has yet to read of the log is older than its membership. -/
structure Joined (channelId : ChannelId) (own : UInt32) (seen : Nat) (member : ChannelSession G.toMls)
    (h : Hosting G) : Prop where
  host : member.info.hostId = hostId
  key : (h.channels.lookup channelId).map ChannelSession.logKey = some member.logKey
  inStep : ∃ mls, h.groupOf channelId = some mls ∧ T.inStep mls own member.mls
  seen_le : seen ≤ (h.log channelId).length
  past : ∀ blob ∈ (h.log channelId).drop seen, h.NotAhead P T channelId member.logKey blob

/-- Whoever reads the whole log is in step with the host. -/
structure Follows (channelId : ChannelId) (own : UInt32) (seen : Nat) (ledgers : List Ledger)
    (member : ChannelSession G.toMls) (h : Hosting G) : Prop where
  host : member.info.hostId = hostId
  key : (h.channels.lookup channelId).map ChannelSession.logKey = some member.logKey
  seen_le : seen ≤ (h.log channelId).length
  inStep : ∃ mls, h.groupOf channelId = some mls ∧
    ∀ reads : LogReading G.toMls, reads.Of ledgers ((h.log channelId).drop seen) →
      T.inStep mls own (member.read P S channelId reads).mls

variable {P S T} {h h' : Hosting G} {channelId : ChannelId} {own : UInt32} {seen : Nat}
  {ledgers : List Ledger} {member : ChannelSession G.toMls}

theorem inStep_snoc {mls : G.Member} (hhost : member.info.hostId = hostId)
    {reads : LogReading G.toMls} {engine : ChannelEngine G.toMls} {entry : LogEntry}
    (hrelay : entry.fromRelay = true) (hgroup : h.groupOf channelId = some mls)
    (hahead : h.NotAhead P T channelId member.logKey entry.blob)
    (hstep : T.inStep mls own (member.read P S channelId reads).mls) :
    T.inStep mls own (member.read P S channelId (reads ++ [(engine, entry)])).mls := by
  rw [ChannelSession.read_snoc_mls reads engine hrelay, hhost]
  cases hpayload : payloadOf P member.logKey channelId entry.blob with
  | none => exact hstep
  | some payload => exact T.other hstep (hahead mls payload hgroup hpayload)

theorem Joined.follows (hjoined : h.Joined P T channelId own seen member) :
    h.Follows P S T channelId own seen ledgers member := by
  obtain ⟨mls, hgroup, hstep⟩ := hjoined.inStep
  refine ⟨hjoined.host, hjoined.key, hjoined.seen_le, mls, hgroup, ?_⟩
  -- by induction over what is left to read: none of it is ahead
  have hpast := hjoined.past
  generalize (h.log channelId).drop seen = frames at hpast
  intro reads
  induction frames using List.reverseRecOn generalizing reads with
  | nil =>
    rintro ⟨hblobs, -⟩
    rw [List.map_eq_nil_iff.mp hblobs]
    exact hstep
  | append_singleton frames frame ih =>
    intro hreads
    obtain ⟨before, engine, entry, rfl, hbefore, rfl, hrelay, -⟩ := hreads.snoc
    exact inStep_snoc hjoined.host hrelay hgroup
      (hpast entry.blob (List.mem_append_right _ (List.mem_singleton.mpr rfl)))
      (ih (fun blob hblob => hpast blob (List.mem_append_left _ hblob)) before hbefore)

section Changes

variable {other : ChannelId} {peerId : Hash} {nowMs : UInt64} {result : Except HostError Unit}
variable {calls : RemoveCalls}

theorem groupOf_other_of_add {calls : AddCalls}
    (outcome : AddOutcome P S h other peerId nowMs calls result h') (hne : channelId ≠ other) :
    h'.groupOf channelId = h.groupOf channelId := by
  rcases outcome.groups with rfl | ⟨_, _, _, -, -, hgroups⟩
  · rfl
  · rw [hgroups, if_neg hne]

theorem groupOf_other_of_remove (outcome : RemoveOutcome P h other peerId nowMs calls result h')
    (hne : channelId ≠ other) : h'.groupOf channelId = h.groupOf channelId := by
  rcases outcome.groups with rfl | ⟨_, _, -, -, -, hgroups⟩
  · rfl
  · rw [hgroups, if_neg hne]

/-- What an addition can do to its channel: nothing, an attempt that the group refuses, or a
commit, which is in the log if its post arrives. -/
theorem AddOutcome.channel {calls : AddCalls}
    (outcome : AddOutcome P S h channelId peerId nowMs calls result h') :
    h' = h ∨ ∃ ch kp key, h.channels.lookup channelId = some ch ∧
      calls.keyPackage = some (some kp) ∧
      G.keyPackageIdentity ch.mls kp = .ok (peerId.toList, key) ∧
      h'.groupOf channelId = some (G.add ch.mls kp).2 ∧
      ((∃ e, (G.add ch.mls kp).1 = .error e ∧ h'.log channelId = h.log channelId) ∨
        ∃ handshake, (G.add ch.mls kp).1 = .ok handshake ∧ (handshake.welcome = none ∨
          h'.log channelId = if calls.post.effective = true then h.log channelId ++
            [wrapChannelFrame P ch.logKey channelId frameCommit handshake.commit calls.nonce]
          else h.log channelId)) := by
  have hsession (ch : ChannelSession G.toMls) :
      (h.withSession channelId ch).groupOf channelId = some ch.mls :=
    (groupOf_withSession channelId channelId ch).trans (if_pos rfl)
  cases outcome with
  | refused check => exact .inl rfl
  | failed check add =>
    obtain ⟨hlookup, -, hkp, key, hidentity⟩ := checkAdd_eq_ok check
    exact .inr ⟨_, _, key, hlookup, hkp, hidentity, by rw [hsession, add], .inl ⟨_, by rw [add], rfl⟩⟩
  | unwelcome check add welcome =>
    obtain ⟨hlookup, -, hkp, key, hidentity⟩ := checkAdd_eq_ok check
    exact .inr ⟨_, _, key, hlookup, hkp, hidentity, by rw [hsession, add],
      .inr ⟨_, by rw [add], .inl welcome⟩⟩
  | added check add welcomed =>
    obtain ⟨hlookup, -, hkp, key, hidentity⟩ := checkAdd_eq_ok check
    refine .inr ⟨_, _, key, hlookup, hkp, hidentity, ?_, .inr ⟨_, by rw [add], .inr ?_⟩⟩
    · rw [groupOf_congr (publishAdd_atRelay channelId _ _ nowMs calls).channels, hsession, add]
      rfl
    · rw [log_publishAdd]
      simp only [true_and]
      rfl

theorem RemoveOutcome.channel (outcome : RemoveOutcome P h channelId peerId nowMs calls result h')
    (hroster : calls.roster = .done) :
    h' = h ∨ ∃ ch leaf, h.channels.lookup channelId = some ch ∧
      h'.groupOf channelId = some (G.remove ch.mls leaf).2 ∧
      ((∃ e, (G.remove ch.mls leaf).1 = .error e ∧ h'.log channelId = h.log channelId) ∨
        ∃ handshake, (G.remove ch.mls leaf).1 = .ok handshake ∧
          ⟨channelId, peerId, leaf, handshake.commit⟩ ∈ h'.removals ∧
          h'.log channelId = if calls.post.effective = true then h.log channelId ++
            [wrapChannelFrame P ch.logKey channelId frameCommit handshake.commit calls.nonce]
          else h.log channelId) := by
  cases outcome with
  | refused check => exact .inl rfl
  | absent check => exact .inl rfl
  | failed check remove =>
    obtain ⟨-, hlookup, -, -⟩ := checkRemoval_eq_ok check
    refine .inr ⟨_, _, hlookup, ?_, .inl ⟨_, by rw [remove], rfl⟩⟩
    rw [groupOf_withSession, if_pos rfl, remove]
  | @removed ch leaf mls handshake merged check remove merge =>
    obtain ⟨-, hlookup, hhosts, -⟩ := checkRemoval_eq_ok check
    obtain ⟨hchannel, hsame⟩ := lookup_merged merge
    obtain ⟨-, hlogs⟩ := publishRemoval_done (P := P) hchannel ((hsame _).trans hhosts) ch.logKey
      handshake.commit nowMs hroster
    refine .inr ⟨ch, leaf, hlookup, ?_, .inr ⟨handshake, by rw [remove], ?_, ?_⟩⟩
    · rw [groupOf_congr (publishRemoval_atRelay channelId _ _ nowMs calls).channels,
        groupOf_of_lookup hchannel, remove]
      rfl
    · rw [(publishRemoval_atRelay channelId _ _ nowMs calls).removals, merge]
      exact List.mem_append_right _ (List.mem_singleton.mpr rfl)
    · rw [hlogs, merge]
      simp only [true_and]
      rfl

end Changes

section Follows

variable (hfollows : h.Follows P S T channelId own seen ledgers member)

include hfollows

/-- Nothing new in the log, and the host still in the same epoch. -/
theorem Follows.still
    (hgroup : ∀ mls, h.groupOf channelId = some mls → ∃ mls', h'.groupOf channelId = some mls' ∧
      ∀ other, T.inStep mls own other → T.inStep mls' own other)
    (hkey : (h'.channels.lookup channelId).map ChannelSession.logKey =
      (h.channels.lookup channelId).map ChannelSession.logKey)
    (hlog : h'.log channelId = h.log channelId) :
    h'.Follows P S T channelId own seen ledgers member := by
  obtain ⟨mls, hold, hstep⟩ := hfollows.inStep
  obtain ⟨mls', hnew, hkeeps⟩ := hgroup mls hold
  refine ⟨hfollows.host, hkey.trans hfollows.key, ?_, mls', hnew, ?_⟩
  · rw [hlog]
    exact hfollows.seen_le
  · intro reads hreads
    rw [hlog] at hreads
    exact hkeeps _ (hstep reads hreads)

/-- A commit of the host that is in the log takes every reader along. -/
theorem Follows.commit (hP : Honest P) {mls mls' : G.Member} {commit : Bytes}
    {nonce : ByteArr 24} (hold : h.groupOf channelId = some mls)
    (hnew : h'.groupOf channelId = some mls')
    (hkey : (h'.channels.lookup channelId).map ChannelSession.logKey =
      (h.channels.lookup channelId).map ChannelSession.logKey)
    (hlog : h'.log channelId = h.log channelId ++
      [wrapChannelFrame P member.logKey channelId frameCommit commit nonce])
    (hcommit : ∀ other, ∀ ledger ∈ ledgers, T.inStep mls own other → T.inStep mls' own
      (G.processFrom other commit hostId (ledgerAcceptsBinding S ledger)).2) :
    h'.Follows P S T channelId own seen ledgers member := by
  obtain ⟨found, hfound, hstep⟩ := hfollows.inStep
  obtain rfl := Option.some.inj (hfound.symm.trans hold)
  refine ⟨hfollows.host, hkey.trans hfollows.key, ?_, mls', hnew, ?_⟩
  · rw [hlog, List.length_append]
    exact hfollows.seen_le.trans (Nat.le_add_right _ _)
  · intro reads hreads
    rw [hlog, List.drop_append_of_le_length hfollows.seen_le] at hreads
    obtain ⟨before, engine, entry, rfl, hbefore, hblob, hrelay, hledger⟩ := hreads.snoc
    rw [ChannelSession.read_snoc_mls before engine hrelay, hblob,
      payloadOf_wrapChannelFrame hP, hfollows.host]
    exact hcommit _ engine.ledger hledger (hstep before hbefore)

theorem Follows.aside (same : SameGroups h h') :
    h'.Follows P S T channelId own seen ledgers member := by
  refine hfollows.still ?_ (same.logsGrow.keys channelId) ?_
  · intro mls hgroup
    exact ⟨mls, (same.groupOf channelId).trans hgroup, fun _ hstep => hstep⟩
  · rw [log, log, same.logs]

theorem Follows.frame {other : ChannelId} {blob : Bytes}
    (hahead : other = channelId → h.NotAhead P T channelId member.logKey blob) :
    (h.postChannelFrame other blob .done).2.Follows P S T channelId own seen ledgers member := by
  have hlog := log_postChannelFrame (h := h) other channelId blob .done
  by_cases hother : other = channelId
  · rw [hother, if_pos ⟨rfl, rfl⟩] at hlog
    obtain ⟨mls, hgroup, hstep⟩ := hfollows.inStep
    rw [hother]
    refine ⟨hfollows.host, hfollows.key, ?_, mls, hgroup, ?_⟩
    · rw [hlog, List.length_append]
      exact hfollows.seen_le.trans (Nat.le_add_right _ _)
    · intro reads hreads
      rw [hlog, List.drop_append_of_le_length hfollows.seen_le] at hreads
      obtain ⟨before, engine, entry, rfl, hbefore, rfl, hrelay, -⟩ := hreads.snoc
      exact inStep_snoc hfollows.host hrelay hgroup (hahead hother) (hstep before hbefore)
  · rw [if_neg (fun h => hother h.1.symm)] at hlog
    exact hfollows.still (fun mls hgroup => ⟨mls, hgroup, fun _ hstep => hstep⟩) rfl hlog

variable {other : ChannelId} {peerId : Hash} {nowMs : UInt64} {result : Except HostError Unit}

theorem Follows.elsewhere (hgroup : h'.groupOf channelId = h.groupOf channelId)
    (hgrow : LogsGrow h h') (hlog : h'.log channelId = h.log channelId) :
    h'.Follows P S T channelId own seen ledgers member :=
  hfollows.still (fun mls hold => ⟨mls, hgroup.trans hold, fun _ hstep => hstep⟩)
    (hgrow.keys channelId) hlog

/-- The key of the host's session is the member's. -/
theorem Follows.logKey_eq {ch : ChannelSession G.toMls}
    (hlookup : h.channels.lookup channelId = some ch) : ch.logKey = member.logKey := by
  have hkey := hfollows.key
  rw [hlookup] at hkey
  exact Option.some.inj hkey

theorem Follows.add (hP : Honest P) {calls : AddCalls}
    (outcome : AddOutcome P S h other peerId nowMs calls result h')
    (hpublished : other = channelId → calls.post.effective = true ∧
      ∀ mls kp key, h.groupOf channelId = some mls → calls.keyPackage = some (some kp) →
        G.keyPackageIdentity mls kp = .ok (peerId.toList, key) →
        ∀ ledger ∈ ledgers, ledgerAcceptsBinding S ledger peerId.toList key = true) :
    h'.Follows P S T channelId own seen ledgers member := by
  by_cases hother : channelId = other
  · subst hother
    obtain ⟨hpost, haccept⟩ := hpublished rfl
    have hkeys := outcome.logsGrow.keys channelId
    rcases outcome.channel with rfl | ⟨ch, kp, key, hlookup, hkp, hidentity, hnew, hresult⟩
    · exact hfollows
    · have hold := groupOf_of_lookup hlookup
      rcases hadd : G.add ch.mls kp with ⟨added, mls⟩
      rw [hadd] at hnew hresult
      rcases hresult with ⟨e, rfl, hlog⟩ | ⟨handshake, rfl, hwelcome | hlog⟩
      · refine hfollows.still ?_ hkeys hlog
        intro mls' hgroup
        obtain rfl := Option.some.inj (hold.symm.trans hgroup)
        exact ⟨mls, hnew, fun _ hstep => T.add_error hadd hstep⟩
      · have hsome := (T.add_ok hidentity hadd).1
        rw [hwelcome] at hsome
        cases hsome
      · rw [if_pos hpost, hfollows.logKey_eq hlookup] at hlog
        refine hfollows.commit hP hold hnew hkeys hlog ?_
        intro other ledger hledger hstep
        exact (T.add_ok hidentity hadd).2 hstep
          (haccept ch.mls kp key hold hkp hidentity ledger hledger)
  · exact hfollows.elsewhere (groupOf_other_of_add outcome hother) outcome.logsGrow
      ((outcome.log_cases channelId).resolve_right fun hhere => hother hhere.1)

theorem Follows.remove (hP : Honest P) {calls : RemoveCalls}
    (outcome : RemoveOutcome P h other peerId nowMs calls result h')
    (hpublished : other = channelId → calls.roster = .done ∧ calls.post.effective = true)
    (hremains : ∀ removal ∈ h'.removals, removal.channelId = channelId → removal.leaf ≠ own) :
    h'.Follows P S T channelId own seen ledgers member := by
  by_cases hother : channelId = other
  · subst hother
    obtain ⟨hroster, hpost⟩ := hpublished rfl
    have hkeys := outcome.logsGrow.keys channelId
    rcases outcome.channel hroster with rfl | ⟨ch, leaf, hlookup, hnew, hresult⟩
    · exact hfollows
    · have hold := groupOf_of_lookup hlookup
      rcases hremove : G.remove ch.mls leaf with ⟨removed, mls⟩
      rw [hremove] at hnew hresult
      rcases hresult with ⟨e, rfl, hlog⟩ | ⟨handshake, rfl, hrecord, hlog⟩
      · refine hfollows.still ?_ hkeys hlog
        intro mls' hgroup
        obtain rfl := Option.some.inj (hold.symm.trans hgroup)
        exact ⟨mls, hnew, fun _ hstep => T.remove_error hremove hstep⟩
      · rw [if_pos hpost, hfollows.logKey_eq hlookup] at hlog
        refine hfollows.commit hP hold hnew hkeys hlog ?_
        intro other ledger _ hstep
        exact T.remove_ok hremove hstep (hremains _ hrecord rfl).symm
  · exact hfollows.elsewhere (groupOf_other_of_remove outcome hother) outcome.logsGrow
      ((outcome.log_cases channelId).resolve_right fun hhere => hother hhere.1)

end Follows

theorem RemoveOutcome.removals_subset {other : ChannelId} {peerId : Hash} {nowMs : UInt64}
    {result : Except HostError Unit} {calls : RemoveCalls}
    (outcome : RemoveOutcome P h other peerId nowMs calls result h') :
    h.removals ⊆ h'.removals := by
  rcases outcome.merged with rfl | ⟨_, _, _, removals, -, -, -, hsubset, relay⟩
  · exact List.Subset.refl _
  · exact relay.removals ▸ hsubset

/-- The member has not been removed so far. -/
def Remains (channelId : ChannelId) (own : UInt32) (h : Hosting G) : Prop :=
  ∀ removal ∈ h.removals, removal.channelId = channelId → removal.leaf ≠ own

/-- One step: as long as a member remains, its reading takes it along. -/
theorem follows_step (hP : Honest P) {op : LogOp} (hpublished : h.Published S channelId ledgers op)
    (hunforged : h.Unforged P T channelId member.logKey op)
    (hfollows : h.Remains channelId own → h.Follows P S T channelId own seen ledgers member) :
    (h.stepLog P S op).Remains channelId own →
      (h.stepLog P S op).Follows P S T channelId own seen ledgers member := by
  cases op with
  | frame other blob => exact fun hremains => (hfollows hremains).frame hunforged
  | host op =>
    refine step_keeps (I := fun x => x.Remains channelId own →
      x.Follows P S T channelId own seen ledgers member) ?_ ?_ ?_ hfollows
    · intro x x' hx hsame hremains
      rw [Remains, hsame.removals] at hremains
      exact (hx hremains).aside hsame
    · intro x other peerId nowMs calls hx hsame hjoining hremains
      have outcome := mlsAddMember_outcome (P := P) (S := S) (h := x) other peerId nowMs calls
      rw [Remains, outcome.removals] at hremains
      refine (hx hremains).add hP outcome ?_
      rintro rfl
      obtain ⟨hpost, haccept⟩ := hpublished.1 peerId calls hjoining
      refine ⟨hpost, fun mls kp key hgroup => haccept mls kp key ?_⟩
      rw [← hsame.groupOf]
      exact hgroup
    · intro x other gone nowMs calls hx hremoving hremains
      have outcome := removeFromChannel_outcome (P := P) (h := x) other gone nowMs calls
      refine (hx fun removal hremoval => ?_).remove hP outcome ?_ hremains
      · exact hremains removal (outcome.removals_subset hremoval)
      · rintro rfl
        exact hpublished.2 gone calls hremoving

/-- In a run in which every commit of the channel is published, a member who was not removed and
has read the whole log is in the epoch of the host. -/
theorem epochs_agree_run (hP : Honest P) (T : G.Tracking hostId) (start : Hosting G)
    (channelId : ChannelId) (own : UInt32) (seen : Nat) (member : ChannelSession G.toMls)
    (hjoined : start.Joined P T channelId own seen member) (ledgers : List Ledger)
    (ops : List LogOp)
    (hpublished : Steps.Along (stepLog P S) (Published S channelId ledgers) start ops)
    (hunforged : Steps.Along (stepLog P S) (Unforged P T channelId member.logKey) start ops)
    (hremains : (Steps.exec (stepLog P S) start ops).Remains channelId own)
    (reads : LogReading G.toMls)
    (hreads : reads.Of ledgers (((Steps.exec (stepLog P S) start ops).log channelId).drop seen)) :
    ∃ mls, (Steps.exec (stepLog P S) start ops).groupOf channelId = some mls ∧
      T.epoch (member.read P S channelId reads).mls = T.epoch mls := by
  have hfollows : (Steps.exec (stepLog P S) start ops).Remains channelId own →
      (Steps.exec (stepLog P S) start ops).Follows P S T channelId own seen ledgers member :=
    Steps.exec_invariant (fun h => h.Remains channelId own →
      h.Follows P S T channelId own seen ledgers member)
      (fun h op hbefore hop => follows_step hP hop.1 hop.2 hbefore)
      (fun _ => hjoined.follows) (Steps.along_and hpublished hunforged)
  obtain ⟨mls, hgroup, hstep⟩ := (hfollows hremains).inStep
  exact ⟨mls, hgroup, T.epoch_eq (hstep reads hreads)⟩

end Hosting

section Samples

open Ledger (sampleKey run sampleParams sampleAnnounce)

def sampleCommit (epoch : Nat) : Bytes := 1 :: List.replicate epoch 0

def sampleEpochs : Groups where
  Member := Nat × List (UInt32 × Bytes)
  members m := m.2
  processFrom m payload _ _ :=
    if payload = sampleCommit m.1 then (.ok .epochChanged, (m.1 + 1, m.2)) else (.ok .ignored, m)
  keyPackageIdentity m kp := sampleGroups.keyPackageIdentity m.2 kp
  add m kp :=
    match sampleGroups.add m.2 kp with
    | (.ok handshake, rows) => (.ok { handshake with commit := sampleCommit m.1 }, (m.1 + 1, rows))
    | (.error e, rows) => (.error e, (m.1, rows))
  remove m leaf :=
    match sampleGroups.remove m.2 leaf with
    | (.ok handshake, rows) => (.ok { handshake with commit := sampleCommit m.1 }, (m.1 + 1, rows))
    | (.error e, rows) => (.error e, (m.1, rows))

def sampleMadeAt : Bytes → Option Nat
  | 1 :: rest => if rest = List.replicate rest.length 0 then some rest.length else none
  | _ => none

theorem sampleMadeAt_commit (epoch : Nat) : sampleMadeAt (sampleCommit epoch) = some epoch := by
  rw [sampleCommit, sampleMadeAt, if_pos (by rw [List.length_replicate]), List.length_replicate]

theorem sampleEpochs_commit (m : sampleEpochs.Member) (hostId : Hash)
    (accepts : Bytes → Key → Bool) :
    (sampleEpochs.processFrom m (sampleCommit m.1) hostId accepts).2 = (m.1 + 1, m.2) :=
  congrArg Prod.snd (if_pos rfl)

def sampleTracking (hostId : Hash) : sampleEpochs.Tracking hostId where
  epoch m := m.1
  madeAt := sampleMadeAt
  inStep host _ m := m.1 = host.1
  epoch_eq hstep := hstep
  add_ok {host host' kp identity key handshake} _ hadd := by
    simp only [sampleEpochs] at hadd
    rcases hrows : sampleGroups.add host.2 kp with ⟨result, rows⟩
    rw [hrows] at hadd
    cases result with
    | error e => cases hadd
    | ok made =>
      cases hadd
      refine ⟨?_, ?_⟩
      · simp only [sampleGroups] at hrows
        split at hrows
        · cases hrows
        · cases hrows
          rfl
      · intro leaf member accepts hstep _
        have hstep' : member.1 = host.1 := hstep
        rw [← hstep', sampleEpochs_commit]
  add_error {host host' kp e} hadd := by
    simp only [sampleEpochs] at hadd
    rcases hrows : sampleGroups.add host.2 kp with ⟨result, rows⟩
    rw [hrows] at hadd
    cases result with
    | error e' =>
      cases hadd
      exact fun hstep => hstep
    | ok made => cases hadd
  remove_ok {host host' gone handshake} hremove := by
    simp only [sampleEpochs] at hremove
    rcases hrows : sampleGroups.remove host.2 gone with ⟨result, rows⟩
    rw [hrows] at hremove
    cases result with
    | error e => cases hremove
    | ok made =>
      cases hremove
      intro leaf member accepts hstep _
      have hstep' : member.1 = host.1 := hstep
      rw [← hstep', sampleEpochs_commit]
  remove_error {host host' gone e} hremove := by
    simp only [sampleEpochs] at hremove
    rcases hrows : sampleGroups.remove host.2 gone with ⟨result, rows⟩
    rw [hrows] at hremove
    cases result with
    | error e' =>
      cases hremove
      exact fun hstep => hstep
    | ok made => cases hremove
  other {host member leaf payload accepts} hstep hmade := by
    have hne : payload ≠ sampleCommit member.1 := by
      rintro rfl
      rw [sampleMadeAt_commit] at hmade
      exact hmade (congrArg some hstep)
    have hignored : (sampleEpochs.processFrom member payload hostId accepts).2 = member :=
      congrArg Prod.snd (if_neg hne)
    rw [hignored]
    exact hstep

def sampleEpochGeneral : ChannelSession sampleEpochs.toMls where
  info := sampleGeneral.info
  mls := (0, [(0, (sampleId (sampleKey 2)).toList)])
  roster := {sampleId (sampleKey 2)}
  lastSeq := 0
  removed := ∅
  logKey := none

def sampleEpochHost : Hosting sampleEpochs where
  me := sampleHost.me
  ledger := sampleHost.ledger
  hosted := sampleHost.hosted
  serverPolicies := sampleHost.serverPolicies
  channels := (∅ : AssocMap ChannelId (ChannelSession sampleEpochs.toMls)).insert sampleChannelId
    sampleEpochGeneral
  channelRosterVersion := ∅
  invitesSent := ∅
  inviteUses := ∅
  rosters := ∅
  logs := ∅
  removals := []

def sampleReader (ledger : Ledger) : ChannelEngine sampleEpochs.toMls where
  me := sampleId (sampleKey 3)
  ledger := ledger
  blocked := ∅
  serverPolicies := ∅
  channels := ∅
  channelGossip := ∅
  gossipShown := ∅
  channelEdits := ∅
  newEdits := []
  channelReactions := ∅
  newReactions := []
  channelPins := ∅
  newPins := []
  channelHistory := []
  evictedChannels := []

theorem sampleEpochHost_joined :
    sampleEpochHost.Joined samplePrimitives (sampleTracking (sampleId (sampleKey 2))) sampleChannelId
      5 0 sampleEpochGeneral where
  host := rfl
  key := by
    rw [sampleEpochHost, AssocMap.lookup_insert, if_pos rfl]
    rfl
  inStep := ⟨sampleEpochGeneral.mls, by
    rw [Hosting.groupOf, sampleEpochHost, AssocMap.lookup_insert, if_pos rfl]
    rfl, rfl⟩
  seen_le := Nat.zero_le _
  past := nofun

open Hosting

theorem sampleInvitation_published :
    Steps.Along (stepLog samplePrimitives sampleSuite)
      (Published sampleSuite sampleChannelId [sampleHost.ledger]) sampleEpochHost
      (sampleInvitation.map LogOp.host) := by
  refine ⟨⟨nofun, nofun⟩, ⟨?_, nofun⟩, trivial⟩
  intro peerId calls hjoining
  simp only [joining] at hjoining
  split at hjoining
  · obtain ⟨-, hrest⟩ := Prod.mk.inj (Option.some.inj hjoining)
    obtain ⟨rfl, rfl⟩ := Prod.mk.inj hrest
    refine ⟨rfl, ?_⟩
    intro mls kp key _ hkp hidentity ledger hledger
    rw [List.mem_singleton.mp hledger]
    cases hkp
    cases hidentity
    decide +kernel
  · cases hjoining

theorem sampleReading (ledger : Ledger) (blob : Bytes) :
    LogReading.Of [(sampleReader ledger, ⟨1, blob, true⟩)] [ledger] [blob] := by
  refine ⟨rfl, ?_⟩
  intro read hread
  rw [List.mem_singleton.mp hread]
  exact ⟨rfl, List.mem_singleton_self ledger⟩

theorem epochs_agree_sample :
    let T := sampleTracking (sampleId (sampleKey 2))
    let final := Steps.exec (stepLog samplePrimitives sampleSuite) sampleEpochHost
      (sampleInvitation.map LogOp.host)
    ∃ mls, final.groupOf sampleChannelId = some mls ∧
      T.epoch (sampleEpochGeneral.read samplePrimitives sampleSuite sampleChannelId
        [(sampleReader sampleHost.ledger, ⟨1, frameCommit :: sampleCommit 0, true⟩)]).mls =
          T.epoch mls := by
  intro T final
  have hremovals : final.removals = [] := by decide +kernel
  refine epochs_agree_run samplePrimitives_honest T sampleEpochHost sampleChannelId 5 0
    sampleEpochGeneral sampleEpochHost_joined [sampleHost.ledger]
    (sampleInvitation.map LogOp.host) sampleInvitation_published ⟨trivial, trivial, trivial⟩ ?_ _ ?_
  · intro removal hremoval
    rw [hremovals] at hremoval
    cases hremoval
  · have hlog : (final.log sampleChannelId).drop 0 = [frameCommit :: sampleCommit 0] := by
      decide +kernel
    rw [hlog]
    exact sampleReading sampleHost.ledger _

/-- The host has added a member, but the commit did not get into the log. There is nothing to
read, and the others are one epoch behind. -/
theorem lost_commit_leaves_behind :
    let final := Steps.exec (stepLog samplePrimitives sampleSuite) sampleEpochHost
      [.host (.invite sampleChannelId (sampleId (sampleKey 1))),
        .host (.inviteAccept (sampleKey 1) sampleChannelId 2000
          { sampleAdd (some (sampleKey 1).toList) with post := .failed })]
    final.removals = [] ∧ final.log sampleChannelId = [] ∧
      (sampleEpochGeneral.read samplePrimitives sampleSuite sampleChannelId []).mls.1 = 0 ∧
      (final.groupOf sampleChannelId).map (fun mls => mls.1) = some 1 := by
  refine ⟨by decide +kernel, by decide +kernel, rfl, by decide +kernel⟩

end Samples

end Dante.Core
