import Dante.Relay.Channels

/-!
What a step can do to the log of a channel. Insertion keeps the order of the
numbers, draining takes frames from the front, and a step is one of six cases, which
every later argument starts from.
-/

namespace Dante.Relay

open Crypto Method Except

/-- Strictly increasing sequence numbers. -/
def Ordered (entries : List Frame) : Prop := entries.Pairwise fun a b => a.seq < b.seq

instance (entries : List Frame) : Decidable (Ordered entries) :=
  inferInstanceAs (Decidable (entries.Pairwise _))

instance : Std.Total fun a b : Frame => a.seq ≤ b.seq where
  total a b := by grind

instance : IsTrans Frame fun a b => a.seq ≤ b.seq where
  trans a b c hab hbc := by grind

instance : IsTrans Frame fun a b => a.seq < b.seq where
  trans a b c hab hbc := by grind

@[simp]
theorem frameBytes_nil : frameBytes [] = 0 := rfl

@[simp]
theorem frameBytes_cons (frame : Frame) (entries : List Frame) :
    frameBytes (frame :: entries) = frame.blob.length + frameBytes entries := rfl

@[simp]
theorem frameBytes_append (xs ys : List Frame) :
    frameBytes (xs ++ ys) = frameBytes xs + frameBytes ys := by
  simp [frameBytes]

theorem frameBytes_filter_le (keep : Frame → Bool) (entries : List Frame) :
    frameBytes (entries.filter keep) ≤ frameBytes entries :=
  (List.filter_sublist.map _).sum_le_sum fun _ _ => Nat.zero_le _

theorem mem_insertFrame {frame other : Frame} {entries : List Frame} :
    other ∈ insertFrame frame entries ↔ other = frame ∨ other ∈ entries := by
  simp [insertFrame]

theorem frameBytes_insertFrame (frame : Frame) (entries : List Frame) :
    frameBytes (insertFrame frame entries) = frame.blob.length + frameBytes entries := by
  have hperm := List.perm_orderedInsert (fun a b : Frame => a.seq ≤ b.seq) frame entries
  exact (hperm.map fun frame => frame.blob.length).sum_eq

theorem ordered_insertFrame {frame : Frame} {entries : List Frame} (h : Ordered entries)
    (hnew : ∀ other ∈ entries, other.seq ≠ frame.seq) : Ordered (insertFrame frame entries) := by
  induction entries with
  | nil => exact List.pairwise_singleton _ _
  | cons first rest ih =>
    obtain ⟨hfirst, hrest⟩ := List.pairwise_cons.mp h
    have hne := hnew first List.mem_cons_self
    rw [insertFrame, List.orderedInsert_cons]
    split
    · apply List.pairwise_cons.mpr ⟨_, h⟩
      intro other hother
      rcases List.mem_cons.mp hother with rfl | hother
      · grind
      · grind
    · apply List.pairwise_cons.mpr
        ⟨_, ih hrest fun other hother => hnew other (List.mem_cons_of_mem _ hother)⟩
      intro other hother
      rcases mem_insertFrame.mp hother with rfl | hother
      · grind
      · exact hfirst other hother

section InsertAll

variable {fresh entries : List Frame}

theorem mem_insertAll {frame : Frame} :
    frame ∈ fresh.foldl (fun entries frame => insertFrame frame entries) entries ↔
      frame ∈ entries ∨ frame ∈ fresh := by
  induction fresh generalizing entries with
  | nil => simp
  | cons first rest ih =>
    rw [List.foldl_cons, ih, mem_insertFrame, List.mem_cons]
    tauto

theorem frameBytes_insertAll :
    frameBytes (fresh.foldl (fun entries frame => insertFrame frame entries) entries) =
      frameBytes entries + frameBytes fresh := by
  induction fresh generalizing entries with
  | nil => rfl
  | cons first rest ih =>
    rw [List.foldl_cons, ih, frameBytes_insertFrame, frameBytes_cons]
    omega

theorem ordered_insertAll (hentries : Ordered entries) (hfresh : Ordered fresh)
    (hnew : ∀ frame ∈ fresh, ∀ other ∈ entries, other.seq ≠ frame.seq) :
    Ordered (fresh.foldl (fun entries frame => insertFrame frame entries) entries) := by
  induction fresh generalizing entries with
  | nil => exact hentries
  | cons first rest ih =>
    obtain ⟨hfirst, hrest⟩ := List.pairwise_cons.mp hfresh
    apply ih (ordered_insertFrame hentries (hnew first List.mem_cons_self)) hrest
    intro frame hframe other hother
    rcases mem_insertFrame.mp hother with rfl | hother
    · have hlt := hfirst frame hframe
      grind
    · exact hnew frame (List.mem_cons_of_mem _ hframe) other hother

end InsertAll

theorem trim_suffix (entries : List Frame) : trim entries <:+ entries :=
  List.drop_suffix _ _

theorem frameBytes_excess (entries : List Frame) :
    frameBytes (excess entries) + frameBytes (trim entries) = frameBytes entries := by
  rw [← frameBytes_append, excess, trim, List.take_append_drop]

theorem length_trim_le (entries : List Frame) : (trim entries).length ≤ maxChannelEntries := by
  rw [trim, List.length_drop]
  omega

theorem trim_of_le {entries : List Frame} (h : entries.length ≤ maxChannelEntries) :
    trim entries = entries := by
  rw [trim, Nat.sub_eq_zero_of_le h, List.drop_zero]

namespace ChannelStore

theorem evict_suffix (cap bytes : Nat) (entries : List Frame) :
    (evict cap bytes entries).1 <:+ entries := by
  induction entries generalizing bytes with
  | nil => exact List.suffix_rfl
  | cons first rest ih =>
    rw [evict]
    split
    · exact (ih _).trans (List.suffix_cons _ _)
    · exact List.suffix_rfl

theorem evict_bytes (cap : Nat) {bytes : Nat} {entries : List Frame}
    (hbytes : frameBytes entries ≤ bytes) :
    (evict cap bytes entries).2 + frameBytes entries =
      bytes + frameBytes (evict cap bytes entries).1 := by
  induction entries generalizing bytes with
  | nil => rfl
  | cons first rest ih =>
    rw [frameBytes_cons] at hbytes
    rw [evict]
    split
    · have hless : frameBytes rest ≤ bytes - first.blob.length := by omega
      have hrest := ih hless
      rw [frameBytes_cons]
      omega
    · rfl

/-- Eviction ends below the cap or with nothing left. -/
theorem evict_le (cap bytes : Nat) (entries : List Frame) :
    (evict cap bytes entries).2 ≤ cap ∨ (evict cap bytes entries).1 = [] := by
  induction entries generalizing bytes with
  | nil => exact Or.inr rfl
  | cons first rest ih =>
    rw [evict]
    split
    · exact ih _
    · rename_i hle
      exact Or.inl (Nat.not_lt.mp hle)

theorem ordered_incoming (rows : List (UInt64 × Bytes)) (nowMs : UInt64) :
    Ordered (incoming rows nowMs) := by
  apply Sorted.pairwise_destutter
  intro a b hle hne
  grind

theorem mem_incoming {rows : List (UInt64 × Bytes)} {nowMs : UInt64} {frame : Frame}
    (h : frame ∈ incoming rows nowMs) :
    (frame.seq, frame.blob) ∈ rows ∧ frame.storedMs = nowMs := by
  obtain ⟨row, hrow, rfl⟩ := List.mem_map.mp (Sorted.mem_of_mem_destutter h)
  exact ⟨(List.mem_filter.mp hrow).1, rfl⟩

theorem le_last_incoming {rows : List (UInt64 × Bytes)} {nowMs : UInt64} {last frame : Frame}
    (hlast : (incoming rows nowMs).getLast? = some last) (h : frame ∈ incoming rows nowMs) :
    frame.seq ≤ last.seq := by
  obtain ⟨init, hinit⟩ := List.getLast?_eq_some_iff.mp hlast
  have hordered := ordered_incoming rows nowMs
  rw [hinit] at h hordered
  rcases List.mem_append.mp h with hframe | hframe
  · have hlt := (List.pairwise_append.mp hordered).2.2 frame hframe last List.mem_cons_self
    grind
  · rw [List.mem_singleton.mp hframe]
    grind

end ChannelStore

theorem mem_missing {log : ChannelLog} {incoming : List Frame} {frame : Frame} :
    frame ∈ log.missing incoming ↔
      frame ∈ incoming ∧ ∀ other ∈ log.entries, other.seq ≠ frame.seq := by
  simp [ChannelLog.missing]

theorem ordered_missing {log : ChannelLog} {incoming : List Frame} (h : Ordered incoming) :
    Ordered (log.missing incoming) :=
  h.sublist List.filter_sublist

/-- The roster update that reaches `apply_channel_roster`. -/
def ChannelOp.rosterUpdate : ChannelOp → Option RosterUpdate
  | .setRoster limited update => if limited = true then none else some update
  | .gossipRoster update => some update
  | _ => none

namespace ChannelStore

variable (S : Suite) (store : ChannelStore)

theorem call_postToChannel (limited : Bool) (channelId : Hash) (blob : Bytes) (identity : Hash)
    (sig : Signature) (nowMs : UInt64) :
    (postToChannel S limited channelId blob identity sig nowMs).call store =
      match store.checkPost S limited channelId blob identity sig with
      | .ok () => (.ok (store.log channelId).nextSeq,
          store.keep channelId ((store.log channelId).posted blob nowMs) blob.length)
      | .error reason => (.error reason, store) := by
  rw [postToChannel, call_validated]
  cases store.checkPost S limited channelId blob identity sig with
  | error reason => rfl
  | ok u => rfl

/-- An accepted roster changes nothing but the rosters. -/
theorem applyChannelRoster_channels (update : RosterUpdate) :
    ∃ rosters, (store.applyChannelRoster S update).2 = { store with rosters } := by
  have hbind : ∃ rosters, (store.bindRoster S update).2 = { store with rosters } := by
    rw [bindRoster]
    split
    · exact ⟨store.rosters, rfl⟩
    · exact ⟨_, rfl⟩
  rw [applyChannelRoster]
  split
  · exact ⟨store.rosters, rfl⟩
  · split
    · split
      · exact ⟨store.rosters, rfl⟩
      · split
        · exact ⟨store.rosters, rfl⟩
        · exact hbind
    · split
      · exact ⟨store.rosters, rfl⟩
      · exact hbind

theorem setChannelRoster_snd (limited : Bool) (update : RosterUpdate) :
    (store.setChannelRoster S limited update).2 =
      if limited = true then store else (store.applyChannelRoster S update).2 := by
  rw [setChannelRoster]
  split
  · rfl
  · split <;> simp_all

theorem ingestGossipedChannelRoster_snd (update : RosterUpdate) :
    (store.ingestGossipedChannelRoster S update).2 = (store.applyChannelRoster S update).2 := by
  rw [ingestGossipedChannelRoster]
  split <;> simp_all

theorem step_frame (op : ChannelOp) :
    (store.step S op).channelStoreCap = store.channelStoreCap ∧
      (store.step S op).rosters =
        match op.rosterUpdate with
        | some update => (store.applyChannelRoster S update).2.rosters
        | none => store.rosters := by
  have hcap (update : RosterUpdate) : (store.applyChannelRoster S update).2.channelStoreCap =
      store.channelStoreCap := by
    obtain ⟨rosters, heq⟩ := store.applyChannelRoster_channels S update
    rw [heq]
  cases op with
  | post limited channelId blob identity sig nowMs =>
    rw [step, call_postToChannel]
    split <;> exact ⟨rfl, rfl⟩
  | gossip channelId seq blob identity sig nowMs =>
    rw [step, ingestGossipedChannelFrame]
    split_ifs <;> exact ⟨rfl, rfl⟩
  | adopt channelId rows nowMs =>
    rw [step, adoptChannelLog]
    split
    · exact ⟨rfl, rfl⟩
    · split <;> exact ⟨rfl, rfl⟩
  | maintain nowMs | ledger ledger => exact ⟨rfl, rfl⟩
  | setRoster limited update =>
    rw [step, setChannelRoster_snd, ChannelOp.rosterUpdate]
    cases limited with
    | true => exact ⟨rfl, rfl⟩
    | false => exact ⟨hcap update, rfl⟩
  | gossipRoster update =>
    rw [step, ingestGossipedChannelRoster_snd, ChannelOp.rosterUpdate]
    exact ⟨hcap update, rfl⟩

/-- What a step makes of the log of a channel. -/
inductive LogStep (channelId : Hash) : ChannelOp → ChannelLog → Prop where
  | same (op : ChannelOp) : LogStep channelId op (store.log channelId)
  | posted {limited : Bool} {blob : Bytes} {identity : Hash} {sig : Signature} {nowMs : UInt64}
      (hcheck : store.checkPost S limited channelId blob identity sig = .ok ()) :
      LogStep channelId (.post limited channelId blob identity sig nowMs)
        ((store.log channelId).posted blob nowMs).trimmed
  | steppedDown (op : ChannelOp) :
      LogStep channelId op { store.log channelId with localWriter := false }
  | folded {seq : UInt64} {blob : Bytes} {identity : Hash} {sig : Signature} {nowMs : UInt64}
      (hadmits : store.AdmitsFrame S channelId blob identity sig)
      (hnew : ∀ frame ∈ (store.log channelId).entries, frame.seq ≠ seq) :
      LogStep channelId (.gossip channelId seq blob identity sig nowMs)
        ((store.log channelId).folded { seq, blob, storedMs := nowMs }).trimmed
  | adopted {rows : List (UInt64 × Bytes)} {nowMs : UInt64} {last : Frame} {entries : List Frame}
      (hlast : (incoming rows nowMs).getLast? = some last)
      (hentries : entries <:+ ((store.log channelId).merged (incoming rows nowMs) last).entries)
      (hlen : entries.length ≤ maxChannelEntries) :
      LogStep channelId (.adopt channelId rows nowMs)
        { (store.log channelId).merged (incoming rows nowMs) last with entries }
  | retained (nowMs : UInt64) :
      LogStep channelId (.maintain nowMs)
        (((store.channels.lookup channelId).bind (ChannelStore.retained nowMs)).getD .new)

variable {S store}

theorem verifyChannelPostSig_eq_ok {channelId identity : Hash} {blob : Bytes} {sig : Signature} :
    store.verifyChannelPostSig S channelId identity blob sig = .ok () ↔
      ∃ idk, store.ledger.idkForId identity = some idk ∧
        Verifies S idk (postToChannelChallenge S channelId identity blob).toList sig := by
  simp only [verifyChannelPostSig, bind_eq_ok, okOr_eq_ok, refuseIf_eq_ok, not_not]

theorem checkPost_eq_ok {limited : Bool} {channelId : Hash} {blob : Bytes} {identity : Hash}
    {sig : Signature} (hcheck : store.checkPost S limited channelId blob identity sig = .ok ()) :
    blob.length ≤ maxChannelBlobBytes ∧
      store.verifyChannelPostSig S channelId identity blob sig = .ok () ∧
      (∃ roster, store.rosters.lookup channelId = some roster ∧ identity ∈ roster.members) ∧
      ¬ store.DirectoryFull channelId ∧
      store.channelBytes + blob.length ≤ store.channelStoreCap := by
  simp only [checkPost, bind_eq_ok, refuseIf_eq_ok, okOr_eq_ok, not_not] at hcheck
  obtain ⟨-, -, -, hsize, ⟨⟩, hsig, roster, hroster, -, hmember, -, hfull, hroom⟩ := hcheck
  exact ⟨Nat.not_lt.mp hsize, hsig, ⟨roster, hroster, hmember⟩, hfull, Nat.not_lt.mp hroom⟩

theorem log_insert (channelId other : Hash) (log : ChannelLog) (bytes : Nat) :
    ({ store with channels := store.channels.insert channelId log, channelBytes := bytes } :
      ChannelStore).log other = if other = channelId then log else store.log other := by
  rw [ChannelStore.log, ChannelStore.log, AssocMap.lookup_insert]
  split <;> rfl

theorem logStep_post (limited : Bool) (target : Hash) (blob : Bytes) (identity : Hash)
    (sig : Signature) (nowMs : UInt64) (channelId : Hash) :
    LogStep S store channelId (.post limited target blob identity sig nowMs)
      ((store.step S (.post limited target blob identity sig nowMs)).log channelId) := by
  rw [step, call_postToChannel]
  split
  · rename_i hcheck
    rw [keep, log_insert]
    split
    · rename_i heq
      subst heq
      exact .posted hcheck
    · exact .same _
  · exact .same _

theorem logStep_gossip (target : Hash) (seq : UInt64) (blob : Bytes) (identity : Hash)
    (sig : Signature) (nowMs : UInt64) (channelId : Hash) :
    LogStep S store channelId (.gossip target seq blob identity sig nowMs)
      ((store.step S (.gossip target seq blob identity sig nowMs)).log channelId) := by
  rw [step, ingestGossipedChannelFrame]
  split
  · exact .same _
  rename_i hadmits
  split
  · exact .same _
  split
  · rw [log_insert]
    split
    · rename_i heq
      subst heq
      exact .steppedDown _
    · exact .same _
  rename_i hnew
  rw [keep, log_insert]
  split
  · rename_i heq
    subst heq
    exact .folded (not_not.mp hadmits) (by simpa using hnew)
  · exact .same _

theorem logStep_adopt (target : Hash) (rows : List (UInt64 × Bytes)) (nowMs : UInt64)
    (channelId : Hash) :
    LogStep S store channelId (.adopt target rows nowMs)
      ((store.step S (.adopt target rows nowMs)).log channelId) := by
  rw [step, adoptChannelLog]
  split
  · exact .same _
  split
  · exact .same _
  rename_i last hlast
  rw [log_insert]
  split
  · rename_i heq
    subst heq
    have hsuffix := evict_suffix store.channelStoreCap
      (store.channelBytes + frameBytes ((store.log channelId).missing (incoming rows nowMs)) -
        frameBytes (excess ((store.log channelId).merged (incoming rows nowMs) last).entries))
      (trim ((store.log channelId).merged (incoming rows nowMs) last).entries)
    exact .adopted hlast (hsuffix.trans (trim_suffix _))
      (hsuffix.length_le.trans (length_trim_le _))
  · exact .same _

theorem logStep (op : ChannelOp) (channelId : Hash) :
    LogStep S store channelId op ((store.step S op).log channelId) := by
  cases op with
  | post limited target blob identity sig nowMs => exact logStep_post ..
  | gossip target seq blob identity sig nowMs => exact logStep_gossip ..
  | adopt target rows nowMs => exact logStep_adopt ..
  | maintain nowMs =>
    rw [step, maintain, ChannelStore.log, AssocMap.lookup_filterMapValues]
    exact .retained nowMs
  | setRoster limited update =>
    obtain ⟨rosters, heq⟩ := store.applyChannelRoster_channels S update
    rw [step, setChannelRoster_snd, heq]
    split
    · exact .same _
    · exact .same _
  | gossipRoster update =>
    obtain ⟨rosters, heq⟩ := store.applyChannelRoster_channels S update
    rw [step, ingestGossipedChannelRoster_snd, heq]
    exact .same _
  | ledger ledger => exact .same _

/-- The step stores the frame in the channel, unless the caps remove it again. -/
def Brings (S : Suite) (store : ChannelStore) (channelId : Hash) (frame : Frame) :
    ChannelOp → Prop
  | .post limited target blob identity sig nowMs =>
    target = channelId ∧ store.checkPost S limited channelId blob identity sig = .ok () ∧
      frame = { seq := (store.log channelId).nextSeq, blob, storedMs := nowMs }
  | .gossip target seq blob identity sig nowMs =>
    target = channelId ∧ store.AdmitsFrame S channelId blob identity sig ∧
      (∀ other ∈ (store.log channelId).entries, other.seq ≠ seq) ∧
      frame = { seq, blob, storedMs := nowMs }
  | .adopt target rows nowMs =>
    target = channelId ∧ frame ∈ (store.log channelId).missing (incoming rows nowMs)
  | _ => False

theorem mem_retained {nowMs : UInt64} {frame : Frame}
    {channelId : Hash} (h : frame ∈ (((store.channels.lookup channelId).bind
      (ChannelStore.retained nowMs)).getD .new).entries) :
    frame ∈ (store.log channelId).entries := by
  rw [ChannelStore.log]
  cases hlookup : store.channels.lookup channelId with
  | none =>
    rw [hlookup] at h
    exact h
  | some log =>
    rw [hlookup, Option.bind_some, ChannelStore.retained] at h
    split at h
    · cases h
    · exact (List.mem_filter.mp h).1

/-- A frame of a log was there before the step, or the step brings it. -/
theorem mem_step {op : ChannelOp} {channelId : Hash} {frame : Frame}
    (h : frame ∈ ((store.step S op).log channelId).entries) :
    frame ∈ (store.log channelId).entries ∨ store.Brings S channelId frame op := by
  have hstep : store.LogStep S channelId op _ := logStep op channelId
  generalize (store.step S op).log channelId = log at h hstep
  cases hstep with
  | same => exact Or.inl h
  | posted hcheck =>
    rcases List.mem_append.mp ((trim_suffix _).mem h) with hold | hnew
    · exact Or.inl hold
    · exact Or.inr ⟨rfl, hcheck, List.mem_singleton.mp hnew⟩
  | steppedDown => exact Or.inl h
  | folded hadmits hnew =>
    rcases mem_insertFrame.mp ((trim_suffix _).mem h) with rfl | hold
    · exact Or.inr ⟨rfl, hadmits, hnew, rfl⟩
    · exact Or.inl hold
  | adopted hlast hentries hlen =>
    rcases mem_insertAll.mp (hentries.mem h) with hold | hnew
    · exact Or.inl hold
    · exact Or.inr ⟨rfl, hnew⟩
  | retained nowMs => exact Or.inl (mem_retained h)

end ChannelStore

end Dante.Relay
