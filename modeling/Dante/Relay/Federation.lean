import Dante.Relay.Sequence

/-!
Two relays that tell each other about the frames posted to them. Each numbers the
posts it takes itself. If both take posts for one channel, both give out the same
numbers; if one of them takes all posts of a channel, the other follows it.
-/

namespace Dante.Relay

open Crypto Method Except ChannelStore

inductive Site where
  | first
  | second
  deriving DecidableEq

def Site.other : Site → Site
  | .first => .second
  | .second => .first

theorem Site.other_ne (site : Site) : site.other ≠ site := by
  cases site <;> decide

/-- A post that a relay accepted, as it gossips it. -/
structure Posted where
  site : Site
  channelId : Hash
  seq : UInt64
  blob : Bytes
  identity : Hash
  sig : Signature
  deriving DecidableEq

structure Federation where
  store : Site → ChannelStore
  posted : List Posted
  /-- What the other relay has received, with repetitions. -/
  delivered : List Posted

inductive Federation.Op where
  | post (site : Site) (limited : Bool) (channelId : Hash) (blob : Bytes) (identity : Hash)
      (sig : Signature) (nowMs : UInt64)
  | deliver (message : Posted) (nowMs : UInt64)

namespace Federation

variable {channelId : Hash} {message : Posted}

/-- Two empty relays that know the same ledger and the same rosters. -/
def start (ledger : Ledger) (rosters : AssocMap Hash ChannelRoster) (cap : Site → Nat) :
    Federation where
  store site := { ChannelStore.new ledger (cap site) with rosters }
  posted := []
  delivered := []

def log (world : Federation) (site : Site) (channelId : Hash) : ChannelLog :=
  (world.store site).log channelId

def Stores (world : Federation) (site : Site) (channelId : Hash) (seq : UInt64) (blob : Bytes) :
    Prop :=
  ∃ frame ∈ (world.log site channelId).entries, frame.seq = seq ∧ frame.blob = blob

instance (world : Federation) (site : Site) (channelId : Hash) (seq : UInt64) (blob : Bytes) :
    Decidable (world.Stores site channelId seq blob) :=
  inferInstanceAs (Decidable (∃ frame ∈ _, _))

def step (S : Suite) (world : Federation) : Op → Federation
  | .post site limited channelId blob identity sig nowMs =>
    match (ChannelStore.postToChannel S limited channelId blob identity sig nowMs).call
        (world.store site) with
    | (.ok seq, store) =>
      { world with
        store := Function.update world.store site store
        posted := world.posted ++ [{ site, channelId, seq, blob, identity, sig }] }
    | (.error _, store) => { world with store := Function.update world.store site store }
  | .deliver message nowMs =>
    if message ∈ world.posted then
      { world with
        store := Function.update world.store message.site.other
          ((world.store message.site.other).ingestGossipedChannelFrame S message.channelId
            message.seq message.blob message.identity message.sig nowMs).2
        delivered := world.delivered ++ [message] }
    else world

def Room (world : Federation) (site : Site) (channelId : Hash) : Prop :=
  (world.log site channelId).entries.length < maxChannelEntries

instance (world : Federation) (site : Site) (channelId : Hash) :
    Decidable (world.Room site channelId) :=
  inferInstanceAs (Decidable (_ < _))

/-- All posts of a channel go to one relay, and the caps of the relays are not reached. -/
def OneWriter (world : Federation) : Op → Prop
  | .post site _ channelId _ _ _ _ =>
    (∀ message ∈ world.posted, message.channelId = channelId → message.site = site) ∧
      world.Room site channelId
  | .deliver message _ =>
    world.Stores message.site.other message.channelId message.seq message.blob ∨
      world.Room message.site.other message.channelId ∧
      ¬ (world.store message.site.other).DirectoryFull message.channelId ∧
      (world.store message.site.other).channelBytes + message.blob.length ≤
        (world.store message.site.other).channelStoreCap

instance (world : Federation) (op : Op) : Decidable (world.OneWriter op) :=
  match op with
  | .post .. => inferInstanceAs (Decidable (_ ∧ _))
  | .deliver .. => inferInstanceAs (Decidable (_ ∨ _))

variable {S : Suite} {ledger : Ledger} {rosters : AssocMap Hash ChannelRoster}
  {world : Federation}

/-- The other relay accepts the author of the post as well. -/
def Admitted (S : Suite) (ledger : Ledger) (rosters : AssocMap Hash ChannelRoster)
    (message : Posted) : Prop :=
  message.blob.length ≤ maxChannelBlobBytes ∧
    (∃ idk, ledger.idkForId message.identity = some idk ∧
      Verifies S idk (postToChannelChallenge S message.channelId message.identity
        message.blob).toList message.sig) ∧
    ∀ roster ∈ rosters.lookup message.channelId, message.identity ∈ roster.members

structure Agreed (S : Suite) (ledger : Ledger) (rosters : AssocMap Hash ChannelRoster)
    (world : Federation) : Prop where
  shared : ∀ site, (world.store site).ledger = ledger ∧ (world.store site).rosters = rosters
  admitted : ∀ message ∈ world.posted, Admitted S ledger rosters message
  single : ∀ a ∈ world.posted, ∀ b ∈ world.posted, a.channelId = b.channelId → a.site = b.site
  distinct : ∀ a ∈ world.posted, ∀ b ∈ world.posted, a.channelId = b.channelId →
    a.seq = b.seq → a.blob = b.blob
  /-- Every stored frame was posted. -/
  origin : ∀ site channelId, ∀ frame ∈ (world.log site channelId).entries,
    ∃ message ∈ world.posted, message.channelId = channelId ∧ message.seq = frame.seq ∧
      message.blob = frame.blob
  /-- A relay has the posts it took, below its next number. -/
  own : ∀ message ∈ world.posted,
    world.Stores message.site message.channelId message.seq message.blob ∧
      message.seq < (world.log message.site message.channelId).nextSeq
  writer : ∀ site channelId, (world.log site channelId).localWriter = true →
    ∃ message ∈ world.posted, message.site = site ∧ message.channelId = channelId
  /-- A log that nothing was delivered to is numbered without gaps. -/
  gapless : ∀ site channelId,
    (∀ message ∈ world.posted, message.channelId = channelId → message.site = site) →
    (world.log site channelId).nextSeq.toNat = (world.log site channelId).entries.length + 1
  received : ∀ message ∈ world.delivered,
    message ∈ world.posted ∧
      world.Stores message.site.other message.channelId message.seq message.blob

theorem agreed_start (ledger : Ledger) (rosters : AssocMap Hash ChannelRoster)
    (cap : Site → Nat) : (start ledger rosters cap).Agreed S ledger rosters where
  shared := fun _ => ⟨rfl, rfl⟩
  admitted := fun _ h => by cases h
  single := fun _ h => by cases h
  distinct := fun _ h => by cases h
  origin := fun _ _ _ h => by cases h
  own := fun _ h => by cases h
  writer := fun _ _ h => by cases h
  gapless := fun _ _ _ => by rfl
  received := fun _ h => by cases h

theorem posted_trimmed {log : ChannelLog} (hroom : log.entries.length < maxChannelEntries)
    (blob : Bytes) (nowMs : UInt64) : (log.posted blob nowMs).trimmed = log.posted blob nowMs := by
  have hlen : (log.posted blob nowMs).entries.length ≤ maxChannelEntries := by
    simpa [ChannelLog.posted] using hroom
  rw [ChannelLog.trimmed, trim_of_le hlen]

theorem folded_trimmed {log : ChannelLog} (hroom : log.entries.length < maxChannelEntries)
    (frame : Frame) : (log.folded frame).trimmed = log.folded frame := by
  have hlen : (log.folded frame).entries.length ≤ maxChannelEntries := by
    simpa [ChannelLog.folded, insertFrame, List.orderedInsert_length] using hroom
  rw [ChannelLog.trimmed, trim_of_le hlen]

/-- The numbers of a log without gaps have successors. -/
theorem Agreed.lt_succ (h : world.Agreed S ledger rosters) {site : Site}
    (hsite : ∀ message ∈ world.posted, message.channelId = channelId → message.site = site)
    (hroom : world.Room site channelId) :
    (world.log site channelId).nextSeq < 0xFFFFFFFFFFFFFFFF := by
  have hcount := h.gapless site channelId hsite
  have hcap : maxChannelEntries = 5000 := by with_unfolding_all rfl
  have hmax : (0xFFFFFFFFFFFFFFFF : UInt64).toNat = 2 ^ 64 - 1 := by decide
  have hlen : (world.log site channelId).entries.length < maxChannelEntries := hroom
  rw [UInt64.lt_iff_toNat_lt]
  omega

theorem Stores.mono {world' : Federation} {site : Site} {seq : UInt64} {blob : Bytes}
    (h : world.Stores site channelId seq blob)
    (hgrows : ∀ frame ∈ (world.log site channelId).entries,
      frame ∈ (world'.log site channelId).entries) : world'.Stores site channelId seq blob := by
  obtain ⟨frame, hframe, heq⟩ := h
  exact ⟨frame, hgrows frame hframe, heq⟩

theorem forall_pair_concat {α : Type} {R : α → α → Prop} {xs : List α} {x : α}
    (h : ∀ a ∈ xs, ∀ b ∈ xs, R a b) (hsymm : ∀ a b, R a b → R b a) (hself : R x x)
    (hnew : ∀ a ∈ xs, R a x) : ∀ a ∈ xs ++ [x], ∀ b ∈ xs ++ [x], R a b := by
  simp only [List.forall_mem_append, List.forall_mem_singleton]
  exact ⟨fun a ha => ⟨h a ha, hnew a ha⟩, fun b hb => hsymm b x (hnew b hb), hself⟩

/-- A relay that takes all posts of a channel takes one more. -/
theorem Agreed.post (h : world.Agreed S ledger rosters) {store : Site → ChannelStore}
    (message : Posted) (nowMs : UInt64)
    (hshared : ∀ site, (store site).ledger = ledger ∧ (store site).rosters = rosters)
    (hlog : ∀ site channelId, (store site).log channelId =
      if site = message.site ∧ channelId = message.channelId then
        (world.log message.site message.channelId).posted message.blob nowMs
      else world.log site channelId)
    (hadmitted : Admitted S ledger rosters message)
    (hseq : message.seq = (world.log message.site message.channelId).nextSeq)
    (hsite : ∀ other ∈ world.posted, other.channelId = message.channelId →
      other.site = message.site)
    (hroom : world.Room message.site message.channelId) :
    Agreed S ledger rosters { world with store, posted := world.posted ++ [message] } := by
  let world' : Federation := { world with store, posted := world.posted ++ [message] }
  have hfits := h.lt_succ hsite hroom
  have hcount := h.gapless message.site message.channelId hsite
  have hkept : ∀ site channelId, (∀ frame ∈ (world.log site channelId).entries,
      frame ∈ ((store site).log channelId).entries) ∧
      (world.log site channelId).nextSeq ≤ ((store site).log channelId).nextSeq := by
    intro site channelId
    rw [hlog]
    split
    · rename_i heq
      obtain ⟨rfl, rfl⟩ := heq
      refine ⟨fun _ => List.mem_append_left _, ?_⟩
      simp only [ChannelLog.posted]
      grind
    · exact ⟨fun _ => id, UInt64.le_refl _⟩
  have hlast : message ∈ world'.posted := List.mem_append_right _ List.mem_cons_self
  have horigin : ∀ site channelId, ∀ frame ∈ (world.log site channelId).entries,
      ∃ origin ∈ world'.posted, origin.channelId = channelId ∧ origin.seq = frame.seq ∧
        origin.blob = frame.blob := by
    intro site channelId frame hframe
    obtain ⟨origin, horigin, hfields⟩ := h.origin site channelId frame hframe
    exact ⟨origin, List.mem_append_left _ horigin, hfields⟩
  constructor
  · exact hshared
  · exact List.forall_mem_append.mpr ⟨h.admitted, List.forall_mem_singleton.mpr hadmitted⟩
  · exact forall_pair_concat h.single (fun _ _ hab hchannel => (hab hchannel.symm).symm)
      (fun _ => rfl) hsite
  · refine forall_pair_concat h.distinct
      (fun _ _ hab hchannel hsame => (hab hchannel.symm hsame.symm).symm) (fun _ _ => rfl) ?_
    -- an earlier post of the channel has a smaller number
    intro other hother hchannel hsame
    have hlt := (h.own other hother).2
    rw [hsite other hother hchannel, hchannel, hsame, hseq] at hlt
    exact absurd hlt (UInt64.lt_irrefl _)
  · intro site channelId frame hframe
    rw [log, hlog] at hframe
    split at hframe
    · rename_i heq
      obtain ⟨rfl, rfl⟩ := heq
      rcases List.mem_append.mp hframe with hold | hnew
      · exact horigin _ _ frame hold
      · rw [List.mem_singleton.mp hnew]
        exact ⟨message, hlast, rfl, hseq, rfl⟩
    · exact horigin site channelId frame hframe
  · refine List.forall_mem_append.mpr ⟨?_, List.forall_mem_singleton.mpr ?_⟩
    · intro other hother
      obtain ⟨hstores, hlt⟩ := h.own other hother
      obtain ⟨hgrows, hle⟩ := hkept other.site other.channelId
      exact ⟨hstores.mono hgrows, UInt64.lt_of_lt_of_le hlt hle⟩
    · rw [Stores, log, hlog, if_pos ⟨rfl, rfl⟩, hseq]
      refine ⟨⟨_, List.mem_append_right _ List.mem_cons_self, rfl, rfl⟩, ?_⟩
      simp only [ChannelLog.posted]
      grind
  · intro site channelId hwriter
    rw [log, hlog] at hwriter
    split at hwriter
    · rename_i heq
      exact ⟨message, hlast, heq.1.symm, heq.2.symm⟩
    · obtain ⟨origin, horigin, hfields⟩ := h.writer site channelId hwriter
      exact ⟨origin, List.mem_append_left _ horigin, hfields⟩
  · intro site channelId hall
    rw [log, hlog]
    split
    · have hsucc : ((world.log message.site message.channelId).nextSeq + 1).toNat =
          (world.log message.site message.channelId).nextSeq.toNat + 1 := by
        rw [UInt64.toNat_add]
        exact Nat.mod_eq_of_lt (toNat_succ_lt hfits)
      simp only [ChannelLog.posted, List.length_append, List.length_singleton, hsucc]
      omega
    · exact h.gapless site channelId fun other hother => hall other (List.mem_append_left _ hother)
  · intro other hother
    obtain ⟨hmem, hstores⟩ := h.received other hother
    exact ⟨List.mem_append_left _ hmem, hstores.mono (hkept _ _).1⟩

/-- What a delivery does to the log of the channel at the receiving relay. -/
structure Folds (log log' : ChannelLog) (seq : UInt64) (blob : Bytes) : Prop where
  writer : log'.localWriter = true → log.localWriter = true
  grows : ∀ frame ∈ log.entries, frame ∈ log'.entries
  only : ∀ frame ∈ log'.entries, frame ∈ log.entries ∨ frame.seq = seq ∧ frame.blob = blob
  held : ∃ frame ∈ log'.entries, frame.seq = seq ∧ frame.blob = blob

theorem folds_same {log : ChannelLog} {seq : UInt64} {blob : Bytes}
    (hheld : ∃ frame ∈ log.entries, frame.seq = seq ∧ frame.blob = blob) :
    Folds log log seq blob where
  writer := id
  grows := fun _ hframe => hframe
  only := fun _ hframe => Or.inl hframe
  held := hheld

theorem folds_folded (log : ChannelLog) (frame : Frame) :
    Folds log (log.folded frame) frame.seq frame.blob where
  writer := fun hwriter => by cases hwriter
  grows := fun _ hold => mem_insertFrame.mpr (Or.inr hold)
  only := by
    intro other hother
    rcases mem_insertFrame.mp hother with rfl | hold
    · exact Or.inr ⟨rfl, rfl⟩
    · exact Or.inl hold
  held := ⟨frame, mem_insertFrame.mpr (Or.inl rfl), rfl, rfl⟩

/-- The receiving relay does not number the channel itself. -/
theorem Agreed.follower (h : world.Agreed S ledger rosters) (hmessage : message ∈ world.posted) :
    (world.log message.site.other message.channelId).localWriter = false := by
  by_contra hwriter
  obtain ⟨other, hother, hsite, hchannel⟩ :=
    h.writer _ _ (Bool.eq_true_of_not_eq_false hwriter)
  have hsame := h.single other hother message hmessage hchannel
  exact message.site.other_ne (hsite.symm.trans hsame)

/-- The channel's log at the receiving relay takes the frame, and no other log changes. -/
theorem Agreed.ingest (h : world.Agreed S ledger rosters) (nowMs : UInt64)
    (hmessage : message ∈ world.posted) (hop : world.OneWriter (.deliver message nowMs)) :
    let store := world.store message.site.other
    let store' := (store.ingestGossipedChannelFrame S message.channelId message.seq message.blob
      message.identity message.sig nowMs).2
    (store'.ledger = store.ledger ∧ store'.rosters = store.rosters) ∧
      (∀ channelId, channelId ≠ message.channelId → store'.log channelId = store.log channelId) ∧
      Folds (store.log message.channelId) (store'.log message.channelId) message.seq
        message.blob := by
  intro store store'
  obtain ⟨hsize, hsig, hmember⟩ := h.admitted message hmessage
  obtain ⟨hledger, hrosters⟩ := h.shared message.site.other
  rw [← hledger] at hsig
  rw [← hrosters] at hmember
  have hfollower : (store.log message.channelId).localWriter = false := h.follower hmessage
  simp only [store', ingestGossipedChannelFrame]
  split
  · -- without room for the frame, it is there already
    rename_i hrefused
    rcases hop with hheld | ⟨-, hfull, hbytes⟩
    · exact ⟨⟨rfl, rfl⟩, fun _ _ => rfl, folds_same hheld⟩
    · exact absurd ⟨hsize, verifyChannelPostSig_eq_ok.mpr hsig, hmember, hfull, hbytes⟩ hrefused
  split
  · rename_i hours
    rw [hfollower] at hours
    cases hours.1
  split
  · rename_i hany
    obtain ⟨frame, hframe, hseq⟩ := List.any_eq_true.mp hany
    obtain ⟨origin, horigin, hchannel, horiginSeq, horiginBlob⟩ :=
      h.origin message.site.other message.channelId frame hframe
    have hblob := h.distinct origin horigin message hmessage hchannel
      (horiginSeq.trans (of_decide_eq_true hseq))
    refine ⟨⟨rfl, rfl⟩, ?_, ?_⟩
    · intro channelId hne
      rw [log_insert, if_neg hne]
    · rw [log_insert, if_pos rfl]
      have hsame : ({ store.log message.channelId with localWriter := false } : ChannelLog) =
          store.log message.channelId := by rw [← hfollower]
      rw [hsame]
      exact folds_same ⟨frame, hframe, of_decide_eq_true hseq, horiginBlob.symm.trans hblob⟩
  · rename_i hnone
    have hroom : (store.log message.channelId).entries.length < maxChannelEntries := by
      rcases hop with ⟨frame, hframe, hseq, -⟩ | ⟨hroom, -⟩
      · exact absurd (List.any_eq_true.mpr ⟨frame, hframe, decide_eq_true hseq⟩) hnone
      · exact hroom
    refine ⟨⟨rfl, rfl⟩, ?_, ?_⟩
    · intro channelId hne
      rw [keep, log_insert, if_neg hne]
    · rw [keep, log_insert, if_pos rfl, folded_trimmed hroom]
      exact folds_folded _ _

theorem Agreed.deliver (h : world.Agreed S ledger rosters) {store : Site → ChannelStore}
    (hmessage : message ∈ world.posted)
    (hshared : ∀ site, (store site).ledger = ledger ∧ (store site).rosters = rosters)
    (hothers : ∀ site channelId, ¬ (site = message.site.other ∧ channelId = message.channelId) →
      (store site).log channelId = world.log site channelId)
    (hfolds : Folds (world.log message.site.other message.channelId)
      ((store message.site.other).log message.channelId) message.seq message.blob) :
    Agreed S ledger rosters { world with store, delivered := world.delivered ++ [message] } := by
  have hgrows : ∀ site channelId, ∀ frame ∈ (world.log site channelId).entries,
      frame ∈ ((store site).log channelId).entries := by
    intro site channelId frame hframe
    by_cases hhere : site = message.site.other ∧ channelId = message.channelId
    · obtain ⟨rfl, rfl⟩ := hhere
      exact hfolds.grows frame hframe
    · rw [hothers site channelId hhere]
      exact hframe
  -- the posts of this channel were made at the other relay
  have helse : ∀ other ∈ world.posted, ¬ (other.site = message.site.other ∧
      other.channelId = message.channelId) := by
    intro other hother hhere
    have hsame := h.single other hother message hmessage hhere.2
    exact message.site.other_ne (hhere.1.symm.trans hsame)
  refine ⟨hshared, h.admitted, h.single, h.distinct, ?_, ?_, ?_, ?_,
    List.forall_mem_append.mpr ⟨?_, List.forall_mem_singleton.mpr ?_⟩⟩
  · intro site channelId frame hframe
    by_cases hhere : site = message.site.other ∧ channelId = message.channelId
    · obtain ⟨rfl, rfl⟩ := hhere
      rcases hfolds.only frame hframe with hold | ⟨hseq, hblob⟩
      · exact h.origin _ _ frame hold
      · exact ⟨message, hmessage, rfl, hseq.symm, hblob.symm⟩
    · rw [log, hothers site channelId hhere] at hframe
      exact h.origin site channelId frame hframe
  · intro other hother
    obtain ⟨hstores, hlt⟩ := h.own other hother
    rw [log, hothers _ _ (helse other hother)]
    exact ⟨hstores.mono (hgrows _ _), hlt⟩
  · intro site channelId hwriter
    by_cases hhere : site = message.site.other ∧ channelId = message.channelId
    · obtain ⟨rfl, rfl⟩ := hhere
      exact h.writer _ _ (hfolds.writer hwriter)
    · rw [log, hothers site channelId hhere] at hwriter
      exact h.writer site channelId hwriter
  · intro site channelId hall
    have hhere : ¬ (site = message.site.other ∧ channelId = message.channelId) := by
      rintro ⟨rfl, rfl⟩
      exact message.site.other_ne (hall message hmessage rfl).symm
    rw [log, hothers site channelId hhere]
    exact h.gapless site channelId hall
  · intro other hother
    obtain ⟨hmem, hstores⟩ := h.received other hother
    exact ⟨hmem, hstores.mono (hgrows _ _)⟩
  · exact ⟨hmessage, hfolds.held⟩

theorem log_keep_posted {store : ChannelStore} (blob : Bytes) (nowMs : UInt64)
    (hroom : (store.log channelId).entries.length < maxChannelEntries) (target : Hash) :
    (store.keep channelId ((store.log channelId).posted blob nowMs) blob.length).log target =
      if target = channelId then (store.log channelId).posted blob nowMs
      else store.log target := by
  rw [keep, log_insert, posted_trimmed hroom]

theorem shared_update (h : world.Agreed S ledger rosters) {site : Site} {store : ChannelStore}
    (hstore : store.ledger = ledger ∧ store.rosters = rosters) (other : Site) :
    (Function.update world.store site store other).ledger = ledger ∧
      (Function.update world.store site store other).rosters = rosters :=
  (Function.forall_update_iff _ fun _ (store : ChannelStore) =>
    store.ledger = ledger ∧ store.rosters = rosters).mpr ⟨hstore, fun other _ => h.shared other⟩ _

theorem Agreed.step_post (h : world.Agreed S ledger rosters) {site : Site} {limited : Bool}
    {blob : Bytes} {identity : Hash} {sig : Signature} {nowMs : UInt64}
    (hop : world.OneWriter (.post site limited channelId blob identity sig nowMs)) :
    (world.step S (.post site limited channelId blob identity sig nowMs)).Agreed S ledger
      rosters := by
  obtain ⟨hsite, hroom⟩ := hop
  rw [Federation.step, call_postToChannel]
  cases hcheck : (world.store site).checkPost S limited channelId blob identity sig with
  | error reason =>
    dsimp only
    rw [Function.update_eq_self]
    exact h
  | ok u =>
    obtain ⟨hsize, hsig, ⟨roster, hroster, hmember⟩, -⟩ := checkPost_eq_ok hcheck
    obtain ⟨hledger, hrosters⟩ := h.shared site
    apply h.post
      ⟨site, channelId, ((world.store site).log channelId).nextSeq, blob, identity, sig⟩ nowMs
    · exact shared_update h ⟨hledger, hrosters⟩
    · intro other target
      by_cases hother : other = site
      · subst hother
        rw [Function.update_self, log_keep_posted blob nowMs hroom]
        simp only [true_and]
        rfl
      · rw [Function.update_of_ne hother, if_neg fun heq => hother heq.1]
        rfl
    · refine ⟨hsize, ?_, ?_⟩
      · rw [← hledger]
        exact verifyChannelPostSig_eq_ok.mp hsig
      · intro held hheld
        rw [← hrosters, hroster] at hheld
        cases hheld
        exact hmember
    · rfl
    · exact hsite
    · exact hroom

theorem Agreed.step_deliver (h : world.Agreed S ledger rosters) {nowMs : UInt64}
    (hop : world.OneWriter (.deliver message nowMs)) :
    (world.step S (.deliver message nowMs)).Agreed S ledger rosters := by
  rw [Federation.step]
  split
  · rename_i hmessage
    obtain ⟨⟨hledger, hrosters⟩, hothers, hfolds⟩ := h.ingest nowMs hmessage hop
    apply h.deliver hmessage
    · apply shared_update h
      rw [hledger, hrosters]
      exact h.shared message.site.other
    · intro site channelId helse
      by_cases hsite : site = message.site.other
      · subst hsite
        rw [Function.update_self]
        exact hothers channelId fun hchannel => helse ⟨rfl, hchannel⟩
      · rw [Function.update_of_ne hsite]
        rfl
    · rw [Function.update_self]
      exact hfolds
  · exact h

theorem Agreed.step (h : world.Agreed S ledger rosters) {op : Op} (hop : world.OneWriter op) :
    (world.step S op).Agreed S ledger rosters := by
  cases op with
  | post site limited channelId blob identity sig nowMs => exact h.step_post hop
  | deliver message nowMs => exact h.step_deliver hop

end Federation

def sampleFederatedPost (site : Site) (blob : Bytes) (nowMs : UInt64) : Federation.Op :=
  .post site false sampleChannel blob sampleMember (samplePostSig sampleChannel blob) nowMs

def samplePosted (site : Site) (seq : UInt64) (blob : Bytes) : Posted where
  site := site
  channelId := sampleChannel
  seq := seq
  blob := blob
  identity := sampleMember
  sig := samplePostSig sampleChannel blob

def sampleFederation : Federation := .start sampleLedger sampleStore.rosters fun _ => 1000

end Dante.Relay
