import Dante.Core.ChannelReading

/-!
Who may edit, delete and pin a channel message. The author of a message is recorded when
the message is first read, from the relay's log or from a peer's gossip, and an edit
counts if it comes from the recorded author.
-/

namespace Dante.Core

open Crypto Dm

namespace ChannelEngine

variable {M : Mls} (engine : ChannelEngine M)

/-- The edit is by the recorded author of a message that is not deleted. -/
def acceptsEdit (e : PendingEdit) : Bool :=
  (engine.editOf e.channelId e.targetSeq).any fun entry => entry.author = e.who && !entry.deleted

/-- The pin is allowed because of who wrote the message. -/
def pinsAsAuthor (p : PendingPin) : Bool :=
  !engine.isHost p.channelId p.who && engine.isAuthor p.channelId p.targetSeq p.who

def beforeEdits (pending : Pending) : ChannelEngine M :=
  pending.newReacts.foldl recordReaction (pending.evicted.foldl evictChannel engine)

variable (P : Primitives) (S : Suite) (nowMs : UInt64) (visits : List Visit)

def editsBy : List PendingEdit :=
  match (Reading.start engine).readChannels P S nowMs visits with
  | (some _, _) => []
  | (none, reading) =>
    Steps.marked applyChannelEdit acceptsEdit (reading.engine.beforeEdits reading.pending)
      reading.pending.pendingEdits

def pinsBy : List PendingPin :=
  match (Reading.start engine).readChannels P S nowMs visits with
  | (some _, _) => []
  | (none, reading) =>
    Steps.marked (fun engine p => engine.applyChannelPin p nowMs) pinsAsAuthor
      (reading.pending.pendingEdits.foldl applyChannelEdit
        (reading.engine.beforeEdits reading.pending))
      reading.pending.pendingPins

end ChannelEngine

/-- The client with the edits and pins that have taken effect, oldest first. -/
structure Thread (M : Mls) where
  engine : ChannelEngine M
  edits : List PendingEdit
  pins : List PendingPin

/-- The author of the text message that a frame stands for. -/
def authorOf (P : Primitives) (said : Bytes → Option (Bytes × Bytes))
    (session : ChannelInfo × Option Key) (channelId : ChannelId) (seq : UInt64) (blob : Bytes) :
    Option Hash :=
  match saidBy P said session.1 session.2 channelId seq blob with
  | some (.message m) => some m.sender
  | _ => none

def loggedAuthor (P : Primitives) (said : Bytes → Option (Bytes × Bytes)) {M : Mls}
    (engine : ChannelEngine M) (log : ChannelId → UInt64 → Option Bytes) (channelId : ChannelId)
    (seq : UInt64) : Option Hash := do
  let session ← engine.infoOf channelId
  let blob ← log channelId seq
  authorOf P said session channelId seq blob

/-- Two authors of one message do not differ. -/
def Compatible (writer author : Option Hash) : Prop :=
  writer = none ∨ author = none ∨ writer = author

instance (writer author : Option Hash) : Decidable (Compatible writer author) :=
  inferInstanceAs (Decidable (_ ∨ _ ∨ _))

namespace Thread

inductive Op where
  /-- Any member gossips any frame under any number. -/
  | gossip (frame : ChannelId × UInt64 × Bytes)
  | poll (nowMs : UInt64) (visits : List Visit)

variable (P : Primitives) (S : Suite) {M : Mls} (said : Bytes → Option (Bytes × Bytes))

def start (engine : ChannelEngine M) : Thread M where
  engine := engine
  edits := []
  pins := []

def step (world : Thread M) : Op → Thread M
  | .gossip frame => { world with engine := world.engine.bufferGossip frame }
  | .poll nowMs visits =>
    { engine := (world.engine.pollChannels P S nowMs visits).2
      edits := world.edits ++ world.engine.editsBy P S nowMs visits
      pins := world.pins ++ world.engine.pinsBy P S nowMs visits }

variable (log : ChannelId → UInt64 → Option Bytes)

/-- Each channel is visited once, and the relay answers from its log. -/
def FromLog : Op → Prop
  | .gossip _ => True
  | .poll _ visits =>
    (visits.map Prod.fst).Nodup ∧
      ∀ visit ∈ visits, ∀ rows ∈ visit.2.toOption, ∀ row ∈ rows, log visit.1 row.1 = some row.2

/-- A gossip frame that a poll takes up as a message is by the author of the message that the
relay's log has under its number. -/
def GossipAgrees (world : Thread M) : Op → Prop
  | .gossip _ => True
  | .poll _ visits =>
    ∀ visit ∈ visits, ∀ rows ∈ visit.2.toOption,
      ∀ entry ∈ world.engine.entriesFor visit.1 rows, entry.fromRelay = false →
        ∀ session ∈ world.engine.infoOf visit.1,
          Compatible (authorOf P said session visit.1 entry.seq entry.blob)
            (loggedAuthor P said world.engine log visit.1 entry.seq)

instance (op : Op) : Decidable (FromLog log op) :=
  match op with
  | .gossip _ => isTrue trivial
  | .poll _ _ => inferInstanceAs (Decidable (_ ∧ _))

instance (world : Thread M) (op : Op) : Decidable (world.GossipAgrees P said log op) :=
  match op with
  | .gossip _ => isTrue trivial
  | .poll _ visits =>
    List.decidableBAll (fun visit : Visit => ∀ rows ∈ visit.2.toOption,
      ∀ entry ∈ world.engine.entriesFor visit.1 rows, entry.fromRelay = false →
        ∀ session ∈ world.engine.infoOf visit.1,
          Compatible (authorOf P said session visit.1 entry.seq entry.blob)
            (loggedAuthor P said world.engine log visit.1 entry.seq)) visits

end Thread

section EditOf

variable {M : Mls} {engine : ChannelEngine M}

namespace ChannelEngine

theorem editOf_insert (bySeq : AssocMap UInt64 MsgEdit) (channelId other : ChannelId)
    (seq : UInt64) :
    ({ engine with channelEdits := engine.channelEdits.insert channelId bySeq }).editOf other seq =
      if other = channelId then bySeq.lookup seq else engine.editOf other seq := by
  rw [editOf, editOf]
  dsimp only
  rw [AssocMap.lookup_insert]
  split <;> rfl

theorem editOf_recordAuthor (channelId other : ChannelId) (seq seq' : UInt64) (author : Hash) :
    (engine.recordAuthor channelId seq author).editOf other seq' =
      if other = channelId ∧ seq' = seq then
        some ((engine.editOf channelId seq).getD { author := author, text := none, deleted := false })
      else engine.editOf other seq' := by
  have hbySeq : ∀ seq, ((engine.channelEdits.lookup channelId).getD ∅).lookup seq =
      engine.editOf channelId seq := by
    intro seq
    rw [editOf]
    cases engine.channelEdits.lookup channelId <;> rfl
  rw [recordAuthor, editOf_insert, AssocMap.lookup_insert, hbySeq, hbySeq]
  by_cases hchannel : other = channelId
  · subst hchannel
    simp
  · simp [hchannel]

theorem editOf_applyChannelEdit (e : PendingEdit) (other : ChannelId) (seq : UInt64) :
    (engine.applyChannelEdit e).editOf other seq =
      if other = e.channelId ∧ seq = e.targetSeq ∧ engine.acceptsEdit e = true then
        some { author := e.who, text := e.newText, deleted := e.newText.isNone }
      else engine.editOf other seq := by
  rw [applyChannelEdit, acceptsEdit]
  cases hchannel : engine.channelEdits.lookup e.channelId with
  | none =>
    have hnone : engine.editOf e.channelId e.targetSeq = none := by
      rw [editOf, hchannel, Option.bind_none]
    simp [hnone]
  | some bySeq =>
    have heq : ∀ seq, engine.editOf e.channelId seq = bySeq.lookup seq := by
      intro seq
      rw [editOf, hchannel, Option.bind_some]
    dsimp only
    rw [heq]
    cases hentry : bySeq.lookup e.targetSeq with
    | none => simp
    | some entry =>
      by_cases hby : entry.author ≠ e.who ∨ entry.deleted = true
      · have hrefused : (decide (entry.author = e.who) && !entry.deleted) = false := by
          rcases hby with hne | hdeleted
          · simp [hne]
          · simp [hdeleted]
        simp [hby, hrefused]
      · obtain ⟨hauthor, hkept⟩ := not_or.mp hby
        have hwho : entry.author = e.who := not_not.mp hauthor
        have haccepted : (decide (entry.author = e.who) && !entry.deleted) = true := by
          simp [hwho, hkept]
        dsimp only
        rw [if_neg hby, editOf]
        dsimp only
        rw [AssocMap.lookup_insert, Option.any_some, haccepted]
        by_cases hother : other = e.channelId
        · subst hother
          simp only [if_true, Option.bind_some, AssocMap.lookup_insert, true_and, and_true, heq, hwho]
        · simp [hother, editOf]

/-- Trimming drops no entry with an edit or a delete. -/
theorem lookup_trimEditMap (bySeq : AssocMap UInt64 MsgEdit) (cap : Nat) (seq : UInt64) :
    (trimEditMap bySeq cap).lookup seq = bySeq.lookup seq ∨
      (trimEditMap bySeq cap).lookup seq = none ∧
        ∃ entry, bySeq.lookup seq = some entry ∧ entry.authorshipOnly = true := by
  obtain ⟨victims, kept, -, hperm, -, hlookup⟩ := exists_victims bySeq cap
  rw [hlookup]
  split
  · rename_i hvictim
    exact Or.inr ⟨rfl, mem_idleSeqs.mp (hperm.mem_iff.mp (List.mem_append_left kept hvictim))⟩
  · exact Or.inl rfl

theorem editOf_trimChannelEdits (channelId other : ChannelId) (seq : UInt64) :
    (engine.trimChannelEdits channelId).editOf other seq = engine.editOf other seq ∨
      (engine.trimChannelEdits channelId).editOf other seq = none ∧
        ∃ entry, engine.editOf other seq = some entry ∧ entry.authorshipOnly = true := by
  rw [trimChannelEdits]
  cases hlookup : engine.channelEdits.lookup channelId with
  | none => exact Or.inl rfl
  | some bySeq =>
    dsimp only
    rw [editOf_insert]
    split
    · rename_i heq
      have hold : engine.editOf other seq = bySeq.lookup seq := by
        rw [editOf, heq, hlookup, Option.bind_some]
      rw [hold]
      exact lookup_trimEditMap bySeq _ seq
    · exact Or.inl rfl

/-- A change that makes no entry, changes no author and no deleted message. -/
structure KeepsEdits (before after : ChannelEngine M) : Prop where
  author : ∀ channelId seq entry, after.editOf channelId seq = some entry →
    ∃ old, before.editOf channelId seq = some old ∧ old.author = entry.author
  deleted : ∀ channelId seq entry, before.editOf channelId seq = some entry →
    entry.deleted = true → after.editOf channelId seq = some entry

theorem KeepsEdits.of_eq {before after : ChannelEngine M}
    (h : ∀ channelId seq, after.editOf channelId seq = before.editOf channelId seq) :
    KeepsEdits before after where
  author := fun channelId seq entry hentry => ⟨entry, (h channelId seq).symm.trans hentry, rfl⟩
  deleted := fun channelId seq _ hentry _ => (h channelId seq).trans hentry

theorem KeepsEdits.trans {first second third : ChannelEngine M} (h : KeepsEdits first second)
    (h' : KeepsEdits second third) : KeepsEdits first third where
  author := by
    intro channelId seq entry hentry
    obtain ⟨middle, hmiddle, hsame⟩ := h'.author channelId seq entry hentry
    obtain ⟨old, hold, hsame'⟩ := h.author channelId seq middle hmiddle
    exact ⟨old, hold, hsame'.trans hsame⟩
  deleted := by
    intro channelId seq entry hentry hdeleted
    exact h'.deleted channelId seq entry (h.deleted channelId seq entry hentry hdeleted) hdeleted

theorem keepsEdits_foldl {β : Type} {f : ChannelEngine M → β → ChannelEngine M}
    (hf : ∀ engine b, KeepsEdits engine (f engine b)) (xs : List β) (engine : ChannelEngine M) :
    KeepsEdits engine (xs.foldl f engine) := by
  induction xs generalizing engine with
  | nil => exact .of_eq fun _ _ => rfl
  | cons x rest ih => exact (hf engine x).trans (ih _)

theorem author_of_acceptsEdit {e : PendingEdit} (h : engine.acceptsEdit e = true) :
    ∃ entry, engine.editOf e.channelId e.targetSeq = some entry ∧ entry.author = e.who ∧
      entry.deleted = false := by
  rw [acceptsEdit, Option.any_eq_true] at h
  obtain ⟨entry, hentry, haccepts⟩ := h
  simp only [Bool.and_eq_true, decide_eq_true_eq, Bool.not_eq_true'] at haccepts
  exact ⟨entry, hentry, haccepts⟩

theorem keepsEdits_applyChannelEdit (engine : ChannelEngine M) (e : PendingEdit) :
    KeepsEdits engine (engine.applyChannelEdit e) := by
  by_cases haccepts : engine.acceptsEdit e = true
  · obtain ⟨entry, hentry, hauthor, hkept⟩ := author_of_acceptsEdit haccepts
    constructor
    · intro channelId seq after hafter
      rw [editOf_applyChannelEdit] at hafter
      split at hafter
      · rename_i htarget
        obtain ⟨rfl, rfl, -⟩ := htarget
        cases hafter
        exact ⟨entry, hentry, hauthor⟩
      · exact ⟨after, hafter, rfl⟩
    · intro channelId seq old hold hdeleted
      rw [editOf_applyChannelEdit, if_neg]
      · exact hold
      · rintro ⟨rfl, rfl, -⟩
        cases hentry.symm.trans hold
        rw [hkept] at hdeleted
        cases hdeleted
  · apply KeepsEdits.of_eq
    intro channelId seq
    rw [editOf_applyChannelEdit, if_neg]
    exact fun htarget => haccepts htarget.2.2

theorem editOf_applyChannelPin (p : PendingPin) (atMs : UInt64) (channelId : ChannelId)
    (seq : UInt64) :
    (engine.applyChannelPin p atMs).editOf channelId seq = engine.editOf channelId seq := by
  rw [applyChannelPin]
  dsimp only
  repeat' split
  all_goals rfl

theorem editOf_pushChannelHistory (line : ChannelHistoryEntry) (channelId : ChannelId)
    (seq : UInt64) :
    (engine.pushChannelHistory line).editOf channelId seq = engine.editOf channelId seq := by
  simp only [pushChannelHistory, editOf]

theorem keepsEdits_trimChannelEdits (engine : ChannelEngine M) (channelId : ChannelId) :
    KeepsEdits engine (engine.trimChannelEdits channelId) := by
  constructor
  · intro other seq entry hentry
    rcases engine.editOf_trimChannelEdits channelId other seq with heq | ⟨hnone, -⟩
    · exact ⟨entry, heq.symm.trans hentry, rfl⟩
    · rw [hnone] at hentry
      cases hentry
  · intro other seq entry hentry hdeleted
    rcases engine.editOf_trimChannelEdits channelId other seq with heq | ⟨-, old, hold, hauthor⟩
    · exact heq.trans hentry
    · cases hold.symm.trans hentry
      rw [MsgEdit.authorshipOnly, hdeleted, Bool.not_true, Bool.and_false] at hauthor
      cases hauthor

theorem keepsEdits_beforeEdits (pending : Pending) :
    KeepsEdits engine (engine.beforeEdits pending) := by
  have hevict : ∀ (engine : ChannelEngine M) row, KeepsEdits engine (engine.evictChannel row) :=
    fun _ _ => .of_eq fun _ _ => rfl
  have hreact : ∀ (engine : ChannelEngine M) r, KeepsEdits engine (engine.recordReaction r) :=
    fun _ _ => .of_eq fun _ _ => rfl
  exact (keepsEdits_foldl hevict pending.evicted engine).trans
    (keepsEdits_foldl hreact pending.newReacts _)

/-- The fold after the edits: pins, history and trimming. -/
theorem keepsEdits_afterEdits (pending : Pending) (nowMs : UInt64) :
    KeepsEdits (pending.pendingEdits.foldl applyChannelEdit (engine.beforeEdits pending))
      (engine.foldPending pending nowMs) := by
  have hpin : ∀ (engine : ChannelEngine M) p, KeepsEdits engine (engine.applyChannelPin p nowMs) :=
    fun _ p => .of_eq fun _ _ => editOf_applyChannelPin p nowMs _ _
  have hpush : ∀ (engine : ChannelEngine M) line,
      KeepsEdits engine (engine.pushChannelHistory line) :=
    fun _ line => .of_eq fun _ _ => editOf_pushChannelHistory line _ _
  rw [foldPending]
  refine .trans (keepsEdits_foldl hpin pending.pendingPins _)
    (.trans ?_ (keepsEdits_foldl keepsEdits_trimChannelEdits pending.editsTouched _))
  split
  · exact .of_eq fun _ _ => rfl
  · exact keepsEdits_foldl hpush pending.newHistory _

def Deleted (engine : ChannelEngine M) (e : PendingEdit) : Prop :=
  ∃ entry, engine.editOf e.channelId e.targetSeq = some entry ∧ entry.deleted = true

theorem KeepsEdits.kept_deleted {before after : ChannelEngine M} (h : KeepsEdits before after)
    {e : PendingEdit} (hdeleted : before.Deleted e) : after.Deleted e := by
  obtain ⟨entry, hentry, hflag⟩ := hdeleted
  exact ⟨entry, h.deleted _ _ entry hentry hflag, hflag⟩

/-- After a delete there is no change to the message. -/
def Follows (e e' : PendingEdit) : Prop :=
  e.newText = none → ¬ (e'.channelId = e.channelId ∧ e'.targetSeq = e.targetSeq)

theorem deleted_of_accepted_delete {e : PendingEdit} (haccepts : engine.acceptsEdit e = true)
    (hdelete : e.newText = none) : (engine.applyChannelEdit e).Deleted e := by
  refine ⟨{ author := e.who, text := e.newText, deleted := e.newText.isNone }, ?_, ?_⟩
  · rw [editOf_applyChannelEdit, if_pos ⟨rfl, rfl, haccepts⟩]
  · simp [hdelete]

/-- No edit of a deleted message takes effect. -/
theorem not_deleted_of_marked (es : List PendingEdit) :
    ∀ e ∈ Steps.marked applyChannelEdit acceptsEdit engine es, ¬ engine.Deleted e := by
  refine Steps.forall_marked (KeepsEdits engine) ?_ ?_ ?_
  · exact fun later e hkeeps => hkeeps.trans (keepsEdits_applyChannelEdit later e)
  · intro later e hkeeps haccepts hdeleted
    obtain ⟨entry, hentry, hflag⟩ := hkeeps.kept_deleted hdeleted
    obtain ⟨entry', hentry', -, hkept⟩ := author_of_acceptsEdit haccepts
    cases hentry.symm.trans hentry'
    rw [hflag] at hkept
    cases hkept
  · exact .of_eq fun _ _ => rfl

theorem deleted_of_marked (es : List PendingEdit) (engine : ChannelEngine M) :
    ∀ e ∈ Steps.marked applyChannelEdit acceptsEdit engine es, e.newText = none →
      (es.foldl applyChannelEdit engine).Deleted e := by
  induction es generalizing engine with
  | nil => exact fun e he => by cases he
  | cons first rest ih =>
    intro e he hdelete
    rcases Steps.mem_marked_cons.mp he with ⟨haccepts, rfl⟩ | hlater
    · exact (keepsEdits_foldl keepsEdits_applyChannelEdit rest _).kept_deleted
        (deleted_of_accepted_delete haccepts hdelete)
    · exact ih _ e hlater hdelete

theorem follows_of_deleted {e e' : PendingEdit} (hdeleted : e.newText = none → engine.Deleted e)
    (hkept : ¬ engine.Deleted e') : Follows e e' := by
  rintro hdelete ⟨hchannel, hseq⟩
  obtain ⟨entry, hentry, hflag⟩ := hdeleted hdelete
  exact hkept ⟨entry, by rw [hchannel, hseq, hentry], hflag⟩

theorem pairwise_marked (es : List PendingEdit) (engine : ChannelEngine M) :
    (Steps.marked applyChannelEdit acceptsEdit engine es).Pairwise Follows := by
  induction es generalizing engine with
  | nil => exact List.Pairwise.nil
  | cons first rest ih =>
    rw [Steps.marked]
    split
    · rename_i haccepts
      apply List.pairwise_cons.mpr ⟨_, ih _⟩
      intro e he
      exact follows_of_deleted (deleted_of_accepted_delete haccepts)
        (not_deleted_of_marked rest e he)
    · exact ih _

end ChannelEngine

end EditOf

namespace Reading

variable {M : Mls} {P : Primitives} {S : Suite} {said : Bytes → Option (Bytes × Bytes)}
  {reading : Reading M} {nowMs : UInt64} {channelId : ChannelId} {entry : LogEntry}

theorem EntryStep.editOf {reading' : Reading M}
    (h : EntryStep P said reading nowMs channelId entry reading') (other : ChannelId)
    (seq : UInt64) :
    reading'.engine.editOf other seq = reading.engine.editOf other seq ∨
      other = channelId ∧ seq = entry.seq ∧ reading.engine.editOf other seq = none ∧
        ∃ session m, reading.engine.infoOf channelId = some session ∧
          saidBy P said session.1 session.2 channelId entry.seq entry.blob = some (.message m) ∧
          reading'.engine.editOf other seq =
            some { author := m.sender, text := none, deleted := false } := by
  cases h with
  | absent => exact Or.inl rfl
  | moved hlookup hinfo => exact Or.inl rfl
  | evicted hlookup hinfo row => exact Or.inl rfl
  | @read ch ch' hlookup hinfo event hevent =>
    cases event with
    | reaction r => exact Or.inl rfl
    | edit e => exact Or.inl rfl
    | pin p => exact Or.inl rfl
    | message m =>
      obtain ⟨hchannel, hseq⟩ := message_of_saidBy hevent
      have hsame : ((reading.withSession channelId ch').takeEvent nowMs entry.fromRelay
          (.message m)).engine.editOf other seq =
            (reading.engine.recordAuthor m.channelId m.seq m.sender).editOf other seq := rfl
      have hold : reading.engine.infoOf channelId = some (ch.info, ch.logKey) := by
        rw [ChannelEngine.infoOf, hlookup, Option.map_some]
      dsimp only
      rw [hsame, ChannelEngine.editOf_recordAuthor, hchannel, hseq]
      split
      · rename_i htarget
        obtain ⟨rfl, rfl⟩ := htarget
        cases hbefore : reading.engine.editOf other entry.seq with
        | some old => exact Or.inl rfl
        | none => exact Or.inr ⟨rfl, rfl, rfl, _, m, hold, hevent, rfl⟩
      · exact Or.inl rfl

end Reading

namespace Thread

variable {P : Primitives} {S : Suite} {M : Mls} {said : Bytes → Option (Bytes × Bytes)}
  {log : ChannelId → UInt64 → Option Bytes} {first engine : ChannelEngine M} {world : Thread M}
variable {channelId : ChannelId}

/-- The sessions are those of the start, and every recorded author is the one of the relay's log. -/
structure Recorded (P : Primitives) (said : Bytes → Option (Bytes × Bytes))
    (log : ChannelId → UInt64 → Option Bytes) (first engine : ChannelEngine M) : Prop where
  info : ∀ channelId,
    engine.infoOf channelId = first.infoOf channelId ∨ engine.infoOf channelId = none
  author : ∀ channelId seq entry, engine.editOf channelId seq = some entry →
    ∀ author ∈ loggedAuthor P said first log channelId seq, entry.author = author

theorem Recorded.loggedAuthor_eq (h : Recorded P said log first engine)
    {session : ChannelInfo × Option Key} (hsession : engine.infoOf channelId = some session)
    (seq : UInt64) :
    loggedAuthor P said engine log channelId seq = loggedAuthor P said first log channelId seq := by
  have hsame : engine.infoOf channelId = first.infoOf channelId := by
    rcases h.info channelId with hsame | hnone
    · exact hsame
    · rw [hnone] at hsession
      cases hsession
  rw [loggedAuthor, loggedAuthor, hsame]

theorem Recorded.keepsEdits (h : Recorded P said log first engine) {after : ChannelEngine M}
    (hkeeps : ChannelEngine.KeepsEdits engine after)
    (hinfo : ∀ channelId,
      after.infoOf channelId = engine.infoOf channelId ∨ after.infoOf channelId = none) :
    Recorded P said log first after where
  info := by
    intro channelId
    rcases hinfo channelId with hsame | hnone
    · rw [hsame]
      exact h.info channelId
    · exact Or.inr hnone
  author := by
    intro channelId seq entry hentry author hauthor
    obtain ⟨old, hold, hsame⟩ := hkeeps.author channelId seq entry hentry
    exact hsame.symm.trans (h.author channelId seq old hold author hauthor)

theorem authorOf_eq {session : ChannelInfo × Option Key} {seq : UInt64} {blob : Bytes}
    {m : ChannelMessage}
    (h : saidBy P said session.1 session.2 channelId seq blob = some (.message m)) :
    authorOf P said session channelId seq blob = some m.sender := by
  rw [authorOf, h]

/-- Reading one entry: the relay's copy has the author of the log, and so has a gossip frame that
agrees with it. -/
theorem Recorded.entryStep {reading reading' : Reading M} {nowMs : UInt64} {entry : LogEntry}
    (h : Recorded P said log first reading.engine)
    (hstep : Reading.EntryStep P said reading nowMs channelId entry reading')
    (hagrees : ∀ session, reading.engine.infoOf channelId = some session →
      Compatible (authorOf P said session channelId entry.seq entry.blob)
        (loggedAuthor P said reading.engine log channelId entry.seq)) :
    Recorded P said log first reading'.engine where
  info := by
    intro other
    rw [hstep.infoOf other]
    exact h.info other
  author := by
    intro other seq after hafter author hauthor
    rcases hstep.editOf other seq with hsame | ⟨rfl, rfl, -, session, m, hsession, hsays, hnew⟩
    · exact h.author other seq after (hsame.symm.trans hafter) author hauthor
    · cases hnew.symm.trans hafter
      rw [← h.loggedAuthor_eq hsession] at hauthor
      have hcompatible := hagrees session hsession
      rw [authorOf_eq hsays, Option.mem_def.mp hauthor] at hcompatible
      rcases hcompatible with hnone | hnone | hsame
      · cases hnone
      · cases hnone
      · exact Option.some.inj hsame

theorem infoOf_evictChannel (rows : List (ChannelId × Key × String)) (engine : ChannelEngine M)
    (channelId : ChannelId) :
    (rows.foldl ChannelEngine.evictChannel engine).infoOf channelId = engine.infoOf channelId ∨
      (rows.foldl ChannelEngine.evictChannel engine).infoOf channelId = none := by
  induction rows generalizing engine with
  | nil => exact Or.inl rfl
  | cons row rest ih =>
    rcases ih (engine.evictChannel row) with hsame | hnone
    · rw [List.foldl_cons, hsame, ChannelEngine.infoOf, ChannelEngine.infoOf,
        ChannelEngine.evictChannel]
      dsimp only
      by_cases heq : channelId = row.1
      · rw [heq, AList.lookup_erase]
        exact Or.inr rfl
      · rw [AList.lookup_erase_ne heq]
        exact Or.inl rfl
    · exact Or.inr hnone

theorem infoOf_foldPending (pending : Pending) (nowMs : UInt64) (channelId : ChannelId) :
    (engine.foldPending pending nowMs).infoOf channelId = engine.infoOf channelId ∨
      (engine.foldPending pending nowMs).infoOf channelId = none := by
  have hreact : ∀ (engine : ChannelEngine M) r,
      (engine.recordReaction r).infoOf channelId = engine.infoOf channelId := fun _ _ => rfl
  rw [ChannelEngine.foldPending_keeps engine (fun engine => engine.infoOf channelId)
    (fun _ _ _ => rfl) (fun _ _ _ => rfl) (fun _ _ => rfl),
    Steps.foldl_keeps (fun engine : ChannelEngine M => engine.infoOf channelId) hreact]
  exact infoOf_evictChannel pending.evicted engine channelId

theorem Recorded.readChannels (h : Recorded P said log first world.engine) (hsaid : Authentic M said)
    {nowMs : UInt64} {visits : List Visit} (hlog : FromLog log (.poll nowMs visits))
    (hagrees : world.GossipAgrees P said log (.poll nowMs visits)) :
    let reading := ((Reading.start world.engine).readChannels P S nowMs visits).2
    Recorded P said log first reading.engine ∧
      ∀ e, world.engine.Deleted e → reading.engine.Deleted e := by
  let motive := fun reading : Reading M => Recorded P said log first reading.engine ∧
    (∀ channelId, reading.engine.infoOf channelId = world.engine.infoOf channelId) ∧
      ∀ e, world.engine.Deleted e → reading.engine.Deleted e
  have hrun : motive ((Reading.start world.engine).readChannels P S nowMs visits).2 := by
    apply Reading.readChannels_induction hsaid motive hlog.1 (fun _ _ _ => rfl)
    · exact fun reading channelId hreading =>
        ⟨⟨hreading.1.info, hreading.1.author⟩, hreading.2.1, hreading.2.2⟩
    · intro visit hvisit rows hrows entry hentry reading reading' hreading hstep
      obtain ⟨hrecorded, hinfo, hdeleted⟩ := hreading
      refine ⟨hrecorded.entryStep hstep ?_, ?_, ?_⟩
      · intro session hsession
        have hlogged : loggedAuthor P said reading.engine log visit.1 entry.seq =
            loggedAuthor P said world.engine log visit.1 entry.seq := by
          rw [loggedAuthor, loggedAuthor, hinfo]
        rcases mem_mergeEntries hentry with ⟨-, hrow⟩ | ⟨hgossip, -⟩
        · -- the relay's own copy
          have hblob := hlog.2 visit hvisit rows hrows _ hrow
          right
          right
          simp [loggedAuthor, hsession, hblob]
        · rw [hlogged]
          exact hagrees visit hvisit rows hrows entry hentry hgossip session
            ((hinfo visit.1).symm.trans hsession)
      · exact fun channelId => (hstep.infoOf channelId).trans (hinfo channelId)
      · intro e he
        obtain ⟨old, hold, hflag⟩ := hdeleted e he
        rcases hstep.editOf e.channelId e.targetSeq with hsame | ⟨-, -, hnone, -⟩
        · exact ⟨old, hsame.trans hold, hflag⟩
        · rw [hnone] at hold
          cases hold
    · exact ⟨h, fun _ => rfl, fun _ he => he⟩
  exact ⟨hrun.1, hrun.2.2⟩

/-- What holds in every state of a run. -/
structure Rightful (P : Primitives) (said : Bytes → Option (Bytes × Bytes))
    (log : ChannelId → UInt64 → Option Bytes) (first : ChannelEngine M) (world : Thread M) :
    Prop where
  recorded : Recorded P said log first world.engine
  edits : ∀ e ∈ world.edits, ∀ author ∈ loggedAuthor P said first log e.channelId e.targetSeq,
    e.who = author
  pins : ∀ p ∈ world.pins, ∀ author ∈ loggedAuthor P said first log p.channelId p.targetSeq,
    p.who = author
  deleted : ∀ e ∈ world.edits, e.newText = none → world.engine.Deleted e
  follows : world.edits.Pairwise ChannelEngine.Follows

theorem Recorded.edits (h : Recorded P said log first engine) (es : List PendingEdit) :
    ∀ e ∈ Steps.marked ChannelEngine.applyChannelEdit ChannelEngine.acceptsEdit engine es,
      ∀ author ∈ loggedAuthor P said first log e.channelId e.targetSeq, e.who = author := by
  refine Steps.forall_marked (Recorded P said log first) ?_ ?_ h
  · intro engine e hengine
    apply hengine.keepsEdits (ChannelEngine.keepsEdits_applyChannelEdit engine e)
    intro channelId
    obtain ⟨edits, queued, heq⟩ := engine.applyChannelEdit_frame e
    rw [heq]
    exact Or.inl rfl
  · intro engine e hengine haccepts author hauthor
    obtain ⟨entry, hentry, hwho, -⟩ := ChannelEngine.author_of_acceptsEdit haccepts
    exact hwho.symm.trans (hengine.author _ _ entry hentry author hauthor)

theorem Recorded.pins (h : Recorded P said log first engine) (nowMs : UInt64)
    (ps : List PendingPin) :
    ∀ p ∈ Steps.marked (fun engine p => engine.applyChannelPin p nowMs) ChannelEngine.pinsAsAuthor
        engine ps,
      ∀ author ∈ loggedAuthor P said first log p.channelId p.targetSeq, p.who = author := by
  refine Steps.forall_marked (Recorded P said log first) ?_ ?_ h
  · intro engine p hengine
    apply hengine.keepsEdits
    · exact .of_eq fun _ _ => ChannelEngine.editOf_applyChannelPin p nowMs _ _
    · intro channelId
      obtain ⟨pins, queued, heq⟩ := engine.applyChannelPin_frame p nowMs
      rw [heq]
      exact Or.inl rfl
  · intro engine p hengine hpins author hauthor
    rw [ChannelEngine.pinsAsAuthor, Bool.and_eq_true, ChannelEngine.isAuthor,
      Option.any_eq_true] at hpins
    obtain ⟨-, entry, hentry, hwho⟩ := hpins
    exact (of_decide_eq_true hwho).symm.trans (hengine.author _ _ entry hentry author hauthor)

theorem Recorded.beforeEdits (h : Recorded P said log first engine) (pending : Pending) :
    Recorded P said log first (engine.beforeEdits pending) := by
  apply h.keepsEdits (ChannelEngine.keepsEdits_beforeEdits pending)
  intro channelId
  have hreact : ∀ (engine : ChannelEngine M) r,
      (engine.recordReaction r).infoOf channelId = engine.infoOf channelId := fun _ _ => rfl
  rw [ChannelEngine.beforeEdits,
    Steps.foldl_keeps (fun engine : ChannelEngine M => engine.infoOf channelId) hreact]
  exact infoOf_evictChannel pending.evicted engine channelId

theorem Recorded.applyEdits (h : Recorded P said log first engine) (es : List PendingEdit) :
    Recorded P said log first (es.foldl ChannelEngine.applyChannelEdit engine) := by
  apply h.keepsEdits
    (ChannelEngine.keepsEdits_foldl ChannelEngine.keepsEdits_applyChannelEdit es engine)
  intro channelId
  have hedit : ∀ (engine : ChannelEngine M) e,
      (engine.applyChannelEdit e).infoOf channelId = engine.infoOf channelId := by
    intro engine e
    obtain ⟨edits, queued, heq⟩ := engine.applyChannelEdit_frame e
    rw [heq]
    rfl
  exact Or.inl
    (Steps.foldl_keeps (fun engine : ChannelEngine M => engine.infoOf channelId) hedit engine es)

theorem Recorded.foldPending (h : Recorded P said log first engine) (pending : Pending)
    (nowMs : UInt64) : Recorded P said log first (engine.foldPending pending nowMs) := by
  apply h.keepsEdits
  · exact (ChannelEngine.keepsEdits_beforeEdits pending).trans
      ((ChannelEngine.keepsEdits_foldl ChannelEngine.keepsEdits_applyChannelEdit _ _).trans
        (ChannelEngine.keepsEdits_afterEdits pending nowMs))
  · exact infoOf_foldPending pending nowMs

theorem Rightful.poll (h : Rightful P said log first world) (hsaid : Authentic M said)
    {nowMs : UInt64} {visits : List Visit} (hlog : FromLog log (.poll nowMs visits))
    (hagrees : world.GossipAgrees P said log (.poll nowMs visits)) :
    Rightful P said log first (world.step P S (.poll nowMs visits)) := by
  obtain ⟨hread, hkept⟩ := h.recorded.readChannels (S := S) hsaid hlog hagrees
  rw [step, ChannelEngine.editsBy, ChannelEngine.pinsBy, ChannelEngine.pollChannels]
  generalize (Reading.start world.engine).readChannels P S nowMs visits = result at hread hkept ⊢
  obtain ⟨failure, reading⟩ := result
  cases failure with
  | some e =>
    dsimp only at hread hkept ⊢
    rw [List.append_nil, List.append_nil]
    exact ⟨hread, h.edits, h.pins, fun e he hdelete => hkept e (h.deleted e he hdelete), h.follows⟩
  | none =>
    dsimp only at hread hkept ⊢
    have hready := hread.beforeEdits reading.pending
    have hmarked := ChannelEngine.deleted_of_marked reading.pending.pendingEdits
      (reading.engine.beforeEdits reading.pending)
    have hold : ∀ e ∈ world.edits, e.newText = none →
        (reading.engine.beforeEdits reading.pending).Deleted e := fun e he hdelete =>
      (ChannelEngine.keepsEdits_beforeEdits reading.pending).kept_deleted
        (hkept e (h.deleted e he hdelete))
    constructor
    case recorded => exact hread.foldPending reading.pending nowMs
    case edits =>
      intro e he
      rcases List.mem_append.mp he with hbefore | hnow
      · exact h.edits e hbefore
      · exact hready.edits _ e hnow
    case pins =>
      intro p hp
      rcases List.mem_append.mp hp with hbefore | hnow
      · exact h.pins p hbefore
      · exact (hready.applyEdits _).pins nowMs _ p hnow
    case deleted =>
      intro e he hdelete
      apply (ChannelEngine.keepsEdits_afterEdits reading.pending nowMs).kept_deleted
      rcases List.mem_append.mp he with hbefore | hnow
      · exact (ChannelEngine.keepsEdits_foldl ChannelEngine.keepsEdits_applyChannelEdit _
          _).kept_deleted (hold e hbefore hdelete)
      · exact hmarked e hnow hdelete
    case follows =>
      apply List.pairwise_append.mpr ⟨h.follows, ChannelEngine.pairwise_marked _ _, _⟩
      intro e he e' he'
      exact ChannelEngine.follows_of_deleted (hold e he) (ChannelEngine.not_deleted_of_marked _ e' he')

theorem Rightful.gossip (h : Rightful P said log first world)
    (frame : ChannelId × UInt64 × Bytes) :
    Rightful P said log first (world.step P S (.gossip frame)) := by
  have hengine : ∃ gossip, world.engine.bufferGossip frame =
      { world.engine with channelGossip := gossip } := by
    rw [ChannelEngine.bufferGossip]
    split
    all_goals exact ⟨_, rfl⟩
  obtain ⟨gossip, heq⟩ := hengine
  rw [step, heq]
  exact ⟨⟨h.recorded.info, h.recorded.author⟩, h.edits, h.pins, h.deleted, h.follows⟩

theorem Rightful.step (h : Rightful P said log first world) (hsaid : Authentic M said) {op : Op}
    (hop : FromLog log op ∧ world.GossipAgrees P said log op) :
    Rightful P said log first (world.step P S op) := by
  cases op with
  | gossip frame => exact h.gossip frame
  | poll nowMs visits => exact h.poll hsaid hop.1 hop.2

end Thread

open Thread

/-- In every run in which the relay answers from its log and each gossip frame that is taken up as
a message has the author of the logged one, no edit, delete or author's pin by anyone else takes
effect, and after a delete none does at all. -/
theorem only_author_edits_run (P : Primitives) (S : Suite) (M : Mls)
    (said : Bytes → Option (Bytes × Bytes)) (hsaid : Authentic M said)
    (log : ChannelId → UInt64 → Option Bytes) (engine : ChannelEngine M)
    (hnew : engine.channelEdits = ∅) (ops : List Thread.Op)
    (hlog : ∀ op ∈ ops, FromLog log op)
    (hagrees : Steps.Along (Thread.step P S) (Thread.GossipAgrees P said log) (.start engine) ops) :
    let world := Steps.exec (Thread.step P S) (.start engine) ops
    (∀ e ∈ world.edits, ∀ author ∈ loggedAuthor P said engine log e.channelId e.targetSeq,
      e.who = author) ∧
    (∀ p ∈ world.pins, ∀ author ∈ loggedAuthor P said engine log p.channelId p.targetSeq,
      p.who = author) ∧
    ∀ before after e, world.edits = before ++ e :: after → e.newText = none →
      ∀ e' ∈ after, ¬ (e'.channelId = e.channelId ∧ e'.targetSeq = e.targetSeq) := by
  intro world
  have hstart : Rightful P said log engine (.start engine) := by
    constructor
    case recorded =>
      refine ⟨fun _ => Or.inl rfl, ?_⟩
      intro channelId seq entry hentry
      simp [start, ChannelEngine.editOf, hnew] at hentry
    case follows => exact List.Pairwise.nil
    all_goals exact fun _ hmem => by cases hmem
  have hrun : Rightful P said log engine world :=
    Steps.exec_invariant (Rightful P said log engine) (fun _ _ h hop => h.step hsaid hop) hstart
      (Steps.along_and (Steps.along_of_forall hlog) hagrees)
  refine ⟨hrun.edits, hrun.pins, ?_⟩
  intro before after e hsplit hdelete e' he'
  have hfollows := hrun.follows
  rw [hsplit, List.pairwise_append] at hfollows
  exact (List.pairwise_cons.mp hfollows.2.1).1 e' he' hdelete

def sampleLog (rows : List (UInt64 × Bytes)) (channelId : ChannelId) (seq : UInt64) :
    Option Bytes :=
  if channelId = .fill 32 1 then (rows.find? fun row => row.1 = seq).map Prod.snd else none

def sampleRows : List (UInt64 × Bytes) :=
  [(1, sampleSays (.fill 32 3) (.text "a")), (2, sampleSays (.fill 32 4) (.edit 1 "x")),
    (3, sampleSays (.fill 32 3) (.edit 1 "b")), (4, sampleSays (.fill 32 3) (.delete 1))]

/-- The text comes by gossip first, and then the whole log from the relay. -/
theorem only_author_edits_sample :
    let world := Steps.exec (Thread.step samplePrimitives sampleSuite) (.start sampleEngine)
      [.gossip (.fill 32 1, 1, sampleSays (.fill 32 3) (.text "a")),
        .poll 1000 [(.fill 32 1, .ok [])], .poll 2000 [(.fill 32 1, .ok sampleRows)]]
    ∀ e ∈ world.edits, ∀ author ∈ loggedAuthor samplePrimitives sampleSaid sampleEngine
      (sampleLog sampleRows) e.channelId e.targetSeq, e.who = author :=
  (only_author_edits_run samplePrimitives sampleSuite sampleMls sampleSaid sample_authentic
    (sampleLog sampleRows) sampleEngine rfl _ (by decide +kernel) (by decide +kernel)).1

/-- Another member gossips a text of its own under the number that the relay gives to the author's
message a little later, and is taken for the author of that message. -/
theorem gossiper_edits_message :
    let world := Steps.exec (Thread.step samplePrimitives sampleSuite) (.start sampleEngine)
      [.gossip (.fill 32 1, 1, sampleSays (.fill 32 4) (.text "y")),
        .poll 1000 [(.fill 32 1, .ok [])],
        .poll 2000 [(.fill 32 1, .ok (sampleRows.take 2))]]
    loggedAuthor samplePrimitives sampleSaid sampleEngine (sampleLog sampleRows) (.fill 32 1) 1 =
        some (.fill 32 3) ∧
      ⟨.fill 32 1, 1, .fill 32 4, some "x"⟩ ∈ world.edits := by
  decide +kernel

end Dante.Core
