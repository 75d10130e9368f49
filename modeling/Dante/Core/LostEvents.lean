import Dante.Core.ChannelReading

/-!
What a poll has decrypted and what it surfaces. The cursors and the groups have moved
past a frame as soon as it is read, so nothing that a failed call has read comes again.
-/

namespace Dante.Core

open Crypto Dm

def Pending.events (pending : Pending) : List ChannelEvent :=
  pending.out.map .message ++ pending.newReacts.map .reaction ++
    pending.pendingEdits.map .edit ++ pending.pendingPins.map .pin

/-- What a call returns or hands to `record_reaction`, `apply_channel_edit` and
`apply_channel_pin`. -/
def ChannelEngine.surfacedBy (P : Primitives) (S : Suite) {M : Mls} (engine : ChannelEngine M)
    (nowMs : UInt64) (visits : List Visit) : List ChannelEvent :=
  match (Reading.start engine).readChannels P S nowMs visits with
  | (some _, _) => []
  | (none, reading) => reading.pending.events

/-- The client with the events that its calls have decrypted and surfaced so far. -/
structure Listener (M : Mls) where
  engine : ChannelEngine M
  decrypted : List ChannelEvent
  surfaced : List ChannelEvent

namespace Listener

inductive Op where
  /-- A frame of a peer's gossip arrives. -/
  | gossip (frame : ChannelId × UInt64 × Bytes)
  | poll (nowMs : UInt64) (visits : List Visit)

variable (P : Primitives) (S : Suite) {M : Mls} (said : Bytes → Option (Bytes × Bytes))

def start (engine : ChannelEngine M) : Listener M where
  engine := engine
  decrypted := []
  surfaced := []

def step (world : Listener M) : Op → Listener M
  | .gossip frame => { world with engine := world.engine.bufferGossip frame }
  | .poll nowMs visits =>
    { engine := (world.engine.pollChannels P S nowMs visits).2
      decrypted := world.decrypted ++
        ((Reading.start world.engine).readChannels P S nowMs visits).2.decrypted
      surfaced := world.surfaced ++ world.engine.surfacedBy P S nowMs visits }

/-- No fetch fails after an earlier one had something to read. -/
def Quiet (engine : ChannelEngine M) : List Visit → Prop
  | [] => True
  | (_, .error _) :: _ => True
  | (channelId, .ok rows) :: rest =>
    (∀ visit ∈ rest, visit.2.isOk = true) ∨ engine.entriesFor channelId rows = [] ∧ Quiet engine rest

/-- The relay's copy of a message that was shown from gossip says what was shown. -/
def Repeats (world : Listener M) (channelId : ChannelId) (row : UInt64 × Bytes) : Prop :=
  (channelId, row.1) ∈ world.engine.gossipShown →
    ∀ session ∈ world.engine.infoOf channelId,
      ∀ event ∈ saidBy P said session.1 session.2 channelId row.1 row.2, event ∈ world.surfaced

/-- Each channel is visited once, no fetch fails after an earlier one had something to read,
and the gossip that was shown is what the relay has. -/
def LosesNothing (world : Listener M) : Op → Prop
  | .gossip _ => True
  | .poll _ visits =>
    (visits.map Prod.fst).Nodup ∧ Quiet world.engine visits ∧
      ∀ visit ∈ visits, ∀ rows ∈ visit.2.toOption, ∀ row ∈ rows,
        world.Repeats P said visit.1 row

instance (engine : ChannelEngine M) (visits : List Visit) : Decidable (Quiet engine visits) :=
  match visits with
  | [] => isTrue trivial
  | (_, .error _) :: _ => isTrue trivial
  | (_, .ok _) :: rest =>
    have := instDecidableQuiet engine rest
    inferInstanceAs (Decidable (_ ∨ _ ∧ _))

instance (world : Listener M) (channelId : ChannelId) (row : UInt64 × Bytes) :
    Decidable (world.Repeats P said channelId row) :=
  inferInstanceAs (Decidable (_ → _))

instance (world : Listener M) (op : Op) : Decidable (world.LosesNothing P said op) :=
  match op with
  | .gossip _ => isTrue trivial
  | .poll _ _ => inferInstanceAs (Decidable (_ ∧ _ ∧ _))

end Listener

section Accumulators

variable {M : Mls} (reading : Reading M) (nowMs : UInt64) (fromRelay : Bool)

/-- The relay's copy of a message that was shown from gossip. -/
def Reading.Suppresses : ChannelEvent → Prop
  | .message m => fromRelay = true ∧ (m.channelId, m.seq) ∈ reading.engine.gossipShown
  | _ => False

/-- An event goes into the accumulators unless it is suppressed. -/
theorem Reading.mem_events_takeEvent (event other : ChannelEvent) :
    other ∈ (reading.takeEvent nowMs fromRelay event).pending.events ↔
      other ∈ reading.pending.events ∨ other = event ∧ ¬ reading.Suppresses fromRelay event := by
  cases event with
  | message m =>
    have hsame : (reading.engine.recordAuthor m.channelId m.seq m.sender).gossipShown =
        reading.engine.gossipShown := rfl
    by_cases hshown : fromRelay = true ∧ (m.channelId, m.seq) ∈ reading.engine.gossipShown
    · simp [takeEvent, takeMessage, hsame, hshown, Suppresses, Pending.events]
    · simp only [takeEvent, takeMessage, hsame, if_neg hshown, Suppresses, Pending.events]
      cases other <;> simp [hshown]
  | reaction r | edit e | pin p => cases other <;> simp [takeEvent, Suppresses, Pending.events]

end Accumulators

namespace ChannelEngine

variable {P : Primitives} {S : Suite} {M : Mls} {engine : ChannelEngine M} {nowMs : UInt64}
  {visits : List Visit}

end ChannelEngine

namespace Listener

variable {P : Primitives} {S : Suite} {M : Mls} {said : Bytes → Option (Bytes × Bytes)}
  {world : Listener M} {reading : Reading M} {nowMs : UInt64} {channelId : ChannelId}
variable {visits : List Visit}

/-- The invariant of the loop: whatever has been decrypted in the call waits in the accumulators,
or was surfaced before. -/
structure Kept (world : Listener M) (reading : Reading M) : Prop where
  info : ∀ channelId, reading.engine.infoOf channelId = world.engine.infoOf channelId
  events : ∀ event ∈ reading.decrypted,
    event ∈ world.surfaced ∨ event ∈ reading.pending.events

theorem kept_start (world : Listener M) : Kept world (Reading.start world.engine) where
  info := fun _ => rfl
  events := fun _ hevent => by cases hevent

theorem Kept.processEntry (h : Kept world reading) (hsaid : Authentic M said) (nowMs : UInt64)
    {entry : LogEntry}
    (hshown : (channelId, entry.seq) ∈ reading.engine.gossipShown →
      (channelId, entry.seq) ∈ world.engine.gossipShown)
    (hrepeats : entry.fromRelay = true → world.Repeats P said channelId (entry.seq, entry.blob)) :
    Kept world (reading.processEntry P S nowMs channelId entry) := by
  have hstep := Reading.entryStep (P := P) (S := S) hsaid reading nowMs channelId entry
  have hinfo := hstep.infoOf
  refine ⟨fun other => (hinfo other).trans (h.info other), ?_⟩
  generalize reading.processEntry P S nowMs channelId entry = after at hstep
  cases hstep with
  | absent => exact h.events
  | moved hlookup hsession => exact h.events
  | evicted hlookup hsession row => exact h.events
  | @read ch ch' hlookup hsession event hevent =>
    intro other hother
    rcases List.mem_append.mp hother with hold | hnew
    · rcases h.events other hold with hsurfaced | hwaiting
      · exact Or.inl hsurfaced
      · exact Or.inr ((Reading.mem_events_takeEvent _ _ _ _ _).mpr (Or.inl hwaiting))
    · rw [List.mem_singleton.mp hnew]
      by_cases hsuppressed : (reading.withSession channelId ch').Suppresses entry.fromRelay event
      · cases event with
        | message m =>
          obtain ⟨rfl, hseq⟩ := Reading.message_of_saidBy hevent
          obtain ⟨hrelay, hkey⟩ := hsuppressed
          rw [hseq] at hkey
          have hsame : world.engine.infoOf m.channelId = some (ch.info, ch.logKey) := by
            rw [← h.info, ChannelEngine.infoOf, hlookup, Option.map_some]
          exact Or.inl (hrepeats hrelay (hshown hkey) _ hsame _ hevent)
        | reaction r => cases hsuppressed
        | edit e => cases hsuppressed
        | pin p => cases hsuppressed
      · exact Or.inr ((Reading.mem_events_takeEvent _ _ _ _ _).mpr (Or.inr ⟨rfl, hsuppressed⟩))

theorem Kept.entries (h : Kept world reading) (hsaid : Authentic M said) (nowMs : UInt64)
    {entries : List LogEntry}
    (hordered : entries.Pairwise fun a b => a.seq < b.seq)
    (hshown : ∀ entry ∈ entries, (channelId, entry.seq) ∈ reading.engine.gossipShown →
      (channelId, entry.seq) ∈ world.engine.gossipShown)
    (hrepeats : ∀ entry ∈ entries, entry.fromRelay = true →
      world.Repeats P said channelId (entry.seq, entry.blob)) :
    let after := entries.foldl (fun reading entry => reading.processEntry P S nowMs channelId entry)
      reading
    Kept world after ∧
      ∀ key ∈ after.engine.gossipShown, key ∈ reading.engine.gossipShown ∨ key.1 = channelId := by
  induction entries generalizing reading with
  | nil => exact ⟨h, fun _ hkey => Or.inl hkey⟩
  | cons entry rest ih =>
    obtain ⟨hfirst, hrest⟩ := List.pairwise_cons.mp hordered
    have hstep := Reading.entryStep (P := P) (S := S) hsaid reading nowMs channelId entry
    have hnext := h.processEntry (S := S) hsaid nowMs (hshown entry List.mem_cons_self)
      (hrepeats entry List.mem_cons_self)
    have hlater : ∀ other ∈ rest, (channelId, other.seq) ∈
        (reading.processEntry P S nowMs channelId entry).engine.gossipShown →
          (channelId, other.seq) ∈ world.engine.gossipShown := by
      intro other hother hkey
      rcases hstep.gossipShown hkey with hold | heq
      · exact hshown other (List.mem_cons_of_mem _ hother) hold
      · have hlt := hfirst other hother
        rw [(Prod.mk.inj heq).2] at hlt
        exact absurd hlt (UInt64.lt_irrefl _)
    obtain ⟨hkept, hkeys⟩ := ih hnext hrest hlater fun other hother =>
      hrepeats other (List.mem_cons_of_mem _ hother)
    refine ⟨hkept, fun key hkey => ?_⟩
    rcases hkeys key hkey with hold | heq
    · rcases hstep.gossipShown hold with hold | rfl
      · exact Or.inl hold
      · exact Or.inr rfl
    · exact Or.inr heq

theorem Kept.readChannel (h : Kept world reading) (hsaid : Authentic M said) (nowMs : UInt64)
    {rows : List (UInt64 × Bytes)}
    (hshown : ∀ seq, (channelId, seq) ∈ reading.engine.gossipShown →
      (channelId, seq) ∈ world.engine.gossipShown)
    (hrepeats : ∀ row ∈ rows, world.Repeats P said channelId row) :
    Kept world (reading.readChannel P S nowMs channelId rows) ∧
      ∀ key ∈ (reading.readChannel P S nowMs channelId rows).engine.gossipShown,
        key ∈ reading.engine.gossipShown ∨ key.1 = channelId := by
  rw [Reading.readChannel]
  have hdrained : Kept world (reading.drainGossip channelId) := ⟨h.info, h.events⟩
  apply hdrained.entries hsaid nowMs
  · exact mergeEntries_pairwise _ _ _
  · intro entry hentry
    exact hshown entry.seq
  · intro entry hentry hrelay
    rcases mem_mergeEntries hentry with ⟨-, hrow⟩ | ⟨hgossip, -⟩
    · exact hrepeats _ hrow
    · rw [hrelay] at hgossip
      cases hgossip

theorem Kept.readChannels (h : Kept world reading) (hsaid : Authentic M said) (nowMs : UInt64)
    (hnodup : (visits.map Prod.fst).Nodup)
    (hshown : ∀ visit ∈ visits, ∀ seq, (visit.1, seq) ∈ reading.engine.gossipShown →
      (visit.1, seq) ∈ world.engine.gossipShown)
    (hrepeats : ∀ visit ∈ visits, ∀ rows ∈ visit.2.toOption, ∀ row ∈ rows,
      world.Repeats P said visit.1 row) : Kept world (reading.readChannels P S nowMs visits).2 := by
  induction visits generalizing reading with
  | nil => exact h
  | cons visit rest ih =>
    obtain ⟨channelId, reply⟩ := visit
    obtain ⟨hfirst, hrest⟩ := List.nodup_cons.mp hnodup
    cases reply with
    | error e => exact h
    | ok rows =>
      obtain ⟨hkept, hkeys⟩ := h.readChannel (S := S) hsaid nowMs
        (hshown _ List.mem_cons_self) (hrepeats _ List.mem_cons_self rows rfl)
      rw [Reading.readChannels]
      apply ih hkept hrest
      · intro visit hvisit seq hkey
        rcases hkeys _ hkey with hold | heq
        · exact hshown visit (List.mem_cons_of_mem _ hvisit) seq hold
        · exact absurd (heq ▸ List.mem_map_of_mem hvisit) hfirst
      · intro visit hvisit
        exact hrepeats visit (List.mem_cons_of_mem _ hvisit)

theorem readChannels_ok (h : ∀ visit ∈ visits, visit.2.isOk = true) :
    (reading.readChannels P S nowMs visits).1 = none := by
  induction visits generalizing reading with
  | nil => rfl
  | cons visit rest ih =>
    obtain ⟨channelId, reply⟩ := visit
    cases reply with
    | error e => cases h _ List.mem_cons_self
    | ok rows => exact ih fun other hother => h other (List.mem_cons_of_mem _ hother)

/-- A call that fails in spite of the condition has read nothing. -/
theorem decrypted_of_failed {engine : ChannelEngine M} {e : String} (hquiet : Quiet engine visits)
    (hnodup : (visits.map Prod.fst).Nodup)
    (hsame : ∀ visit ∈ visits, ∀ rows,
      reading.engine.entriesFor visit.1 rows = engine.entriesFor visit.1 rows)
    (hfailed : (reading.readChannels P S nowMs visits).1 = some e) :
    (reading.readChannels P S nowMs visits).2.decrypted = reading.decrypted := by
  induction visits generalizing reading with
  | nil => rfl
  | cons visit rest ih =>
    obtain ⟨channelId, reply⟩ := visit
    obtain ⟨hfirst, hrest⟩ := List.nodup_cons.mp hnodup
    cases reply with
    | error e => rfl
    | ok rows =>
      rw [Reading.readChannels] at hfailed ⊢
      rcases hquiet with hok | ⟨hempty, hquiet⟩
      · rw [readChannels_ok hok] at hfailed
        cases hfailed
      · have hnone : reading.engine.entriesFor channelId rows = [] :=
          (hsame _ List.mem_cons_self rows).trans hempty
        rw [Reading.readChannel, hnone] at hfailed ⊢
        refine (ih hquiet hrest ?_ hfailed).trans rfl
        intro other hother rows'
        have hne : other.1 ≠ channelId := fun heq =>
          hfirst (List.mem_map.mpr ⟨other, hother, heq⟩)
        rw [← hsame other (List.mem_cons_of_mem _ hother), ChannelEngine.entriesFor,
          ChannelEngine.entriesFor]
        simp [Reading.drainGossip, AList.lookup_erase_ne hne]

/-- One step surfaces what it decrypts, or it was surfaced before. -/
theorem surfaced_step (hsaid : Authentic M said) {op : Op}
    (hop : world.LosesNothing P said op)
    (h : ∀ event ∈ world.decrypted, event ∈ world.surfaced) :
    ∀ event ∈ (world.step P S op).decrypted, event ∈ (world.step P S op).surfaced := by
  cases op with
  | gossip frame => exact h
  | poll nowMs visits =>
    obtain ⟨hnodup, hquiet, hrepeats⟩ := hop
    intro event hevent
    have hkept := (kept_start world).readChannels (S := S) hsaid nowMs hnodup
      (fun _ _ _ hkey => hkey) hrepeats
    rw [step] at hevent ⊢
    rw [ChannelEngine.surfacedBy]
    rcases List.mem_append.mp hevent with hold | hnew
    · exact List.mem_append_left _ (h event hold)
    · rcases hread : (Reading.start world.engine).readChannels P S nowMs visits with
        ⟨failure, reading⟩
      rw [hread] at hnew hkept
      cases failure with
      | some e =>
        have hfailed : ((Reading.start world.engine).readChannels P S nowMs visits).1 = some e := by
          rw [hread]
        have hsame : ∀ visit ∈ visits, ∀ rows, (Reading.start world.engine).engine.entriesFor
            visit.1 rows = world.engine.entriesFor visit.1 rows := fun _ _ _ => rfl
        have hnone := decrypted_of_failed hquiet hnodup hsame hfailed
        rw [hread] at hnone
        rw [hnone] at hnew
        cases hnew
      | none =>
        rcases hkept.events event hnew with hsurfaced | hwaiting
        · exact List.mem_append_left _ hsurfaced
        · exact List.mem_append_right _ hwaiting

end Listener

open Listener

/-- In every run in which no fetch fails after an earlier one of the same call had something to
read, and in which gossip shows what the relay has, everything that is decrypted is surfaced. -/
theorem poll_loses_nothing_run (P : Primitives) (S : Suite) (M : Mls)
    (said : Bytes → Option (Bytes × Bytes)) (hsaid : Authentic M said) (engine : ChannelEngine M)
    (ops : List Listener.Op)
    (hops : Steps.Along (Listener.step P S) (Listener.LosesNothing P said) (.start engine) ops) :
    let world := Steps.exec (Listener.step P S) (.start engine) ops
    ∀ event ∈ world.decrypted, event ∈ world.surfaced :=
  Steps.exec_invariant (fun world : Listener M => ∀ event ∈ world.decrypted, event ∈ world.surfaced)
    (fun _ _ h hop => surfaced_step hsaid hop h) (fun _ hevent => by cases hevent) hops

/-- A gossip frame, then the relay's copy of it, and a fetch that fails before anything is read. -/
theorem poll_loses_nothing_sample :
    let world := Steps.exec (Listener.step samplePrimitives sampleSuite) (.start sampleEngine)
      [.gossip (.fill 32 1, 1, sampleSays (.fill 32 3) (.text "a")),
        .poll 1000 [(.fill 32 1, .ok []), (.fill 32 2, .ok [])],
        .poll 2000 [(.fill 32 2, .error "timeout"),
          (.fill 32 1, .ok [(1, sampleSays (.fill 32 3) (.text "a"))])],
        .poll 3000 [(.fill 32 2, .ok []),
          (.fill 32 1, .ok [(1, sampleSays (.fill 32 3) (.text "a")),
            (2, sampleSays (.fill 32 4) (.reaction 1 "e" false))])]]
    ∀ event ∈ world.decrypted, event ∈ world.surfaced :=
  poll_loses_nothing_run samplePrimitives sampleSuite sampleMls sampleSaid sample_authentic
    sampleEngine _ (by decide +kernel)

/-- A message of the first channel is read, the second fetch fails, and the next poll has nothing
more to read. -/
theorem failed_poll_loses_message :
    let message : ChannelEvent := .message
      ⟨.fill 32 1, "c", .fill 32 3, "a", 1, none, none⟩
    let world := Steps.exec (Listener.step samplePrimitives sampleSuite) (.start sampleEngine)
      [.poll 1000 [(.fill 32 1, .ok [(1, sampleSays (.fill 32 3) (.text "a"))]),
          (.fill 32 2, .error "timeout")],
        .poll 2000 [(.fill 32 1, .ok []), (.fill 32 2, .ok [])]]
    message ∈ world.decrypted ∧ message ∉ world.surfaced ∧ world.engine.channelHistory = [] ∧
      (world.engine.channels.lookup (.fill 32 1)).map ChannelSession.lastSeq = some 1 := by
  decide +kernel

end Dante.Core
