import Dante.Core.Authorship
import Dante.Core.Store
import Dante.Library.NestedMap

/-!
Edits and deletes across a restart. In the store a message has a text and a flag, and an empty text
without the flag stands for an untouched message. So an edit to the empty text is saved, but after a
restart the message is back to what it was.
-/

namespace Dante.Core

open Crypto Dm Store

/-- What a snapshot says about a message: it was deleted, or it has a new text. -/
def changeOf (text : Option String) (deleted : Bool) : Option (Option String × Bool) :=
  if deleted then some (none, true) else text.map fun text => (some text, false)

/-- `persist` saves the message: `e.text.is_some() || e.deleted`. -/
def isChanged (text : Option String) (deleted : Bool) : Bool := text.isSome || deleted

/-- The new text that is loaded: `(!deleted && !text.is_empty()).then_some(text)`. -/
def loadedText (text : String) (deleted : Bool) : Option String :=
  if !deleted && !text.isEmpty then some text else none

/-- A message that is not deleted has not got the empty text. -/
def NotBlank (text : Option String) (deleted : Bool) : Prop := deleted = false → text ≠ some ""

instance (text : Option String) (deleted : Bool) : Decidable (NotBlank text deleted) :=
  inferInstanceAs (Decidable (_ → _))

/-- `restore` on one change of a channel message. -/
def Store.StoredEdit.load (se : StoredEdit) : ChannelId × UInt64 × MsgEdit :=
  (se.channelId, se.seq,
    { author := se.author, text := loadedText se.text se.deleted, deleted := se.deleted })

/-- `restore` on one change of a direct message. -/
def Store.StoredDmEdit.load (de : StoredDmEdit) : Key × MsgId × DmMsgEdit :=
  (de.peerIdk, de.msgId, { text := loadedText de.text de.deleted, deleted := de.deleted })

namespace ChannelEngine

variable {M : Mls} (engine : ChannelEngine M)

def editSnapshot : List ChannelEdit :=
  (NestedMap.report (fun e : MsgEdit => changeOf e.text e.deleted) engine.channelEdits).map
    fun line => { channelId := line.1, targetSeq := line.2.1, text := line.2.2.1,
                  deleted := line.2.2.2 }

def storedEdits : List StoredEdit :=
  (NestedMap.report (fun e : MsgEdit => if isChanged e.text e.deleted then some e else none)
    engine.channelEdits).map fun cell =>
      { channelId := cell.1, seq := cell.2.1, author := cell.2.2.author,
        text := cell.2.2.text.getD "", deleted := cell.2.2.deleted }

/-- Who wrote a message is seen in the history, if its number is known. -/
def seedAuthor (e : ChannelHistoryEntry) : ChannelEngine M :=
  if e.seq ≠ 0 then engine.recordAuthor e.channelId e.seq e.sender else engine

def restoreEdits (s : PersistedState) : ChannelEngine M :=
  s.channelHistory.foldl seedAuthor
    { engine with
      channelHistory := s.channelHistory
      channelEdits := NestedMap.collect (s.channelEdits.map StoredEdit.load) }

end ChannelEngine

namespace Messages

def dmEditSnapshot (m : Messages) : List DmEdit :=
  (NestedMap.report (fun e : DmMsgEdit => changeOf e.text e.deleted) m.dmEdits).map
    fun line => { peerIdk := line.1, msgId := line.2.1, text := line.2.2.1,
                  deleted := line.2.2.2 }

def storedDmEdits (m : Messages) : List StoredDmEdit :=
  (NestedMap.report (fun e : DmMsgEdit => if isChanged e.text e.deleted then some e else none)
    m.dmEdits).map fun cell =>
      { peerIdk := cell.1, msgId := cell.2.1, text := cell.2.2.text.getD "",
        deleted := cell.2.2.deleted }

def restore (s : PersistedState) : Messages where
  history := s.history
  dmEdits := NestedMap.collect (s.dmEdits.map StoredDmEdit.load)
  newDmEdits := []

end Messages

variable {M : Mls}

/-- What is saved of the messages and their changes; `others` has the rest of the state. -/
def persist (engine : ChannelEngine M) (messages : Messages) (others : PersistedState) :
    PersistedState :=
  { others with
    history := messages.history
    channelHistory := engine.channelHistory
    channelEdits := engine.storedEdits
    dmMsgIds := messages.history.map (·.msgId)
    dmEdits := messages.storedDmEdits }

/-- The store can be loaded, and both snapshots have the changes that they had before; `fresh`
is the engine into which it is loaded. -/
def ChangesSurvive (engine fresh : ChannelEngine M) (messages : Messages)
    (others : PersistedState) : Prop :=
  ∃ loaded, decodeState (encodeState (persist engine messages others)) = .ok loaded ∧
    (∀ edit, edit ∈ (fresh.restoreEdits loaded).editSnapshot ↔ edit ∈ engine.editSnapshot) ∧
    ∀ edit, edit ∈ (Messages.restore loaded).dmEditSnapshot ↔ edit ∈ messages.dmEditSnapshot

/-- No message stands with an empty text. -/
structure NoneBlank (engine : ChannelEngine M) (messages : Messages) : Prop where
  channel : ∀ channelId seq entry, NestedMap.find engine.channelEdits channelId seq = some entry →
    NotBlank entry.text entry.deleted
  dm : ∀ peerIdk msgId entry, NestedMap.find messages.dmEdits peerIdk msgId = some entry →
    NotBlank entry.text entry.deleted

/-- What is saved and loaded of a message is the same change exactly if the message has not
got the empty text. -/
theorem changeOf_loaded_iff (text : Option String) (deleted : Bool) :
    (if isChanged text deleted then changeOf (loadedText (text.getD "") deleted) deleted else none) =
        changeOf text deleted ↔ NotBlank text deleted := by
  cases deleted with
  | true => simp [isChanged, changeOf, NotBlank]
  | false =>
    cases text with
    | none => simp [isChanged, changeOf, NotBlank]
    | some text =>
      by_cases hempty : text = ""
      · simp [isChanged, changeOf, NotBlank, loadedText, hempty]
      · simp [isChanged, changeOf, NotBlank, loadedText, hempty]

theorem bind_changeOf_loaded_iff {α : Type} (text : α → Option String) (deleted : α → Bool)
    {load : α → α} (htext : ∀ e, text (load e) = loadedText ((text e).getD "") (deleted e))
    (hdeleted : ∀ e, deleted (load e) = deleted e) (entry : Option α) :
    ((entry.bind fun e => if isChanged (text e) (deleted e) then some e else none).map load).bind
        (fun e => changeOf (text e) (deleted e)) = entry.bind (fun e => changeOf (text e) (deleted e)) ↔
      ∀ e, entry = some e → NotBlank (text e) (deleted e) := by
  cases entry with
  | none => simp
  | some e =>
    simp only [Option.bind_some, Option.some.injEq, forall_eq', ← changeOf_loaded_iff]
    split
    · rw [Option.map_some, Option.bind_some, htext, hdeleted]
    · rfl

theorem line_injective : Function.Injective fun line : ChannelId × UInt64 × Option String × Bool =>
    ({ channelId := line.1, targetSeq := line.2.1, text := line.2.2.1, deleted := line.2.2.2 } :
      ChannelEdit) := by
  rintro ⟨_, _, _, _⟩ ⟨_, _, _, _⟩ heq
  cases heq
  rfl

theorem dmLine_injective : Function.Injective fun line : Key × MsgId × Option String × Bool =>
    ({ peerIdk := line.1, msgId := line.2.1, text := line.2.2.1, deleted := line.2.2.2 } :
      DmEdit) := by
  rintro ⟨_, _, _, _⟩ ⟨_, _, _, _⟩ heq
  cases heq
  rfl

theorem change_seedAuthor (engine : ChannelEngine M) (e : ChannelHistoryEntry)
    (channelId : ChannelId) (seq : UInt64) :
    ((engine.seedAuthor e).editOf channelId seq).bind (fun e => changeOf e.text e.deleted) =
      (engine.editOf channelId seq).bind fun e => changeOf e.text e.deleted := by
  unfold ChannelEngine.seedAuthor
  split
  · rw [ChannelEngine.editOf_recordAuthor]
    split
    · rename_i hkeys
      obtain ⟨rfl, rfl⟩ := hkeys
      cases engine.editOf e.channelId e.seq <;> rfl
    · rfl
  · rfl

theorem change_foldl_seedAuthor (lines : List ChannelHistoryEntry) (engine : ChannelEngine M)
    (channelId : ChannelId) (seq : UInt64) :
    ((lines.foldl ChannelEngine.seedAuthor engine).editOf channelId seq).bind
        (fun e => changeOf e.text e.deleted) =
      (engine.editOf channelId seq).bind fun e => changeOf e.text e.deleted := by
  induction lines generalizing engine with
  | nil => rfl
  | cons e lines ih => rw [List.foldl_cons, ih, change_seedAuthor]

theorem change_restoreEdits (fresh : ChannelEngine M) (s : PersistedState) (channelId : ChannelId)
    (seq : UInt64) :
    (NestedMap.find (fresh.restoreEdits s).channelEdits channelId seq).bind
        (fun e => changeOf e.text e.deleted) =
      (NestedMap.find (NestedMap.collect (s.channelEdits.map StoredEdit.load)) channelId seq).bind
        fun e => changeOf e.text e.deleted :=
  change_foldl_seedAuthor _ _ _ _

section Snapshots

variable (engine fresh : ChannelEngine M) (messages : Messages) (others : PersistedState)

theorem editSnapshot_restoreEdits_iff :
    (∀ edit, edit ∈ (fresh.restoreEdits (persist engine messages others)).editSnapshot ↔
        edit ∈ engine.editSnapshot) ↔
      ∀ channelId seq entry, NestedMap.find engine.channelEdits channelId seq = some entry →
        NotBlank entry.text entry.deleted := by
  rw [ChannelEngine.editSnapshot, ChannelEngine.editSnapshot,
    NestedMap.report_same_iff line_injective]
  apply forall_congr'
  intro channelId
  apply forall_congr'
  intro seq
  let load (e : MsgEdit) : MsgEdit := { e with text := loadedText (e.text.getD "") e.deleted }
  have hload (e : MsgEdit) : (load e).text = loadedText (e.text.getD "") e.deleted := rfl
  have hloaded : NestedMap.find (NestedMap.collect
        ((persist engine messages others).channelEdits.map StoredEdit.load)) channelId seq =
      ((NestedMap.find engine.channelEdits channelId seq).bind fun e =>
        if isChanged e.text e.deleted then some e else none).map load := by
    rw [← NestedMap.find_collect_report, persist, ChannelEngine.storedEdits, List.map_map]
    rfl
  rw [change_restoreEdits, hloaded]
  exact bind_changeOf_loaded_iff MsgEdit.text MsgEdit.deleted hload (fun _ => rfl) _

theorem dmEditSnapshot_restore_iff :
    (∀ edit, edit ∈ (Messages.restore (persist engine messages others)).dmEditSnapshot ↔
        edit ∈ messages.dmEditSnapshot) ↔
      ∀ peerIdk msgId entry, NestedMap.find messages.dmEdits peerIdk msgId = some entry →
        NotBlank entry.text entry.deleted := by
  rw [Messages.dmEditSnapshot, Messages.dmEditSnapshot,
    NestedMap.report_same_iff dmLine_injective]
  apply forall_congr'
  intro peerIdk
  apply forall_congr'
  intro msgId
  let load (e : DmMsgEdit) : DmMsgEdit := { e with text := loadedText (e.text.getD "") e.deleted }
  have hload (e : DmMsgEdit) : (load e).text = loadedText (e.text.getD "") e.deleted := rfl
  have hloaded : NestedMap.find (Messages.restore (persist engine messages others)).dmEdits
        peerIdk msgId =
      ((NestedMap.find messages.dmEdits peerIdk msgId).bind fun e =>
        if isChanged e.text e.deleted then some e else none).map load := by
    rw [← NestedMap.find_collect_report, Messages.restore, persist, Messages.storedDmEdits,
      List.map_map]
    rfl
  rw [hloaded]
  exact bind_changeOf_loaded_iff DmMsgEdit.text DmMsgEdit.deleted hload (fun _ => rfl) _

end Snapshots

/-- The edits and deletes survive a restart exactly if no edit to the empty text stands. -/
theorem changes_survive_iff (engine fresh : ChannelEngine M) (messages : Messages)
    (others : PersistedState) (hfits : (persist engine messages others).Fits) :
    ChangesSurvive engine fresh messages others ↔ NoneBlank engine messages := by
  have hload := decodeState_encodeState rfl hfits
  constructor
  · rintro ⟨loaded, hloaded, hchannel, hdm⟩
    cases hload.symm.trans hloaded
    exact ⟨(editSnapshot_restoreEdits_iff engine fresh messages others).mp hchannel,
      (dmEditSnapshot_restore_iff engine messages others).mp hdm⟩
  · intro hnone
    exact ⟨_, hload, (editSnapshot_restoreEdits_iff engine fresh messages others).mpr hnone.channel,
      (dmEditSnapshot_restore_iff engine messages others).mpr hnone.dm⟩

def sampleChanged (newText : String) : Messages :=
  Steps.exec Messages.step { history := [], dmEdits := ∅, newDmEdits := [] }
    [.send (.fill 32 1) (.textId "hi" (.fill 16 5)) 0,
      .edit (some (.fill 32 1)) (.fill 16 5) (some newText) true]

theorem sampleChanged_eq (newText : String) : sampleChanged newText =
    { history := [{ peerIdk := .fill 32 1, outgoing := true, tsMs := 0, kind := .text "hi",
                    msgId := .fill 16 5 }]
      dmEdits := NestedMap.put ∅ (.fill 32 1) (.fill 16 5) { text := some newText, deleted := false }
      newDmEdits := [{ peerIdk := .fill 32 1, msgId := .fill 16 5, text := some newText,
                       deleted := false }] } := rfl

theorem fits_persist_sample {newText : String} (hshort : newText.utf8ByteSize < 2 ^ 32) :
    (persist sampleEngine (sampleChanged newText) sampleState).Fits := by
  have hone : 1 < 2 ^ 32 := by decide
  have hline : "hi".utf8ByteSize < 2 ^ 32 := by decide
  constructor
  · exact { fits_sampleState.head with history := ⟨hone, List.forall_mem_singleton.mpr hline⟩ }
  · intro sec
    cases sec with
    | channelHistory | channelEdits => exact ⟨Nat.two_pow_pos 32, nofun⟩
    | dmMsgIds => exact ⟨hone, fun _ _ => trivial⟩
    | dmEdits => exact ⟨hone, List.forall_mem_singleton.mpr hshort⟩
    | _ => exact fits_sampleState.sections _
  · exact nofun

theorem noneBlank_sample {newText : String} (hne : newText ≠ "") :
    NoneBlank sampleEngine (sampleChanged newText) where
  channel := nofun
  dm peerIdk msgId entry hfind := by
    rw [sampleChanged_eq, NestedMap.find_put, NestedMap.find_empty] at hfind
    split at hfind
    · cases hfind
      exact fun _ heq => hne (Option.some.inj heq)
    · cases hfind

/-- An edit to another text is still there. -/
theorem changes_survive_edit :
    ChangesSurvive sampleEngine sampleEngine (sampleChanged "hello") sampleState :=
  (changes_survive_iff sampleEngine sampleEngine (sampleChanged "hello") sampleState
    (fits_persist_sample (by decide))).mpr (noneBlank_sample (by decide))

/-- An edit to the empty text is gone. -/
theorem blank_edit_lost :
    (sampleChanged "").dmEditSnapshot =
        [{ peerIdk := .fill 32 1, msgId := .fill 16 5, text := some "", deleted := false }] ∧
      (Messages.restore (persist sampleEngine (sampleChanged "") sampleState)).dmEditSnapshot = [] ∧
      ¬ ChangesSurvive sampleEngine sampleEngine (sampleChanged "") sampleState := by
  have hbefore : (sampleChanged "").dmEditSnapshot =
      [{ peerIdk := .fill 32 1, msgId := .fill 16 5, text := some "", deleted := false }] := by
    decide +kernel
  have hafter : (Messages.restore
      (persist sampleEngine (sampleChanged "") sampleState)).dmEditSnapshot = [] := by
    decide +kernel
  refine ⟨hbefore, hafter, ?_⟩
  rintro ⟨loaded, hloaded, -, hdm⟩
  cases (decodeState_encodeState rfl (fits_persist_sample (by decide))).symm.trans hloaded
  rw [hbefore, hafter] at hdm
  exact absurd ((hdm _).mpr List.mem_cons_self) List.not_mem_nil

end Dante.Core
