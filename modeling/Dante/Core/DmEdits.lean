import Dante.Dm.Content
import Dante.Library.AssocMap
import Dante.Library.Method
import Dante.Library.Run

/-!
Edits and deletes of direct messages. Whether a peer may change a message is decided by the
history, where entries have a direction; what the change is kept under has none: it is the
peer's key and the message's id. A peer that gives one of its messages the id of one of ours
can change both.
-/

namespace Dante.Core

open Dm

inductive HistoryKind where
  | text (text : String)
  | file (filename : String) (size : UInt64)
  deriving DecidableEq

def HistoryKind.isText : HistoryKind → Bool
  | text _ => true
  | file _ _ => false

structure HistoryEntry where
  peerIdk : Key
  outgoing : Bool
  tsMs : UInt64
  kind : HistoryKind
  msgId : MsgId
  deriving DecidableEq

structure DmMsgEdit where
  text : Option String
  deleted : Bool
  deriving DecidableEq

structure DmEdit where
  peerIdk : Key
  msgId : MsgId
  text : Option String
  deleted : Bool
  deriving DecidableEq

structure Messages where
  history : List HistoryEntry
  dmEdits : AssocMap Key (AssocMap MsgId DmMsgEdit)
  newDmEdits : List DmEdit

inductive DmEditError where
  | unknownPeer
  | message (what : String)
  | net
  deriving DecidableEq

namespace Messages

variable (m : Messages)

/-- What is stored for a message; nothing is the same as no change. -/
def editState (peerIdk : Key) (msgId : MsgId) : DmMsgEdit :=
  ((m.dmEdits.lookup peerIdk).bind fun byId => byId.lookup msgId).getD
    { text := none, deleted := false }

/-- A text message of the conversation, in one direction. -/
def hasText (outgoing : Bool) (peerIdk : Key) (msgId : MsgId) : Bool :=
  m.history.any fun entry => entry.outgoing = outgoing && entry.peerIdk = peerIdk &&
    entry.msgId = msgId && entry.kind.isText

/-- `dm_target_matches`: the peer has sent a text message under this id. -/
def dmTargetMatches (sender : Key) (msgId : MsgId) : Bool := m.hasText false sender msgId

def applyDmEdit (peerIdk : Key) (msgId : MsgId) (newText : Option String) : Messages :=
  let entry := m.editState peerIdk msgId
  if entry.deleted then m
  else
    let changed : DmMsgEdit := match newText with
      | some text => { entry with text := some text }
      | none => { text := none, deleted := true }
    { m with
      dmEdits := m.dmEdits.insert peerIdk
        (((m.dmEdits.lookup peerIdk).getD ∅).insert msgId changed)
      newDmEdits := m.newDmEdits ++
        [{ peerIdk, msgId, text := newText, deleted := newText.isNone }] }

/-- `post_dm_edit`: an edit, or with `none` a delete, of a message of our own. `peerIdk` is
what the ledger has for the peer, and `sent` whether the message to the peer was sent. -/
def postDmEdit (peerIdk : Option Key) (msgId : MsgId) (newText : Option String) (sent : Bool) :
    Except DmEditError Messages := do
  let peerIdk ← Except.okOr peerIdk .unknownPeer
  Except.refuseIf (m.hasText true peerIdk msgId = false)
    (.message "unknown message (or sent before restart)")
  Except.refuseIf ((m.editState peerIdk msgId).deleted = true)
    (.message "that message was deleted")
  Except.refuseIf (sent = false) .net
  return m.applyDmEdit peerIdk msgId newText

/-- What `send_content` puts into the history once the message was sent. -/
def historyKind : Content → Option (HistoryKind × MsgId)
  | .text text => some (.text text, .fill 16 0)
  | .textId text id => some (.text text, id)
  | .file manifest => some (.file manifest.filename manifest.totalSize, .fill 16 0)
  | _ => none

def push (outgoing : Bool) (peerIdk : Key) (nowMs : UInt64) (row : Option (HistoryKind × MsgId)) :
    Messages :=
  match row with
  | some (kind, msgId) =>
    { m with history := m.history ++ [{ peerIdk, outgoing, tsMs := nowMs, kind, msgId }] }
  | none => m

/-- `receive_all` on the content of one packet. A file counts once it was fetched; `fetched`
is its name and size. -/
def receive (sender : Key) (content : Content) (fetched : Option (String × UInt64))
    (nowMs : UInt64) : Messages :=
  match content with
  | .text text => m.push false sender nowMs (some (.text text, .fill 16 0))
  | .textId text id => m.push false sender nowMs (some (.text text, id))
  | .dmEdit target text =>
    if m.dmTargetMatches sender target then m.applyDmEdit sender target (some text) else m
  | .dmDelete target =>
    if m.dmTargetMatches sender target then m.applyDmEdit sender target none else m
  | .file _ => m.push false sender nowMs (fetched.map fun file => (.file file.1 file.2, .fill 16 0))
  | _ => m

end Messages

inductive DmOp where
  | send (peerIdk : Key) (content : Content) (nowMs : UInt64)
  | edit (peerIdk : Option Key) (msgId : MsgId) (newText : Option String) (sent : Bool)
  | receive (sender : Key) (content : Content) (fetched : Option (String × UInt64))
      (nowMs : UInt64)
  /-- `take_dm_edits` -/
  | takeDmEdits

namespace Messages

/-- A call that fails changes nothing. -/
def step (m : Messages) : DmOp → Messages
  | .send peerIdk content nowMs => m.push true peerIdk nowMs (historyKind content)
  | .edit peerIdk msgId newText sent => (m.postDmEdit peerIdk msgId newText sent).toOption.getD m
  | .receive sender content fetched nowMs => m.receive sender content fetched nowMs
  | .takeDmEdits => { m with newDmEdits := [] }

def reports (m : Messages) (peerIdk : Key) (msgId : MsgId) : List DmEdit :=
  m.newDmEdits.filter fun edit => edit.peerIdk = peerIdk ∧ edit.msgId = msgId

/-- What the peer sends changes nothing about the messages that we have sent it. -/
def OursKept (m : Messages) : DmOp → Prop
  | .receive sender content fetched nowMs => ∀ peerIdk msgId, m.hasText true peerIdk msgId = true →
      (m.receive sender content fetched nowMs).editState peerIdk msgId = m.editState peerIdk msgId ∧
        (m.receive sender content fetched nowMs).reports peerIdk msgId = m.reports peerIdk msgId
  | _ => True

/-- A deleted message stays as it is, and nothing new is reported about it. -/
def DeletedKept (m : Messages) (op : DmOp) : Prop :=
  ∀ peerIdk msgId, (m.editState peerIdk msgId).deleted = true →
    (m.step op).editState peerIdk msgId = m.editState peerIdk msgId ∧
      ∀ edit ∈ (m.step op).reports peerIdk msgId, edit ∈ m.reports peerIdk msgId

/-- The message that a packet of the peer changes, if any. -/
def target : Content → Option MsgId
  | .dmEdit target _ | .dmDelete target => some target
  | _ => none

/-- The peer does not change a message whose id is the id of one of ours, too. -/
def Unshared (m : Messages) : DmOp → Prop
  | .receive sender content _ _ => ∀ msgId ∈ target content,
      m.hasText true sender msgId = true → m.hasText false sender msgId = true →
        (m.editState sender msgId).deleted = true
  | _ => True

variable {m : Messages} {peerIdk : Key} {msgId : MsgId}

theorem applyDmEdit_of_deleted (hdeleted : (m.editState peerIdk msgId).deleted = true)
    (newText : Option String) : m.applyDmEdit peerIdk msgId newText = m :=
  if_pos hdeleted

theorem editState_applyDmEdit_ne {peerIdk' : Key} {msgId' : MsgId} (newText : Option String)
    (hne : ¬ (peerIdk' = peerIdk ∧ msgId' = msgId)) :
    (m.applyDmEdit peerIdk msgId newText).editState peerIdk' msgId' = m.editState peerIdk' msgId' := by
  unfold applyDmEdit
  dsimp only
  split
  · rfl
  · simp only [editState, AssocMap.lookup_insert]
    split
    · rename_i hpeer
      have hid : ¬ msgId' = msgId := fun hid => hne ⟨hpeer, hid⟩
      subst hpeer
      rw [Option.bind_some, AssocMap.lookup_insert, if_neg hid]
      cases m.dmEdits.lookup peerIdk' with
      | none => rfl
      | some byId => rfl
    · rfl

theorem reports_applyDmEdit_ne {peerIdk' : Key} {msgId' : MsgId} (newText : Option String)
    (hne : ¬ (peerIdk' = peerIdk ∧ msgId' = msgId)) :
    (m.applyDmEdit peerIdk msgId newText).reports peerIdk' msgId' = m.reports peerIdk' msgId' := by
  unfold applyDmEdit
  dsimp only
  split
  · rfl
  · have hother : ¬ (peerIdk = peerIdk' ∧ msgId = msgId') := fun h => hne ⟨h.1.symm, h.2.symm⟩
    simp [reports, List.filter_append, hother]

/-- A change of a message that is not deleted is reported. -/
theorem reports_applyDmEdit_ne_self (hkept : (m.editState peerIdk msgId).deleted = false)
    (newText : Option String) :
    (m.applyDmEdit peerIdk msgId newText).reports peerIdk msgId ≠ m.reports peerIdk msgId := by
  intro heq
  have hlen := congrArg List.length heq
  simp [applyDmEdit, hkept, reports, List.filter_append] at hlen

@[simp]
theorem push_dmEdits (outgoing : Bool) (peerIdk : Key) (nowMs : UInt64)
    (row : Option (HistoryKind × MsgId)) : (m.push outgoing peerIdk nowMs row).dmEdits = m.dmEdits := by
  cases row <;> rfl

@[simp]
theorem push_newDmEdits (outgoing : Bool) (peerIdk : Key) (nowMs : UInt64)
    (row : Option (HistoryKind × MsgId)) :
    (m.push outgoing peerIdk nowMs row).newDmEdits = m.newDmEdits := by
  cases row <;> rfl

def Same (m m' : Messages) (peerIdk : Key) (msgId : MsgId) : Prop :=
  m'.editState peerIdk msgId = m.editState peerIdk msgId ∧
    m'.reports peerIdk msgId = m.reports peerIdk msgId

theorem same_push (outgoing : Bool) (sender : Key) (nowMs : UInt64)
    (row : Option (HistoryKind × MsgId)) :
    Same m (m.push outgoing sender nowMs row) peerIdk msgId := by
  simp [Same, editState, reports]

theorem same_applyDmEdit_of_deleted (hdeleted : (m.editState peerIdk msgId).deleted = true)
    (changed : Key) (changedId : MsgId) (newText : Option String) :
    Same m (m.applyDmEdit changed changedId newText) peerIdk msgId := by
  by_cases hsame : peerIdk = changed ∧ msgId = changedId
  · obtain ⟨rfl, rfl⟩ := hsame
    rw [applyDmEdit_of_deleted hdeleted]
    exact ⟨rfl, rfl⟩
  · exact ⟨editState_applyDmEdit_ne newText hsame, reports_applyDmEdit_ne newText hsame⟩

/-- A change that a peer asks for leaves our messages alone exactly if none of them shares its
id with the message that is changed. -/
theorem same_change_iff (sender : Key) (changed : MsgId) (newText : Option String) :
    (∀ peerIdk msgId, m.hasText true peerIdk msgId = true →
      Same m (if m.dmTargetMatches sender changed then m.applyDmEdit sender changed newText else m)
        peerIdk msgId) ↔
      (m.hasText true sender changed = true → m.hasText false sender changed = true →
        (m.editState sender changed).deleted = true) := by
  constructor
  · intro hkept hours htheirs
    have hsame := hkept sender changed hours
    rw [dmTargetMatches, if_pos htheirs] at hsame
    by_contra hdeleted
    exact reports_applyDmEdit_ne_self (Bool.eq_false_of_not_eq_true hdeleted) newText hsame.2
  · intro hunshared peerIdk msgId hours
    split
    · rename_i htheirs
      by_cases hsame : peerIdk = sender ∧ msgId = changed
      · obtain ⟨rfl, rfl⟩ := hsame
        exact same_applyDmEdit_of_deleted (hunshared hours htheirs) _ _ _
      · exact ⟨editState_applyDmEdit_ne newText hsame, reports_applyDmEdit_ne newText hsame⟩
    · exact ⟨rfl, rfl⟩

theorem oursKept_iff (m : Messages) (op : DmOp) : m.OursKept op ↔ m.Unshared op := by
  cases op with
  | receive sender content fetched nowMs =>
    cases content with
    | dmEdit changed text =>
      simp only [Unshared, target, Option.mem_def, Option.some.injEq, forall_eq']
      exact same_change_iff sender changed (some text)
    | dmDelete changed =>
      simp only [Unshared, target, Option.mem_def, Option.some.injEq, forall_eq']
      exact same_change_iff sender changed none
    | text | textId | file =>
      exact ⟨fun _ msgId hid => (nomatch hid), fun _ _ _ _ => same_push _ _ _ _⟩
    | _ => exact ⟨fun _ msgId hid => (nomatch hid), fun _ _ _ _ => ⟨rfl, rfl⟩⟩
  | _ => exact Iff.rfl

theorem deletedKept (m : Messages) (op : DmOp) : m.DeletedKept op := by
  intro peerIdk msgId hdeleted
  have hof {m' : Messages} (hsame : Same m m' peerIdk msgId) :
      m'.editState peerIdk msgId = m.editState peerIdk msgId ∧
        ∀ edit ∈ m'.reports peerIdk msgId, edit ∈ m.reports peerIdk msgId :=
    ⟨hsame.1, fun edit hedit => hsame.2 ▸ hedit⟩
  cases op with
  | send receiver content nowMs => exact hof (same_push _ _ _ _)
  | takeDmEdits => exact ⟨rfl, fun edit hedit => nomatch hedit⟩
  | edit receiver changed newText sent =>
    apply hof
    unfold step
    dsimp only
    cases hpost : m.postDmEdit receiver changed newText sent with
    | error e => exact ⟨rfl, rfl⟩
    | ok m' =>
      simp only [postDmEdit, Except.bind_eq_ok, Except.pure_eq_ok] at hpost
      obtain ⟨_, -, -, -, -, -, -, -, rfl⟩ := hpost
      exact same_applyDmEdit_of_deleted hdeleted _ _ _
  | receive sender content fetched nowMs =>
    apply hof
    cases content with
    | dmEdit changed text | dmDelete changed =>
      simp only [step, receive]
      split
      · exact same_applyDmEdit_of_deleted hdeleted _ _ _
      · exact ⟨rfl, rfl⟩
    | text | textId | file => exact same_push _ _ _ _
    | _ => exact ⟨rfl, rfl⟩

/-- In a run, a peer changes none of our messages, and deleted messages stay deleted, exactly
if no change of a peer is for an id that one of our messages has as well. -/
theorem own_messages_kept_iff (m : Messages) (ops : List DmOp) :
    Steps.Along step (fun m op => m.OursKept op ∧ m.DeletedKept op) m ops ↔
      Steps.Along step Unshared m ops := by
  apply Steps.along_congr
  intro m op
  rw [oursKept_iff]
  exact ⟨And.left, fun hunshared => ⟨hunshared, deletedKept m op⟩⟩

/-- Our message, a message of the peer under the same id, and the peer's edit of it. -/
def sharedId : List DmOp :=
  [.send (.fill 32 1) (.textId "ours" (.fill 16 5)) 0,
    .receive (.fill 32 1) (.textId "theirs" (.fill 16 5)) none 1,
    .receive (.fill 32 1) (.dmEdit (.fill 16 5) "changed") none 2]

/-- The peer has edited our message. -/
theorem peer_edits_our_message :
    let start : Messages := { history := [], dmEdits := ∅, newDmEdits := [] }
    (Steps.exec step start sharedId).history.head?.map (fun entry => (entry.outgoing, entry.msgId)) =
        some (true, .fill 16 5) ∧
      (Steps.exec step start sharedId).editState (.fill 32 1) (.fill 16 5) =
        { text := some "changed", deleted := false } ∧
      ¬ Steps.Along step (fun m op => m.OursKept op ∧ m.DeletedKept op) start sharedId := by
  intro start
  refine ⟨by decide, by decide, ?_⟩
  rintro ⟨-, -, ⟨hours, -⟩, -⟩
  have hkept := (hours (.fill 32 1) (.fill 16 5) (by decide)).1
  exact absurd hkept (by decide)

end Messages

end Dante.Core
