import Dante.Core.Roles
import Dante.Dm.Content
import Dante.Ledger.Ledger

/-!
The client's side of channels: the sessions with their MLS groups, and `poll_channels`, which reads
the logs of all channels and then folds what it has read into the standing state.
-/

namespace Dante.Core

open Crypto Dm

/-- What `process_from` makes of a message of the group. -/
inductive Processed where
  | epochChanged
  | application (sender plaintext : Bytes)
  | ignored

structure Mls where
  Member : Type
  /-- Leaf index and identity of each member. -/
  members : Member → List (UInt32 × Bytes)
  /-- A message of the group, the only member whose commits count, and the check of a new
  member's binding. -/
  processFrom : Member → Bytes → Hash → (Bytes → Key → Bool) → Except String Processed × Member

/-- `<[u8; 32]>::try_from`. -/
def toId (bytes : Bytes) : Option Hash :=
  if h : bytes.length = 32 then some (.ofList bytes h) else none

theorem toId_eq_some {bytes : Bytes} {id : Hash} : toId bytes = some id ↔ bytes = id.toList := by
  unfold toId
  constructor
  · intro h
    split at h
    · rename_i hlen
      cases h
      exact (ByteArr.toList_ofList bytes hlen).symm
    · cases h
  · rintro rfl
    rw [dif_pos id.length_toList]
    exact congrArg some (ByteArr.toList_injective (ByteArr.toList_ofList _ _))

structure ChannelInfo where
  serverRoot : Key
  serverName : String
  channelName : String
  hostId : Hash
  deriving DecidableEq

structure ChannelSession (M : Mls) where
  info : ChannelInfo
  mls : M.Member
  roster : Finset Hash
  lastSeq : UInt64
  /-- The members that the host has ejected, and when. -/
  removed : AssocMap Hash UInt64
  logKey : Option Key

def ChannelSession.resyncRoster {M : Mls} (ch : ChannelSession M) : ChannelSession M :=
  { ch with roster := ((M.members ch.mls).filterMap fun row => toId row.2).toFinset }

structure MsgEdit where
  author : Hash
  text : Option String
  deleted : Bool
  deriving DecidableEq

structure PinInfo where
  who : Hash
  atMs : UInt64
  deriving DecidableEq

structure ChannelMessage where
  channelId : ChannelId
  channelName : String
  sender : Hash
  text : String
  seq : UInt64
  replyTo : Option UInt64
  forwardedFrom : Option String
  deriving DecidableEq

structure ChannelHistoryEntry where
  channelId : ChannelId
  sender : Hash
  outgoing : Bool
  tsMs : UInt64
  text : String
  seq : UInt64
  replyTo : Option UInt64
  forwardedFrom : Option String
  deriving DecidableEq

structure ChannelReaction where
  channelId : ChannelId
  targetSeq : UInt64
  emoji : String
  member : Hash
  removed : Bool
  deriving DecidableEq

structure ChannelEdit where
  channelId : ChannelId
  targetSeq : UInt64
  text : Option String
  deleted : Bool
  deriving DecidableEq

structure ChannelPin where
  channelId : ChannelId
  targetSeq : UInt64
  who : Hash
  atMs : UInt64
  pinned : Bool
  deriving DecidableEq

def channelHistoryCap : Nat := 2000

structure ChannelEngine (M : Mls) where
  me : Hash
  ledger : Ledger
  blocked : Finset Hash
  serverPolicies : AssocMap Key ServerPolicy
  channels : AssocMap ChannelId (ChannelSession M)
  channelGossip : AssocMap ChannelId (List (UInt64 × Bytes))
  /-- Messages that were shown from gossip and not yet seen in the log. -/
  gossipShown : Finset (ChannelId × UInt64)
  channelEdits : AssocMap ChannelId (AssocMap UInt64 MsgEdit)
  newEdits : List ChannelEdit
  channelReactions : AssocMap ChannelId (AssocMap UInt64 (AssocMap String (Finset Hash)))
  newReactions : List ChannelReaction
  channelPins : AssocMap ChannelId (AssocMap UInt64 PinInfo)
  newPins : List ChannelPin
  channelHistory : List ChannelHistoryEntry
  evictedChannels : List (ChannelId × Key × String)

/-- The result of a poll's reading: an edit (`some`) or a delete (`none`), not yet applied. -/
structure PendingEdit where
  channelId : ChannelId
  targetSeq : UInt64
  who : Hash
  newText : Option String
  deriving DecidableEq

structure PendingPin where
  channelId : ChannelId
  targetSeq : UInt64
  who : Hash
  unpin : Bool
  deriving DecidableEq

section Frames

/-- The bytes of a frame's message; the tag in front of it does not matter. -/
def unframe : Bytes → Option Bytes
  | [] => none
  | _ :: payload => some payload

variable (P : Primitives)

def unwrap (logKey : Key) (channelId : ChannelId) (blob : Bytes) : Option Bytes :=
  if h : 24 ≤ blob.length then
    P.xchachaOpen logKey (.ofList (blob.take 24) (by rw [List.length_take]; omega)) (blob.drop 24)
      channelId.toList
  else none

def payloadOf (logKey : Option Key) (channelId : ChannelId) (blob : Bytes) : Option Bytes := do
  let inner ← match logKey with
    | some key => unwrap P key channelId blob
    | none => some blob
  unframe inner

/-- The plaintext without its padding: a length in four bytes, then that many bytes. -/
def unpadChannel (b : Bytes) : Option Bytes :=
  if b.length < 4 then none
  else
    let n := BigEndian.decode (b.take 4)
    if b.length < 4 + n then none else some ((b.drop 4).take n)

def contentOf (plaintext : Bytes) : Option Content :=
  match (unpadChannel plaintext).map Content.decode with
  | some (.ok content) => some content
  | _ => none

end Frames

/-- `ledger_accepts_binding` over the client's ledger. -/
def ledgerAcceptsBinding (S : Suite) (L : Ledger) (identity : Bytes) (idkPub : Key) : Bool :=
  match toId identity with
  | none => false
  | some id =>
    match L.chainUsableForId id with
    | none => true
    | some false => false
    | some true => L.identityId S idkPub = some id

section EditMap

/-- No edit and no delete is recorded, only the author. -/
def MsgEdit.authorshipOnly (edit : MsgEdit) : Bool := edit.text.isNone && !edit.deleted

/-- `trim_edit_map`: the oldest entries that only record an author go first. -/
def trimEditMap (bySeq : AssocMap UInt64 MsgEdit) (cap : Nat) : AssocMap UInt64 MsgEdit :=
  let idle := (bySeq.entries.filter fun entry => entry.2.authorshipOnly).map Sigma.fst
  let victims := (idle.insertionSort (· ≤ ·)).take (idle.length - cap)
  victims.foldl (fun bySeq seq => bySeq.erase seq) bySeq

def idleSeqs (bySeq : AssocMap UInt64 MsgEdit) : List UInt64 :=
  (bySeq.entries.filter fun entry => entry.2.authorshipOnly).map Sigma.fst

variable {bySeq : AssocMap UInt64 MsgEdit} {cap : Nat} {seq : UInt64}

theorem nodup_idleSeqs (bySeq : AssocMap UInt64 MsgEdit) : (idleSeqs bySeq).Nodup :=
  bySeq.nodupKeys.sublist List.filter_sublist

theorem mem_idleSeqs : seq ∈ idleSeqs bySeq ↔
    ∃ edit, bySeq.lookup seq = some edit ∧ edit.authorshipOnly = true := by
  constructor
  · intro h
    obtain ⟨entry, hentry, rfl⟩ := List.mem_map.mp h
    obtain ⟨hmem, hidle⟩ := List.mem_filter.mp hentry
    exact ⟨entry.2, AList.mem_lookup_iff.mpr hmem, hidle⟩
  · rintro ⟨edit, hlookup, hidle⟩
    have hmem := AList.mem_lookup_iff.mp hlookup
    exact List.mem_map.mpr ⟨⟨seq, edit⟩, List.mem_filter.mpr ⟨hmem, hidle⟩, rfl⟩

/-- The messages that are forgotten, and those of which only the author is remembered, in the
order of their numbers. -/
theorem exists_victims (bySeq : AssocMap UInt64 MsgEdit) (cap : Nat) :
    ∃ victims kept : List UInt64, (victims ++ kept).Pairwise (· < ·) ∧
      (victims ++ kept).Perm (idleSeqs bySeq) ∧ kept.length = min cap (idleSeqs bySeq).length ∧
      ∀ seq, (trimEditMap bySeq cap).lookup seq =
        if seq ∈ victims then none else bySeq.lookup seq := by
  let sorted := (idleSeqs bySeq).insertionSort (· ≤ ·)
  let overflow := (idleSeqs bySeq).length - cap
  have hperm : sorted.Perm (idleSeqs bySeq) := List.perm_insertionSort _ _
  have hsorted : sorted.Pairwise (· < ·) :=
    ((List.pairwise_insertionSort _ _).and (hperm.nodup_iff.mpr (nodup_idleSeqs bySeq))).imp
      fun h => UInt64.lt_of_le_of_ne h.1 h.2
  refine ⟨sorted.take overflow, sorted.drop overflow, ?_, ?_, ?_,
    AssocMap.lookup_foldl_erase _ bySeq⟩
  · rwa [List.take_append_drop]
  · rwa [List.take_append_drop]
  · rw [List.length_drop, hperm.length_eq]
    omega

/-- Trimming forgets nothing but authors, and of those the oldest: every entry with an edit or a
delete stays, at most `cap` of the others do, and these are the newest. -/
theorem trimEditMap_forgets_oldest (bySeq : AssocMap UInt64 MsgEdit) (cap : Nat) :
    let trimmed := trimEditMap bySeq cap
    (∀ seq edit, bySeq.lookup seq = some edit → edit.authorshipOnly = false →
      trimmed.lookup seq = some edit) ∧
    (∀ seq edit, trimmed.lookup seq = some edit → bySeq.lookup seq = some edit) ∧
    (idleSeqs trimmed).length = min cap (idleSeqs bySeq).length ∧
    ∀ removed ∈ idleSeqs bySeq, removed ∉ idleSeqs trimmed →
      ∀ kept ∈ idleSeqs trimmed, removed < kept := by
  obtain ⟨victims, kept, hsorted, hperm, hlen, hlookup⟩ := exists_victims bySeq cap
  obtain ⟨-, hnodup, hbelow⟩ := List.pairwise_append.mp hsorted
  have hidle (seq : UInt64) : seq ∈ idleSeqs (trimEditMap bySeq cap) ↔ seq ∈ kept := by
    have hmem := hperm.mem_iff (a := seq)
    rw [List.mem_append, mem_idleSeqs] at hmem
    rw [mem_idleSeqs, hlookup]
    split
    · rename_i hvictim
      simp only [reduceCtorEq, false_and, exists_false, false_iff]
      exact fun hkept => UInt64.lt_irrefl seq (hbelow seq hvictim seq hkept)
    · rename_i hother
      simpa [hother] using hmem.symm
  refine ⟨?_, ?_, ?_, ?_⟩
  · intro seq edit hedit hactive
    rw [hlookup, if_neg, hedit]
    intro hvictim
    obtain ⟨found, hfound, hfoundIdle⟩ :=
      mem_idleSeqs.mp (hperm.mem_iff.mp (List.mem_append_left _ hvictim))
    rw [hedit, Option.some.injEq] at hfound
    rw [hfound, hfoundIdle] at hactive
    cases hactive
  · intro seq edit hedit
    rw [hlookup] at hedit
    split at hedit
    · cases hedit
    · exact hedit
  · have hkept : (idleSeqs (trimEditMap bySeq cap)).Perm kept :=
      (List.perm_ext_iff_of_nodup (nodup_idleSeqs _) (hnodup.imp UInt64.ne_of_lt)).mpr hidle
    rw [hkept.length_eq, hlen]
  · intro removed hremoved hgone newer hnewer
    rw [hidle] at hgone hnewer
    rcases List.mem_append.mp (hperm.mem_iff.mpr hremoved) with hvictim | hkept
    · exact hbelow removed hvictim newer hnewer
    · exact absurd hkept hgone

end EditMap

namespace ChannelEngine

variable {M : Mls} (engine : ChannelEngine M)

def editOf (channelId : ChannelId) (seq : UInt64) : Option MsgEdit :=
  (engine.channelEdits.lookup channelId).bind fun bySeq => bySeq.lookup seq

/-- The entry of a message, made with `author` if there is none. -/
def recordAuthor (channelId : ChannelId) (seq : UInt64) (author : Hash) : ChannelEngine M :=
  let bySeq := (engine.channelEdits.lookup channelId).getD ∅
  let entry := (bySeq.lookup seq).getD { author := author, text := none, deleted := false }
  { engine with channelEdits := engine.channelEdits.insert channelId (bySeq.insert seq entry) }

def recordReaction (r : ChannelReaction) : ChannelEngine M :=
  let bySeq := (engine.channelReactions.lookup r.channelId).getD ∅
  let slot := (bySeq.lookup r.targetSeq).getD ∅
  let bySeq :=
    if r.removed then
      let slot :=
        match slot.lookup r.emoji with
        | some set =>
          if set.erase r.member = ∅ then slot.erase r.emoji
          else slot.insert r.emoji (set.erase r.member)
        | none => slot
      if slot.entries = [] then bySeq.erase r.targetSeq else bySeq.insert r.targetSeq slot
    else
      bySeq.insert r.targetSeq
        (slot.insert r.emoji (insert r.member ((slot.lookup r.emoji).getD ∅)))
  { engine with
    channelReactions := engine.channelReactions.insert r.channelId bySeq
    newReactions := engine.newReactions ++ [r] }

/-- Applies an edit or a delete; without effect unless `who` wrote the message. -/
def applyChannelEdit (e : PendingEdit) : ChannelEngine M :=
  match engine.channelEdits.lookup e.channelId with
  | none => engine
  | some bySeq =>
    match bySeq.lookup e.targetSeq with
    | none => engine
    | some entry =>
      if entry.author ≠ e.who ∨ entry.deleted then engine
      else
        let entry := { entry with text := e.newText, deleted := e.newText.isNone }
        { engine with
          channelEdits := engine.channelEdits.insert e.channelId (bySeq.insert e.targetSeq entry)
          newEdits := engine.newEdits ++
            [{ channelId := e.channelId, targetSeq := e.targetSeq, text := e.newText,
               deleted := e.newText.isNone }] }

def isHost (channelId : ChannelId) (who : Hash) : Bool :=
  (engine.channels.lookup channelId).any fun ch => ch.info.hostId = who

def isAuthor (channelId : ChannelId) (seq : UInt64) (who : Hash) : Bool :=
  (engine.editOf channelId seq).any fun entry => entry.author = who

def mayPin (channelId : ChannelId) (targetSeq : UInt64) (who : Hash) : Bool :=
  engine.isHost channelId who || engine.isAuthor channelId targetSeq who

def applyChannelPin (p : PendingPin) (atMs : UInt64) : ChannelEngine M :=
  let bySeq := (engine.channelPins.lookup p.channelId).getD ∅
  let queued := engine.newPins ++
    [{ channelId := p.channelId, targetSeq := p.targetSeq, who := p.who, atMs := atMs,
       pinned := !p.unpin }]
  if engine.mayPin p.channelId p.targetSeq p.who then
    if p.unpin then
      if (bySeq.lookup p.targetSeq).isSome then
        let rest := bySeq.erase p.targetSeq
        { engine with
          channelPins :=
            if rest.entries = [] then engine.channelPins.erase p.channelId
            else engine.channelPins.insert p.channelId rest
          newPins := queued }
      else { engine with channelPins := engine.channelPins.insert p.channelId bySeq }
    else
      { engine with
        channelPins := engine.channelPins.insert p.channelId
          (bySeq.insert p.targetSeq { who := p.who, atMs := atMs })
        newPins := queued }
  else engine

def pushChannelHistory (e : ChannelHistoryEntry) : ChannelEngine M :=
  let history := engine.channelHistory ++ [e]
  { engine with channelHistory := history.drop (history.length - channelHistoryCap) }

def trimChannelEdits (channelId : ChannelId) : ChannelEngine M :=
  match engine.channelEdits.lookup channelId with
  | none => engine
  | some bySeq =>
    { engine with
      channelEdits := engine.channelEdits.insert channelId (trimEditMap bySeq channelHistoryCap) }

def evictChannel (row : ChannelId × Key × String) : ChannelEngine M :=
  { engine with
    channels := engine.channels.erase row.1
    evictedChannels := engine.evictedChannels ++ [row] }

theorem applyChannelEdit_frame (e : PendingEdit) :
    ∃ edits queued, engine.applyChannelEdit e =
      { engine with channelEdits := edits, newEdits := queued } := by
  rw [applyChannelEdit]
  repeat' split
  all_goals exact ⟨_, _, rfl⟩

theorem applyChannelPin_frame (p : PendingPin) (atMs : UInt64) :
    ∃ pins queued, engine.applyChannelPin p atMs =
      { engine with channelPins := pins, newPins := queued } := by
  rw [applyChannelPin]
  dsimp only
  repeat' split
  all_goals exact ⟨_, _, rfl⟩

theorem pushChannelHistory_frame (e : ChannelHistoryEntry) :
    ∃ history, engine.pushChannelHistory e = { engine with channelHistory := history } :=
  ⟨_, rfl⟩

theorem trimChannelEdits_frame (channelId : ChannelId) :
    ∃ edits, engine.trimChannelEdits channelId = { engine with channelEdits := edits } := by
  rw [trimChannelEdits]
  split
  all_goals exact ⟨_, rfl⟩

end ChannelEngine

end Dante.Core
