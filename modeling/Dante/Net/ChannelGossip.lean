import Dante.Library.Method
import Dante.Proto.Enc

/-!
The gossip topic of a channel, on which relays and clients both publish. A relay writes a tag,
the number in big-endian order, the author and the frame with its length; a client writes the
number in little-endian order and the frame. Each side reads what its own kind writes and no
side reads the other.
-/

namespace Dante.Net

open Enc Parser Reader

def ledgerTopic : List Char := "dante/ledger/v1".toList

def prekeyTopic : List Char := "dante/prekey/v1".toList

def mailboxTopic : List Char := "dante/mbox/v1".toList

def keypkgTopic : List Char := "dante/keypkg/v1".toList

def chanTopicPrefix : List Char := "dante/chan/".toList

def hexByte (byte : UInt8) : List Char :=
  [Nat.digitChar (byte.toNat / 16), Nat.digitChar (byte.toNat % 16)]

def channelTopic (channelId : Hash) : List Char :=
  chanTopicPrefix ++ channelId.toList.flatMap hexByte

def hexValue (c : Char) : Option Nat :=
  if '0' ≤ c ∧ c ≤ '9' then some (c.toNat - '0'.toNat)
  else if 'a' ≤ c ∧ c ≤ 'f' then some (c.toNat - 'a'.toNat + 10)
  else if 'A' ≤ c ∧ c ≤ 'F' then some (c.toNat - 'A'.toNat + 10)
  else none

/-- `u8::from_str_radix` on two characters. A plus sign may stand in front of the digits. -/
def byteOfHex (first second : Char) : Option UInt8 := do
  let high ← if first = '+' then some 0 else hexValue first
  let low ← hexValue second
  return UInt8.ofNat (16 * high + low)

def bytesOfHex : List Char → Option Bytes
  | [] => some []
  | [_] => none
  | first :: second :: rest => return (← byteOfHex first second) :: (← bytesOfHex rest)

/-- The source compares the length in bytes. A text with other than ASCII characters is refused
either way. -/
def parseChannelTopic (topic : List Char) : Option Hash := do
  let hex ← topic.dropPrefix? chanTopicPrefix
  let bytes ← bytesOfHex hex
  if hlen : bytes.length = 32 then some (.ofList bytes hlen) else none

theorem byteOfHex_hexByte (byte : UInt8) :
    byteOfHex (Nat.digitChar (byte.toNat / 16)) (Nat.digitChar (byte.toNat % 16)) = some byte := by
  have hall : ∀ n < 256, byteOfHex (Nat.digitChar (n / 16)) (Nat.digitChar (n % 16)) =
      some (UInt8.ofNat n) := by decide +kernel
  rw [hall byte.toNat byte.toNat_lt, UInt8.ofNat_toNat]

theorem bytesOfHex_flatMap (bytes : Bytes) : bytesOfHex (bytes.flatMap hexByte) = some bytes := by
  induction bytes with
  | nil => rfl
  | cons byte rest ih =>
    simp [hexByte, bytesOfHex, byteOfHex_hexByte, ih]

theorem parseChannelTopic_channelTopic (channelId : Hash) :
    parseChannelTopic (channelTopic channelId) = some channelId := by
  have hdrop : (channelTopic channelId).dropPrefix? chanTopicPrefix =
      some (channelId.toList.flatMap hexByte) :=
    List.dropPrefix?_eq_some_iff.mpr ⟨chanTopicPrefix, rfl, beq_self_eq_true _⟩
  rw [parseChannelTopic, hdrop, Option.bind_eq_bind, Option.bind_some, bytesOfHex_flatMap]
  exact dif_pos channelId.length_toList

theorem channelTopic_ne (channelId : Hash) :
    channelTopic channelId ≠ ledgerTopic ∧ channelTopic channelId ≠ prekeyTopic ∧
      channelTopic channelId ≠ mailboxTopic ∧ channelTopic channelId ≠ keypkgTopic := by
  have hparse (topic : List Char) (h : parseChannelTopic topic = none) :
      channelTopic channelId ≠ topic := by
    rintro rfl
    rw [parseChannelTopic_channelTopic] at h
    cases h
  exact ⟨hparse _ (by decide), hparse _ (by decide), hparse _ (by decide), hparse _ (by decide)⟩

/-- What the node hears from its peers. -/
inductive Event where
  | message (topic : List Char) (data : Bytes)
  | other

inductive ChanGossip where
  | frame (seq : UInt64) (identity : Hash) (sig : Signature) (blob : Bytes)
  | roster (serverRoot : Hash) (version : UInt64) (members : List Hash) (sig : Signature)
  deriving DecidableEq

namespace ChanGossip

def encode : ChanGossip → Bytes
  | frame seq identity sig blob =>
    Writer.u8 0 ++ Writer.u64 seq ++ Writer.fixed identity ++ Writer.fixed sig ++
      Writer.bytes blob
  | roster serverRoot version members sig =>
    Writer.u8 1 ++ Writer.fixed serverRoot ++ Writer.u64 version ++ Writer.fixed sig ++
      Writer.u32 (UInt32.ofNat members.length) ++ members.flatMap Writer.fixed

def readMembers : Reader (List Hash) := do
  let n := (← Reader.u32).toNat
  if n > (← Reader.remaining) / 32 then
    throw (.lengthTooLarge (UInt64.ofNat n))
  Parser.times (Reader.fixed 32) n

def read : Reader ChanGossip := do
  match ← Reader.u8 with
  | 0 => return frame (← Reader.u64) (← Reader.fixed 32) (← Reader.fixed 64) (← Reader.bytes)
  | 1 =>
    let serverRoot ← Reader.fixed 32
    let version ← Reader.u64
    let sig ← Reader.fixed 64
    return roster serverRoot version (← readMembers) sig
  | tag => throw (.badDiscriminant "ChanGossip" tag.toUInt64)

def decode (data : Bytes) : Option ChanGossip := (Reader.decodeAll read data).toOption

def Fits : ChanGossip → Prop
  | frame _ _ _ blob => blob.length < 2 ^ 32
  | roster _ _ members _ => members.length < 2 ^ 32

/-- Members are written as a list, and the count is checked against their own length. -/
theorem codec_members :
    Codec readMembers (fun members => Writer.u32 (UInt32.ofNat members.length) ++
      members.flatMap Writer.fixed) fun members => members.length < 2 ^ 32 where
  reads {members} hlen := by
    intro rest
    have hword := toNat_ofNat_length hlen
    have hlength : (members.flatMap Writer.fixed).length = 32 * members.length := by
      rw [List.length_flatMap]
      simp [Writer.fixed, Nat.mul_comm]
    have hroom : ¬ (UInt32.ofNat members.length).toNat >
        (members.flatMap Writer.fixed ++ rest).length / 32 := by
      rw [hword, List.length_append, hlength]
      omega
    have hremaining : remaining.run (members.flatMap Writer.fixed ++ rest) =
        .ok ((members.flatMap Writer.fixed ++ rest).length, members.flatMap Writer.fixed ++ rest) :=
      rfl
    rw [readMembers, List.append_assoc, Parser.run_bind_of_ok (reads_u32 _ _)]
    dsimp only
    rw [Parser.run_bind_of_ok hremaining, if_neg hroom, hword]
    exact Parser.Reads.times members (fun member _ => reads_fixed member) rest
  takes := by
    refine codec_u32.takes_bind fun n _ => takes_remaining.bind ?_
    rintro count _ rfl
    dsimp only
    split
    · exact .throw
    · intro input rest members hok
      obtain ⟨taken, hinput, hlen, rfl, -⟩ :=
        (codec_fixed 32).takes.times n.toNat input rest members hok
      refine ⟨_, hinput, ?_, hlen ▸ n.toNat_lt⟩
      rw [hlen, UInt32.ofNat_toNat, List.nil_append]

theorem codec : Codec read encode Fits where
  reads {gossip} h := by
    cases gossip with
    | frame seq identity sig blob =>
      simp only [encode, List.append_assoc]
      exact (reads_u8 0).bind <| codec_u64.reads_bind trivial <|
        (codec_fixed 32).reads_bind trivial <| (codec_fixed 64).reads_bind trivial <|
        codec_bytes.reads_map h _
    | roster serverRoot version members sig =>
      simp only [encode, List.append_assoc]
      exact (reads_u8 1).bind <| (codec_fixed 32).reads_bind trivial <|
        codec_u64.reads_bind trivial <| (codec_fixed 64).reads_bind trivial <|
        codec_members.reads_map h _
  takes := by
    refine codec_u8.takes_bind fun tag _ => ?_
    split
    · exact codec_u64.takes_bind fun _ _ => (codec_fixed 32).takes_bind fun _ _ =>
        (codec_fixed 64).takes_bind fun _ _ => codec_bytes.takes_map fun _ h =>
        ⟨by simp [encode], h⟩
    · exact (codec_fixed 32).takes_bind fun _ _ => codec_u64.takes_bind fun _ _ =>
        (codec_fixed 64).takes_bind fun _ _ => codec_members.takes_map fun _ h =>
        ⟨by simp [encode], h⟩
    · exact .throw

theorem decode_eq_some {data : Bytes} {gossip : ChanGossip} :
    decode data = some gossip ↔ data = gossip.encode ∧ gossip.Fits := by
  rw [decode, Except.toOption_eq_some]
  exact decodeAll_eq_ok_iff codec

theorem length_encode_frame (seq : UInt64) (identity : Hash) (sig : Signature) (blob : Bytes) :
    (frame seq identity sig blob).encode.length = 109 + blob.length := by
  simp [encode, Writer.u8, Writer.u64, Writer.fixed, Writer.bytes, Writer.u32]
  omega

theorem le_length_encode (gossip : ChanGossip) : 8 ≤ gossip.encode.length := by
  cases gossip with
  | frame seq identity sig blob =>
    rw [length_encode_frame]
    omega
  | roster serverRoot version members sig =>
    simp [encode, Writer.u8, Writer.u64, Writer.fixed, Writer.u32]
    omega

end ChanGossip

/-- What the relay's loop takes from a channel's topic. -/
def channelMessage : Event → Option (Hash × ChanGossip)
  | .message topic data =>
    if topic = ledgerTopic ∨ topic = prekeyTopic ∨ topic = mailboxTopic ∨ topic = keypkgTopic then
      none
    else do
      let channelId ← parseChannelTopic topic
      let gossip ← ChanGossip.decode data
      return (channelId, gossip)
  | .other => none

def publishGossip (channelId : Hash) (gossip : ChanGossip) : Event :=
  .message (channelTopic channelId) gossip.encode

theorem channelMessage_channelTopic (channelId : Hash) (data : Bytes) :
    channelMessage (.message (channelTopic channelId) data) =
      (ChanGossip.decode data).map fun gossip => (channelId, gossip) := by
  obtain ⟨hledger, hprekey, hmailbox, hkeypkg⟩ := channelTopic_ne channelId
  rw [channelMessage, if_neg (by simp [*]), parseChannelTopic_channelTopic]
  cases ChanGossip.decode data <;> rfl

/-- Relays read each other. -/
theorem channelMessage_publishGossip (channelId : Hash) {gossip : ChanGossip} (h : gossip.Fits) :
    channelMessage (publishGossip channelId gossip) = some (channelId, gossip) := by
  rw [publishGossip, channelMessage_channelTopic, ChanGossip.decode_eq_some.mpr ⟨rfl, h⟩]
  rfl

def toLeBytes (n : UInt64) : Bytes := (BigEndian.encode 8 n.toNat).reverse

def fromLeBytes (bytes : Bytes) : UInt64 := UInt64.ofNat (BigEndian.decode bytes.reverse)

structure P2p where
  ledgerBuf : List Bytes
  chanBuf : List (Hash × UInt64 × Bytes)

namespace P2p

/-- One turn of the loop in `pump`. -/
def hear (p2p : P2p) : Event → P2p
  | .message topic data =>
    if topic = ledgerTopic then { p2p with ledgerBuf := p2p.ledgerBuf ++ [data] }
    else
      match parseChannelTopic topic with
      | some channelId =>
        if data.length ≥ 8 then
          { p2p with
            chanBuf := p2p.chanBuf ++ [(channelId, fromLeBytes (data.take 8), data.drop 8)] }
        else p2p
      | none => p2p
  | .other => p2p

def pump (p2p : P2p) (events : List Event) : P2p := events.foldl hear p2p

def publishChannel (channelId : Hash) (seq : UInt64) (frame : Bytes) : Event :=
  .message (channelTopic channelId) (toLeBytes seq ++ frame)

theorem pump_channelTopic (p2p : P2p) (channelId : Hash) {data : Bytes} (hlen : 8 ≤ data.length) :
    (p2p.pump [.message (channelTopic channelId) data]).chanBuf =
      p2p.chanBuf ++ [(channelId, fromLeBytes (data.take 8), data.drop 8)] := by
  simp [pump, hear, (channelTopic_ne channelId).1, parseChannelTopic_channelTopic, hlen]

theorem pump_publishChannel (p2p : P2p) (channelId : Hash) (seq : UInt64) (frame : Bytes) :
    (p2p.pump [publishChannel channelId seq frame]).chanBuf =
      p2p.chanBuf ++ [(channelId, seq, frame)] := by
  have hlen : (toLeBytes seq).length = 8 := by simp [toLeBytes]
  have hback : fromLeBytes (toLeBytes seq) = seq := by
    rw [fromLeBytes, toLeBytes, List.reverse_reverse, BigEndian.decode_encode_of_lt seq.toNat_lt,
      UInt64.ofNat_toNat]
  rw [publishChannel, pump_channelTopic p2p channelId (by simp [hlen]), ← hlen, List.take_left,
    List.drop_left, hback]

/-- Clients read each other over whole runs, in the order of what was sent. -/
theorem pump_published (p2p : P2p) (sent : List (Hash × UInt64 × Bytes)) :
    (p2p.pump (sent.map fun (id, seq, frame) => publishChannel id seq frame)).chanBuf =
      p2p.chanBuf ++ sent := by
  induction sent generalizing p2p with
  | nil => simp [pump]
  | cons one rest ih =>
    obtain ⟨id, seq, frame⟩ := one
    exact (ih (p2p.pump [publishChannel id seq frame])).trans (by simp [pump_publishChannel])

end P2p

open P2p

/-- No client reads a relay's frame as what it is, no relay reads a client's, and every roster
of a relay is a frame to a client. -/
theorem gossip_misread (p2p : P2p) (channelId : Hash) (seq : UInt64) (identity : Hash)
    (sig : Signature) (frame : Bytes) (serverRoot : Hash) (version : UInt64)
    (members : List Hash) (rosterSig : Signature) :
    (p2p.pump [publishGossip channelId (.frame seq identity sig frame)]).chanBuf ≠
        p2p.chanBuf ++ [(channelId, seq, frame)] ∧
      (∀ author authorSig, channelMessage (publishChannel channelId seq frame) ≠
        some (channelId, .frame seq author authorSig frame)) ∧
      ∃ read, (p2p.pump [publishGossip channelId
        (.roster serverRoot version members rosterSig)]).chanBuf =
          p2p.chanBuf ++ [(channelId, read)] := by
  refine ⟨?_, ?_, ?_⟩
  · -- the frame that is read is longer: it has the author and the length in it
    rw [publishGossip, pump_channelTopic p2p channelId (ChanGossip.le_length_encode _)]
    intro heq
    have hframe := congrArg List.length
      (Prod.mk.inj (Prod.mk.inj (List.singleton_inj.mp (List.append_cancel_left heq))).2).2
    rw [List.length_drop, ChanGossip.length_encode_frame] at hframe
    omega
  · -- what a relay reads has been written by a relay, and is longer
    intro author authorSig heq
    rw [publishChannel, channelMessage_channelTopic] at heq
    obtain ⟨gossip, hdecode, hgossip⟩ := Option.map_eq_some_iff.mp heq
    cases hgossip
    have hlen := congrArg List.length (ChanGossip.decode_eq_some.mp hdecode).1
    rw [ChanGossip.length_encode_frame, List.length_append, toLeBytes, List.length_reverse,
      BigEndian.encode_length] at hlen
    omega
  · rw [publishGossip, pump_channelTopic p2p channelId (ChanGossip.le_length_encode _)]
    exact ⟨_, rfl⟩

/-- The frame of one byte that has number 1, each way, and an empty roster. -/
theorem gossip_misread_sample :
    (P2p.pump ⟨[], []⟩ [publishGossip (.fill 32 7)
      (.frame 1 (.fill 32 8) (.fill 64 9) [42])]).chanBuf =
        [(.fill 32 7, 0, 1 :: (List.replicate 32 8 ++ List.replicate 64 9 ++ [0, 0, 0, 1, 42]))] ∧
      channelMessage (publishChannel (.fill 32 7) 1 [42]) = none ∧
      (P2p.pump ⟨[], []⟩ [publishGossip (.fill 32 7)
        (.roster (.fill 32 8) 1 [] (.fill 64 9))]).chanBuf.length = 1 := by
  decide +kernel

end Dante.Net
