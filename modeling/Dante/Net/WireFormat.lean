import Dante.Dm.Content
import Dante.Dm.Session
import Dante.Net.Wire
import Dante.Proto.Record

/-!
The wire format as a whole: which values come back from their encodings, and that no value
has two. Lengths are words of 32 bits and a longer length is cut off, so that a value has to
fit; a message inside of a message is a blob and has to fit as well.
-/

namespace Dante

open Enc Parser Reader

/-- The only bytes that decode to a value are its encoding, and of the values in `domain` those
with `condition` come back from it. -/
def Canonical {α : Type} (encode : α → Bytes) (decode : Bytes → Except WireError α)
    (domain condition : α → Prop) (value : α) (bytes : Bytes) : Prop :=
  (domain value → (decode (encode value) = .ok value ↔ condition value)) ∧
    (decode bytes = .ok value → encode value = bytes)

theorem canonical_of_codec {α : Type} {reader : Reader α} {encode : α → Bytes}
    {fits domain condition : α → Prop} (h : Codec reader encode fits)
    (hfits : ∀ value, fits value ↔ domain value ∧ condition value) (value : α) (bytes : Bytes) :
    Canonical encode (decodeAll reader) domain condition value bytes := by
  refine ⟨?_, ?_⟩
  · intro hdomain
    rw [decodeAll_eq_ok_iff h, hfits]
    exact ⟨fun ⟨_, _, hcondition⟩ => hcondition, fun hcondition => ⟨rfl, hdomain, hcondition⟩⟩
  · intro hok
    exact ((decodeAll_eq_ok_iff h).mp hok).1.symm

namespace Dm

theorem Header.codec : Codec Header.read Header.encode fun _ => True where
  reads _ := Header.reads _
  takes :=
    (codec_fixed 32).takes_bind fun _ _ => codec_u32.takes_bind fun _ _ =>
      codec_u32.takes_map fun _ _ => ⟨by simp [Header.encode], trivial⟩

theorem DmMessage.codec :
    Codec DmMessage.read DmMessage.encode fun msg => msg.ciphertext.length < 2 ^ 32 where
  reads h := Header.codec.reads_bind trivial <| codec_bytes.reads_map h _
  takes :=
    Header.codec.takes_bind fun _ _ => codec_bytes.takes_map fun _ h => ⟨by simp [encode], h⟩

theorem InitMessage.codec_otp : Codec readOtp encodeOtp fun _ => True where
  reads _ := reads_otp _
  takes := by
    refine codec_bool.takes_bind fun present _ => ?_
    cases present with
    | false => exact .pure ⟨rfl, trivial⟩
    | true => exact (codec_fixed 32).takes_map fun _ _ => ⟨by simp [encodeOtp], trivial⟩

theorem InitMessage.codec :
    Codec InitMessage.read InitMessage.encode fun init =>
      init.first.ciphertext.length < 2 ^ 32 ∧ init.first.encode.length < 2 ^ 32 where
  reads {init} h := by
    simp only [encode, List.append_assoc]
    rw [← List.append_nil (Writer.bytes _)]
    exact (codec_fixed 32).reads_bind trivial <| (codec_fixed 32).reads_bind trivial <|
      codec_otp.reads_bind trivial <| reads_nested DmMessage.codec h.1 h.2 (.pure _)
  takes :=
    (codec_fixed 32).takes_bind fun _ _ => (codec_fixed 32).takes_bind fun _ _ =>
      codec_otp.takes_bind fun _ _ => takes_nested DmMessage.codec fun _ hct hfirst =>
      .pure ⟨by simp [encode], hct, hfirst⟩

namespace Packet

def Short : Packet → Prop
  | init m => m.first.ciphertext.length < 2 ^ 32
  | message m => m.ciphertext.length < 2 ^ 32

/-- The messages inside of a packet are shorter than `2 ^ 32`. -/
def NestedShort : Packet → Prop
  | init m => m.first.encode.length < 2 ^ 32 ∧ m.encode.length < 2 ^ 32
  | message m => m.encode.length < 2 ^ 32

theorem codec : Codec Packet.read Packet.encode fun packet => packet.Short ∧ packet.NestedShort where
  reads {packet} h := by
    cases packet with
    | init m =>
      rw [encode, ← List.append_nil (Writer.bytes _)]
      exact reads_tag <| reads_nested InitMessage.codec ⟨h.1, h.2.1⟩ h.2.2 (.pure _)
    | message m =>
      rw [encode, ← List.append_nil (Writer.bytes _)]
      exact reads_tag <| reads_nested DmMessage.codec h.1 h.2 (.pure _)
  takes := by
    refine codec_u8.takes_bind fun tag _ => ?_
    split
    · exact takes_nested InitMessage.codec fun _ h hlen =>
        .pure ⟨by simp [encode], h.1, h.2, hlen⟩
    · exact takes_nested DmMessage.codec fun _ h hlen => .pure ⟨by simp [encode], h, hlen⟩
    · exact .throw

end Packet

namespace FileManifest

theorem readHashes_eq (n : Nat) : readHashes n = Parser.times (Reader.fixed 32) n := by
  induction n with
  | zero => rfl
  | succ n ih => rw [readHashes, ih, Parser.times]

theorem read_eq : FileManifest.read = (do
    let fileKey ← Reader.fixed 32
    let filename ← Reader.string
    let totalSize ← Reader.u64
    let chunkSize ← Reader.u32
    let chunkHashes ← Reader.list (Reader.fixed 32)
    let senderIdk ← Reader.fixed 32
    let sig ← Reader.fixed 64
    return { fileKey, filename, totalSize, chunkSize, chunkHashes, senderIdk, sig }) := by
  unfold FileManifest.read Reader.list
  simp only [bind_assoc, readHashes_eq]
  repeat (congr 1; funext _)
  split
  · rfl
  · rfl

theorem encode_eq (manifest : FileManifest) :
    manifest.encode = Writer.fixed manifest.fileKey ++ (Writer.string manifest.filename ++
      (Writer.u64 manifest.totalSize ++ (Writer.u32 manifest.chunkSize ++
        (Writer.list Writer.fixed manifest.chunkHashes ++
          (Writer.fixed manifest.senderIdk ++ Writer.fixed manifest.sig))))) := by
  simp [encode, Writer.list, List.flatMap]

theorem codec : Codec FileManifest.read FileManifest.encode fun manifest =>
    manifest.filename.utf8ByteSize < 2 ^ 32 ∧ manifest.chunkHashes.length < 2 ^ 32 where
  reads {manifest} h := by
    rw [read_eq, encode_eq]
    exact (codec_fixed 32).reads_bind trivial <| codec_string.reads_bind h.1 <|
      codec_u64.reads_bind trivial <| codec_u32.reads_bind trivial <|
      (Net.Wire.codec_arrays (by decide)).reads_bind h.2 <| (codec_fixed 32).reads_bind trivial <|
      (codec_fixed 64).reads_map trivial _
  takes := by
    rw [read_eq]
    exact (codec_fixed 32).takes_bind fun _ _ => codec_string.takes_bind fun _ hname =>
      codec_u64.takes_bind fun _ _ => codec_u32.takes_bind fun _ _ =>
      (Net.Wire.codec_arrays (by decide)).takes_bind fun _ hhashes =>
      (codec_fixed 32).takes_bind fun _ _ => (codec_fixed 64).takes_map fun _ _ =>
      ⟨by simp [encode_eq], hname, hhashes⟩

end FileManifest

namespace Content

def Short : Content → Prop
  | text s | callOffer s | callAnswer s | callIce s | reaction _ s _ | edit _ s | reply _ s
  | textId s _ | dmEdit _ s | voiceSignal _ _ s | callSignal _ s => s.utf8ByteSize < 2 ^ 32
  | file m => m.filename.utf8ByteSize < 2 ^ 32 ∧ m.chunkHashes.length < 2 ^ 32
  | channel blob | groupCallWelcome _ blob | groupCallCommit _ blob => blob.length < 2 ^ 32
  | forward origin s => origin.utf8ByteSize < 2 ^ 32 ∧ s.utf8ByteSize < 2 ^ 32
  | _ => True

/-- The manifest inside of a file message is shorter than `2 ^ 32`. -/
def NestedShort : Content → Prop
  | file m => m.encode.length < 2 ^ 32
  | _ => True

theorem reads {content : Content} (h : content.Short) (hnested : content.NestedShort) :
    Reads Content.read content.encode content := by
  cases content <;> simp only [encode, List.append_assoc]
  case text | callOffer | callAnswer | callIce => exact reads_tag <| codec_string.reads_map h _
  case file =>
    rw [← List.append_nil (Writer.bytes _)]
    exact reads_tag <| reads_nested FileManifest.codec h hnested (.pure _)
  case channel => exact reads_tag <| codec_bytes.reads_map h _
  case typing | callEnd => exact codec_u8.reads_last trivial (.pure _)
  case reaction =>
    exact reads_tag <| codec_u64.reads_bind trivial <|
      codec_string.reads_bind h <| codec_bool.reads_map trivial _
  case groupCallWelcome | groupCallCommit =>
    exact reads_tag <| (codec_fixed 32).reads_bind trivial <| codec_bytes.reads_map h _
  case groupCallLeave | groupCallJoinRequest =>
    exact reads_tag <| (codec_fixed 32).reads_map trivial _
  case edit | reply => exact reads_tag <| codec_u64.reads_bind trivial <| codec_string.reads_map h _
  case delete => exact reads_tag <| codec_u64.reads_map trivial _
  case pin => exact reads_tag <| codec_u64.reads_bind trivial <| codec_bool.reads_map trivial _
  case textId =>
    exact reads_tag <| codec_string.reads_bind h <| (codec_fixed 16).reads_map trivial _
  case dmEdit =>
    exact reads_tag <| (codec_fixed 16).reads_bind trivial <| codec_string.reads_map h _
  case dmDelete => exact reads_tag <| (codec_fixed 16).reads_map trivial _
  case forward => exact reads_tag <| codec_string.reads_bind h.1 <| codec_string.reads_map h.2 _
  case voiceSignal =>
    exact reads_tag <| (codec_fixed 32).reads_bind trivial <|
      codec_u8.reads_bind trivial <| codec_string.reads_map h _
  case callSignal => exact reads_tag <| codec_u8.reads_bind trivial <| codec_string.reads_map h _

theorem takes : Takes Content.read fun content xs =>
    xs = content.encode ∧ content.Short ∧ content.NestedShort := by
  refine codec_u8.takes_bind fun tag _ => ?_
  split
  -- the branches in the order of `read`
  · exact codec_string.takes_map fun _ h => ⟨rfl, h, trivial⟩
  · exact takes_nested FileManifest.codec fun _ h hlen => .pure ⟨by simp [encode], h, hlen⟩
  · exact codec_bytes.takes_map fun _ h => ⟨rfl, h, trivial⟩
  · exact .pure ⟨rfl, trivial, trivial⟩
  · exact codec_u64.takes_bind fun _ _ => codec_string.takes_bind fun _ h =>
      codec_bool.takes_map fun _ _ => ⟨by simp [encode], h, trivial⟩
  · exact codec_string.takes_map fun _ h => ⟨rfl, h, trivial⟩
  · exact codec_string.takes_map fun _ h => ⟨rfl, h, trivial⟩
  · exact codec_string.takes_map fun _ h => ⟨rfl, h, trivial⟩
  · exact .pure ⟨rfl, trivial, trivial⟩
  · exact (codec_fixed 32).takes_bind fun _ _ => codec_bytes.takes_map fun _ h =>
      ⟨by simp [encode], h, trivial⟩
  · exact (codec_fixed 32).takes_bind fun _ _ => codec_bytes.takes_map fun _ h =>
      ⟨by simp [encode], h, trivial⟩
  · exact (codec_fixed 32).takes_map fun _ _ => ⟨rfl, trivial, trivial⟩
  · exact codec_u64.takes_bind fun _ _ => codec_string.takes_map fun _ h =>
      ⟨by simp [encode], h, trivial⟩
  · exact codec_u64.takes_map fun _ _ => ⟨rfl, trivial, trivial⟩
  · exact codec_u64.takes_bind fun _ _ => codec_string.takes_map fun _ h =>
      ⟨by simp [encode], h, trivial⟩
  · exact codec_u64.takes_bind fun _ _ => codec_bool.takes_map fun _ _ =>
      ⟨by simp [encode], trivial, trivial⟩
  · exact codec_string.takes_bind fun _ h => (codec_fixed 16).takes_map fun _ _ =>
      ⟨by simp [encode], h, trivial⟩
  · exact (codec_fixed 16).takes_bind fun _ _ => codec_string.takes_map fun _ h =>
      ⟨by simp [encode], h, trivial⟩
  · exact (codec_fixed 16).takes_map fun _ _ => ⟨rfl, trivial, trivial⟩
  · exact codec_string.takes_bind fun _ horigin => codec_string.takes_map fun _ h =>
      ⟨by simp [encode], ⟨horigin, h⟩, trivial⟩
  · exact (codec_fixed 32).takes_map fun _ _ => ⟨rfl, trivial, trivial⟩
  · exact (codec_fixed 32).takes_bind fun _ _ => codec_u8.takes_bind fun _ _ =>
      codec_string.takes_map fun _ h => ⟨by simp [encode], h, trivial⟩
  · exact codec_u8.takes_bind fun _ _ => codec_string.takes_map fun _ h =>
      ⟨by simp [encode], h, trivial⟩
  · exact .throw

theorem codec :
    Codec Content.read Content.encode fun content => content.Short ∧ content.NestedShort :=
  ⟨fun h => reads h.1 h.2, takes⟩

end Content

end Dm

/-- No value of the wire format has two encodings, and a value comes back from its encoding if
its strings, blobs and lists fit a length word, and so do the messages inside of it. -/
theorem wire_format_canonical (request : Net.Wire.Request) (response : Net.Wire.Response)
    (record : Record) (env : Envelope) (packet : Dm.Packet) (content : Dm.Content) (bytes : Bytes) :
    Canonical Net.Wire.Request.encode Net.Wire.Request.decode Net.Wire.Request.Short
      (fun _ => True) request bytes ∧
    Canonical Net.Wire.Response.encode Net.Wire.Response.decode Net.Wire.Response.Short
      (fun _ => True) response bytes ∧
    Canonical Record.encode Record.decode (fun record => record.body.length < 2 ^ 32)
      (fun _ => True) record bytes ∧
    Canonical Envelope.encode Envelope.decode (fun env => env.payload.length < 2 ^ 32)
      (fun _ => True) env bytes ∧
    Canonical Dm.Packet.encode Dm.Packet.decode Dm.Packet.Short Dm.Packet.NestedShort packet bytes ∧
    Canonical Dm.Content.encode Dm.Content.decode Dm.Content.Short Dm.Content.NestedShort content
      bytes := by
  refine ⟨?_, ?_, ?_, ?_, ?_, ?_⟩
  · exact canonical_of_codec Net.Wire.Request.codec (fun _ => (and_iff_left trivial).symm) _ _
  · exact canonical_of_codec Net.Wire.Response.codec (fun _ => (and_iff_left trivial).symm) _ _
  · exact canonical_of_codec Record.codec (fun _ => (and_iff_left trivial).symm) _ _
  · exact canonical_of_codec Envelope.codec (fun _ => (and_iff_left trivial).symm) _ _
  · exact canonical_of_codec Dm.Packet.codec (fun _ => Iff.rfl) _ _
  · exact canonical_of_codec Dm.Content.codec (fun _ => Iff.rfl) _ _

/-- A message with a ciphertext that fits, but with the header around it the message does
not. -/
def oversized (ciphertext : Bytes) : Dm.Packet :=
  .message { header := { dh := .fill 32 0, pn := 0, n := 0 }, ciphertext := ciphertext }

theorem oversized_short {ciphertext : Bytes} (hlen : ciphertext.length = 2 ^ 32 - 44) :
    (oversized ciphertext).Short ∧ ¬ (oversized ciphertext).NestedShort := by
  refine ⟨?_, ?_⟩
  · rw [oversized, Dm.Packet.Short, hlen]
    decide
  · rw [oversized, Dm.Packet.NestedShort, Dm.DmMessage.encode, Dm.Header.encode, Writer.bytes]
    simp only [Writer.fixed, Writer.u32, List.length_append, BigEndian.encode_length,
      ByteArr.length_toList, hlen]
    decide

/-- The length in front of the message is cut off to zero, and the packet does not decode. -/
theorem oversized_packet_lost :
    let packet := oversized (List.replicate (2 ^ 32 - 44) 0)
    packet.Short ∧ Dm.Packet.decode packet.encode ≠ .ok packet := by
  obtain ⟨hshort, hnested⟩ := oversized_short
    (List.length_replicate : (List.replicate (2 ^ 32 - 44) (0 : UInt8)).length = 2 ^ 32 - 44)
  refine ⟨hshort, fun hok => hnested ?_⟩
  exact ((decodeAll_eq_ok_iff Dm.Packet.codec).mp hok).2.2

end Dante
