import Dante.Core.Hosting
import Dante.Dm.File
import Dante.Relay.Channels

/-!
The padding of channel messages. A message is filled up to a size class before it is encrypted.
The largest class is as long as the longest frame that a relay takes, so that nothing in it can
be posted: encryption, the tag of the frame and the outer layer all add to it.
-/

namespace Dante.Core

open Crypto Dm Enc Except FileManifest Relay

def channelPadLadder : List Nat := [64, 256, 1024, 4096, 16384, 65536, 262144, 1048576]

/-- The size class of a length: the first of the ladder that holds it with its length word, or
what it needs beyond the ladder. -/
def channelBucket (len : Nat) : Nat :=
  (channelPadLadder.find? fun bucket => bucket ≥ 4 + len).getD (4 + len)

def padChannel (pt : Bytes) : Bytes :=
  let out := Writer.u32 (UInt32.ofNat pt.length) ++ pt
  out ++ List.replicate (channelBucket pt.length - out.length) 0

def frameApp : UInt8 := 1

/-- The frame that `send_channel_content` posts. `encrypt` is the group's encryption. -/
def channelFrame (P : Primitives) (encrypt : Bytes → Bytes) (logKey : Option Key)
    (channelId : ChannelId) (nonce : ByteArr 24) (content : Bytes) : Bytes :=
  wrapChannelFrame P logKey channelId frameApp (encrypt (padChannel content)) nonce

/-- What is assumed of the group's encryption: it adds something, and less than half a
mebibyte. -/
structure Expands (encrypt : Bytes → Bytes) : Prop where
  longer : ∀ pt, pt.length < (encrypt pt).length
  moderate : ∀ pt, (encrypt pt).length ≤ pt.length + 512 * 1024

private theorem find?_le {p : Nat → Bool} {ladder : List Nat} (hsorted : ladder.Pairwise (· ≤ ·))
    {found bucket : Nat} (hfound : ladder.find? p = some found) (hmem : bucket ∈ ladder)
    (hp : p bucket = true) : found ≤ bucket := by
  obtain ⟨-, before, after, rfl, hbefore⟩ := List.find?_eq_some_iff_append.mp hfound
  rcases List.mem_append.mp hmem with hearly | hlate
  · have := hbefore bucket hearly
    simp [hp] at this
  · rcases List.mem_cons.mp hlate with rfl | hrest
    · exact Nat.le_refl _
    · exact (List.pairwise_cons.mp (List.pairwise_append.mp hsorted).2.1).1 bucket hrest

theorem le_channelBucket (len : Nat) : 4 + len ≤ channelBucket len := by
  unfold channelBucket
  cases hfind : channelPadLadder.find? fun bucket => bucket ≥ 4 + len with
  | none => exact Nat.le_refl _
  | some bucket =>
    have hholds := List.find?_some hfind
    exact of_decide_eq_true hholds

theorem channelBucket_le {len bucket : Nat} (hmem : bucket ∈ channelPadLadder)
    (hholds : 4 + len ≤ bucket) : channelBucket len ≤ bucket := by
  unfold channelBucket
  cases hfind : channelPadLadder.find? fun bucket => bucket ≥ 4 + len with
  | none => exact hholds
  | some found => exact find?_le (by decide) hfind hmem (decide_eq_true hholds)

/-- A class of the ladder is taken while the last one holds the length. -/
theorem channelBucket_mem {len : Nat} (htop : 4 + len ≤ 1048576) :
    channelBucket len ∈ channelPadLadder := by
  unfold channelBucket
  cases hfind : channelPadLadder.find? fun bucket => bucket ≥ 4 + len with
  | none => exact absurd (decide_eq_true htop) (List.find?_eq_none.mp hfind 1048576 (by decide))
  | some found => exact List.mem_of_find?_eq_some hfind

/-- Beyond the last class but one there is the last one. -/
theorem channelBucket_eq_last {len : Nat} (htop : 4 + len ≤ 1048576) (hlong : 262144 < 4 + len) :
    channelBucket len = 1048576 := by
  have hall : ∀ bucket ∈ channelPadLadder, bucket ≤ 262144 ∨ bucket = 1048576 := by decide
  have hholds := le_channelBucket len
  rcases hall _ (channelBucket_mem htop) with hsmall | hlast
  · omega
  · exact hlast

theorem length_padChannel (pt : Bytes) : (padChannel pt).length = channelBucket pt.length := by
  have := le_channelBucket pt.length
  simp only [padChannel, List.length_append, List.length_replicate, Writer.length_u32]
  omega

theorem unpadChannel_of_unpad {b pt : Bytes} (h : unpad b = .ok pt) : unpadChannel b = some pt := by
  simp only [unpad, bind_eq_ok, refuseIf_eq_ok, pure_eq_ok] at h
  obtain ⟨-, hshort, -, hlong, rfl⟩ := h
  rw [unpadChannel, if_neg hshort, if_neg hlong]

theorem unpadChannel_padChannel {pt : Bytes} (hlen : pt.length < 2 ^ 32) :
    unpadChannel (padChannel pt) = some pt := by
  have hfits := le_channelBucket pt.length
  exact unpadChannel_of_unpad (unpad_pad (by omega) hlen)

section

variable {P : Primitives} {tagLen : Nat} {encrypt : Bytes → Bytes}

/-- What the tag of the frame and the outer layer add. -/
theorem length_wrapChannelFrame (hP : AppendsTag P tagLen) (logKey : Option Key)
    (channelId : ChannelId) (tag : UInt8) (payload : Bytes) (nonce : ByteArr 24) :
    (wrapChannelFrame P logKey channelId tag payload nonce).length =
      payload.length + 1 + if logKey.isSome then 24 + tagLen else 0 := by
  cases logKey with
  | none => rfl
  | some key =>
    simp only [wrapChannelFrame, List.length_append, hP.length_seal, ByteArr.length_toList,
      List.length_cons, Option.isSome_some, if_true]
    omega

/-- A message comes back from its padding, the padded length is that of its size class, and of
the messages that the ladder holds those outside its last class fit a frame of the relay. -/
theorem channelFrame_fits_iff (hP : AppendsTag P tagLen) (htag : tagLen ≤ 1024)
    (hmls : Expands encrypt) (logKey : Option Key) (channelId : ChannelId) (nonce : ByteArr 24)
    (pt : Bytes) (hlen : pt.length < 2 ^ 32) :
    unpadChannel (padChannel pt) = some pt ∧
      (∀ other : Bytes, channelBucket other.length = channelBucket pt.length →
        (padChannel other).length = (padChannel pt).length) ∧
      (4 + pt.length ≤ 1048576 →
        ((channelFrame P encrypt logKey channelId nonce pt).length ≤ maxChannelBlobBytes ↔
          4 + pt.length ≤ 262144)) := by
  refine ⟨unpadChannel_padChannel hlen, ?_, ?_⟩
  · intro other hsame
    rw [length_padChannel, length_padChannel, hsame]
  · intro htop
    have hlonger := hmls.longer (padChannel pt)
    have hmoderate := hmls.moderate (padChannel pt)
    rw [length_padChannel] at hlonger hmoderate
    rw [channelFrame, length_wrapChannelFrame hP, maxChannelBlobBytes]
    constructor
    · intro hfits
      by_contra hlong
      -- the last class leaves no room for the byte that encryption adds
      rw [channelBucket_eq_last htop (by omega)] at hlonger
      omega
    · intro hsmall
      have hbucket : channelBucket pt.length ≤ 262144 := channelBucket_le (by decide) hsmall
      split <;> omega

end

def sampleEncrypt (pt : Bytes) : Bytes := pt ++ [0]

theorem sampleEncrypt_expands : Expands sampleEncrypt where
  longer pt := by simp [sampleEncrypt]
  moderate pt := by simp [sampleEncrypt]

/-- A short message in a channel with a password. -/
theorem channelFrame_fits_sample :
    unpadChannel (padChannel [1, 2, 3]) = some [1, 2, 3] ∧
      (channelFrame samplePrimitives sampleEncrypt (some (.fill 32 1)) (.fill 32 2) (.fill 24 3)
        [1, 2, 3]).length ≤ maxChannelBlobBytes := by
  obtain ⟨hback, -, hfits⟩ := channelFrame_fits_iff samplePrimitives_appendsTag (by decide)
    sampleEncrypt_expands (some (.fill 32 1)) (.fill 32 2) (.fill 24 3) [1, 2, 3] (by decide)
  exact ⟨hback, (hfits (by decide)).mpr (by decide)⟩

/-- The shortest message of the last class, in a channel without a password. -/
theorem channelFrame_too_long :
    (channelFrame samplePrimitives sampleEncrypt none (.fill 32 2) (.fill 24 3)
      (List.replicate 262141 7)).length = maxChannelBlobBytes + 2 := by
  have hbucket : channelBucket 262141 = 1048576 := by decide
  rw [channelFrame, length_wrapChannelFrame samplePrimitives_appendsTag, sampleEncrypt,
    List.length_append, length_padChannel, List.length_replicate, hbucket]
  rfl

end Dante.Core
