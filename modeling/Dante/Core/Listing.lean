import Dante.Dm.Content
import Dante.Ledger.Server
import Dante.Library.AssocMap

/-!
A host puts its server into the public directory. The client cuts the texts to a number of
characters, and the ledger limits them to the same number of bytes, so that only a text whose
first characters are short enough in UTF-8 is taken.
-/

namespace Dante.Core

open Crypto Dm Enc Ledger Except

/-- What the directory entry takes from a hosted server. -/
structure Listing where
  name : String
  channels : List ChannelId
  registerPow : Pow.PowProof

inductive ListingError (ε : Type) where
  | notServerHost
  | channel (what : String)
  | invite (error : ε)
  deriving DecidableEq

/-- `text.chars().take(n).collect()` -/
def takeChars (n : Nat) (text : String) : String := String.ofList (text.toList.take n)

/-- The name, the summary and the tags of a server that is not discoverable stay private. -/
def registration (listing : Listing) (relayAddrs : List String) (serverRoot : Key)
    (discoverable : Bool) (summary : String) (tags : List String) (invite : String) :
    ServerRegister where
  serverRoot := serverRoot
  name := if discoverable then takeChars 64 listing.name else ""
  summary := if discoverable then takeChars 280 summary else ""
  tags := if discoverable then (tags.map (takeChars 32)).take 8 else []
  entryRelays := relayAddrs.take 8
  discoverable := discoverable
  invite := invite
  pow := listing.registerPow

/-- The link that the entry shows, for ten years and without a limit of uses. -/
def listingInvite {ε : Type} (createInviteLink : ChannelId → Except ε String) (listing : Listing)
    (discoverable : Bool) : Except (ListingError ε) String :=
  if discoverable then do
    let channelId ← okOr listing.channels.head? (.channel "create a channel first")
    (createInviteLink channelId).mapError .invite
  else
    pure ""

/-- The body of the record that `set_discoverable` submits. -/
def setDiscoverable {ε : Type} (hosted : AssocMap Key Listing) (relayAddrs : List String)
    (createInviteLink : ChannelId → Except ε String) (serverRoot : Key) (discoverable : Bool)
    (summary : String) (tags : List String) : Except (ListingError ε) ServerRegister := do
  let listing ← okOr (hosted.lookup serverRoot) .notServerHost
  let invite ← listingInvite createInviteLink listing discoverable
  return registration listing relayAddrs serverRoot discoverable summary tags invite

/-- The first `limit` characters of the text take at most `limit` bytes. -/
def InBytes (limit : Nat) (text : String) : Prop :=
  ((text.toList.take limit).map Char.utf8Size).sum ≤ limit

instance (limit : Nat) (text : String) : Decidable (InBytes limit text) :=
  inferInstanceAs (Decidable (_ ≤ limit))

theorem utf8ByteSize_takeChars (n : Nat) (text : String) :
    (takeChars n text).utf8ByteSize = ((text.toList.take n).map Char.utf8Size).sum :=
  String.utf8ByteSize_ofList_eq_sum _

theorem utf8ByteSize_takeChars_le_iff (n : Nat) (text : String) :
    (takeChars n text).utf8ByteSize ≤ n ↔ InBytes n text := by
  rw [utf8ByteSize_takeChars]
  rfl

theorem utf8ByteSize_takeChars_le (n : Nat) (text : String) :
    (takeChars n text).utf8ByteSize ≤ 4 * n := by
  have hsum : ((text.toList.take n).map Char.utf8Size).sum ≤
      ((text.toList.take n).map Char.utf8Size).length • 4 := by
    apply List.sum_le_card_nsmul
    intro size hsize
    obtain ⟨c, -, rfl⟩ := List.mem_map.mp hsize
    exact c.utf8Size_le_four
  rw [List.length_map, List.length_take, smul_eq_mul] at hsum
  rw [utf8ByteSize_takeChars]
  omega

section

variable {listing : Listing} {relayAddrs : List String} {serverRoot : Key} {discoverable : Bool}
  {summary : String} {tags : List String} {invite : String}

theorem length_tags_le : (registration listing relayAddrs serverRoot discoverable summary tags
    invite).tags.length ≤ 8 := by
  unfold registration
  cases discoverable with
  | false => exact Nat.zero_le 8
  | true => exact List.length_take_le 8 _

theorem mem_tags {tag : String} (hmem : tag ∈ (registration listing relayAddrs serverRoot
    discoverable summary tags invite).tags) : ∃ text, tag = takeChars 32 text := by
  unfold registration at hmem
  cases discoverable with
  | false => cases hmem
  | true =>
    obtain ⟨text, -, rfl⟩ := List.mem_map.mp (List.mem_of_mem_take hmem)
    exact ⟨text, rfl⟩

theorem utf8ByteSize_ite_le (n : Nat) (text : String) :
    (if discoverable then takeChars n text else "").utf8ByteSize ≤ 4 * n := by
  cases discoverable with
  | false => exact Nat.zero_le _
  | true => exact utf8ByteSize_takeChars_le n text

theorem registration_fits (hrelays : ∀ relay ∈ relayAddrs, relay.utf8ByteSize ≤ relayLenMax)
    (hinvite : invite.utf8ByteSize ≤ inviteMax) :
    (registration listing relayAddrs serverRoot discoverable summary tags invite).Fits where
  name := (utf8ByteSize_ite_le 64 listing.name).trans_lt (by decide)
  summary := (utf8ByteSize_ite_le 280 summary).trans_lt (by decide)
  tags := length_tags_le.trans_lt (by decide)
  tag tag hmem := by
    obtain ⟨text, rfl⟩ := mem_tags hmem
    exact (utf8ByteSize_takeChars_le 32 text).trans_lt (by decide)
  entryRelays := (List.length_take_le 8 relayAddrs).trans_lt (by decide)
  relay relay hmem := (hrelays relay (List.mem_of_mem_take hmem)).trans_lt (by decide)
  invite := hinvite.trans_lt (by decide)

theorem validate_registration_iff
    (hrelays : ∀ relay ∈ relayAddrs, relay.utf8ByteSize ≤ relayLenMax)
    (hinvite : invite.utf8ByteSize ≤ inviteMax) :
    (registration listing relayAddrs serverRoot discoverable summary tags invite).validate =
        .ok () ↔
      (discoverable = true → InBytes 64 listing.name ∧ InBytes 280 summary ∧
        ∀ tag ∈ tags.take 8, InBytes 32 tag) := by
  have hrelay : ∀ relay ∈ relayAddrs.take 8, relay.utf8ByteSize ≤ relayLenMax :=
    fun relay hmem => hrelays relay (List.mem_of_mem_take hmem)
  have hcount : (relayAddrs.take 8).length ≤ relaysMax := List.length_take_le 8 relayAddrs
  rw [ServerRegister.validate_eq_ok]
  cases discoverable with
  | false =>
    refine ⟨fun _ hshown => (nomatch hshown), fun _ => ?_⟩
    exact ⟨Nat.zero_le _, Nat.zero_le _, Nat.zero_le _, fun _ hmem => (nomatch hmem), hcount, hrelay,
      hinvite⟩
  | true =>
    have hname := utf8ByteSize_takeChars_le_iff 64 listing.name
    have hsummary := utf8ByteSize_takeChars_le_iff 280 summary
    have htag : (∀ tag ∈ (tags.map (takeChars 32)).take 8, tag.utf8ByteSize ≤ tagLenMax) ↔
        ∀ tag ∈ tags.take 8, InBytes 32 tag := by
      rw [← List.map_take, List.forall_mem_map]
      simp only [tagLenMax, utf8ByteSize_takeChars_le_iff]
    have htags : ((tags.map (takeChars 32)).take 8).length ≤ tagsMax := List.length_take_le 8 _
    constructor
    · intro h _
      exact ⟨hname.mp h.1, hsummary.mp h.2.1, htag.mp h.2.2.2.1⟩
    · intro h
      obtain ⟨h₁, h₂, h₃⟩ := h rfl
      exact ⟨hname.mpr h₁, hsummary.mpr h₂, htags, htag.mpr h₃, hcount, hrelay, hinvite⟩

end

section

variable {ε : Type} {hosted : AssocMap Key Listing} {relayAddrs : List String}
  {createInviteLink : ChannelId → Except ε String} {serverRoot : Key} {discoverable : Bool}
  {summary : String} {tags : List String} {body : ServerRegister} {listing : Listing}

/-- The invite is empty or a link that was made. -/
theorem setDiscoverable_eq_ok
    (hok : setDiscoverable hosted relayAddrs createInviteLink serverRoot discoverable summary tags =
      .ok body) :
    ∃ listing invite, hosted.lookup serverRoot = some listing ∧
      (invite = "" ∨ ∃ channelId, createInviteLink channelId = .ok invite) ∧
      body = registration listing relayAddrs serverRoot discoverable summary tags invite := by
  obtain ⟨listing, hlisting, hok⟩ := bind_eq_ok.mp hok
  obtain ⟨invite, hinvite, hbody⟩ := bind_eq_ok.mp hok
  refine ⟨listing, invite, okOr_eq_ok.mp hlisting, ?_, (Except.ok.inj hbody).symm⟩
  cases discoverable with
  | false => exact .inl (Except.ok.inj hinvite).symm
  | true =>
    obtain ⟨channelId, -, hlink⟩ := bind_eq_ok.mp hinvite
    refine .inr ⟨channelId, ?_⟩
    cases hmade : createInviteLink channelId with
    | error e =>
      rw [hmade] at hlink
      cases hlink
    | ok link =>
      rw [hmade] at hlink
      cases hlink
      rfl

/-- The entry that is built is acceptable exactly if the server stays private, or the first
characters of every text that is shown are short enough. -/
theorem listing_acceptable_iff (hlisting : hosted.lookup serverRoot = some listing)
    (hrelays : ∀ relay ∈ relayAddrs, relay.utf8ByteSize ≤ relayLenMax)
    (hinvites : ∀ channelId link, createInviteLink channelId = .ok link →
      link.utf8ByteSize ≤ inviteMax)
    (hok : setDiscoverable hosted relayAddrs createInviteLink serverRoot discoverable summary tags =
      .ok body) :
    body.validate = .ok () ∧ ServerRegister.decode body.encode = .ok body ↔
      (discoverable = true → InBytes 64 listing.name ∧ InBytes 280 summary ∧
        ∀ tag ∈ tags.take 8, InBytes 32 tag) := by
  obtain ⟨other, invite, hother, hinvite, rfl⟩ := setDiscoverable_eq_ok hok
  cases hlisting.symm.trans hother
  have hlen : invite.utf8ByteSize ≤ inviteMax := by
    rcases hinvite with rfl | ⟨channelId, hlink⟩
    · exact Nat.zero_le _
    · exact hinvites channelId invite hlink
  rw [validate_registration_iff hrelays hlen,
    and_iff_left (ServerRegister.decode_encode (registration_fits hrelays hlen))]

end

def sampleListing (name : String) : AssocMap Key Listing :=
  AList.insert (.fill 32 1)
    { name, channels := [.fill 32 2], registerPow := ⟨1, 1, 1, .fill 16 0⟩ } ∅

def sampleInviteLink (_ : ChannelId) : Except Unit String := .ok "dante-invite:x"

/-- A name with an accented letter, no relays and more tags than are taken. -/
theorem listing_acceptable_sample :
    ∃ body, setDiscoverable (sampleListing "Café") [] sampleInviteLink (.fill 32 1) true
        "A place" (List.replicate 9 "tag") = .ok body ∧
      body.validate = .ok () ∧ ServerRegister.decode body.encode = .ok body := by
  have hinvites (channelId : ChannelId) (link : String)
      (hlink : sampleInviteLink channelId = .ok link) : link.utf8ByteSize ≤ inviteMax := by
    cases hlink
    decide +kernel
  have hok : setDiscoverable (sampleListing "Café") [] sampleInviteLink (.fill 32 1) true
      "A place" (List.replicate 9 "tag") = .ok (registration ⟨"Café", [.fill 32 2],
        ⟨1, 1, 1, .fill 16 0⟩⟩ [] (.fill 32 1) true "A place" (List.replicate 9 "tag")
        "dante-invite:x") := rfl
  exact ⟨_, hok, (listing_acceptable_iff rfl (by simp) hinvites hok).mpr (by decide +kernel)⟩

/-- A name of thirty-three accented letters has sixty-six bytes. -/
theorem listing_refused :
    ∃ body ∈ (setDiscoverable (sampleListing (String.ofList (List.replicate 33 'é'))) []
        sampleInviteLink (.fill 32 1) true "" []).toOption,
      body.validate = .error .fieldTooLong := by
  decide +kernel

end Dante.Core
