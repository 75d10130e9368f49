import Dante.Core.PolicyEdits

/-!
The names of emoji, stickers and sounds. Each setter checks its own list's limit and looks
for the name in the other lists, except that the setter of stickers does not look at the
sounds: a sticker can take the name of a sound.
-/

namespace Dante.Core.Policy

open Crypto Except

namespace ServerPolicy

/-- No name occurs twice, and no list is longer than its limit. -/
structure OneNamespace (policy : ServerPolicy) : Prop where
  names : (names policy.emojis ++ names policy.stickers ++ names policy.sounds).Nodup
  emojis : policy.emojis.length ≤ maxServerEmojis
  stickers : policy.stickers.length ≤ maxServerStickers
  sounds : policy.sounds.length ≤ maxServerSounds

end ServerPolicy

/-- Distinct names in three lists, pair by pair. -/
theorem nodup_append_append {first second third : List String} :
    (first ++ second ++ third).Nodup ↔ (first.Nodup ∧ second.Nodup ∧ third.Nodup) ∧
      first.Disjoint second ∧ first.Disjoint third ∧ second.Disjoint third := by
  rw [List.nodup_append', List.nodup_append', List.disjoint_append_left]
  tauto

section Put

variable {entries : List (String × Hash)} {name : String} {hash : Hash} {others : List String}

theorem nodup_putNamed (hnodup : (names entries).Nodup) :
    (names (putNamed entries name hash)).Nodup := by
  apply Keyed.nodup_map_key_upsert
  · exact fun entry hentry => hentry
  · rfl
  · exact hnodup

theorem disjoint_putNamed (hdisjoint : (names entries).Disjoint others) (hname : name ∉ others) :
    (names (putNamed entries name hash)).Disjoint others := by
  intro other hother
  rcases mem_names_putNamed.mp hother with rfl | hold
  · exact hname
  · exact hdisjoint hold

theorem length_putNamed_le {limit : Nat} (hlimit : entries.length ≤ limit)
    (hroom : name ∈ names entries ∨ entries.length < limit) :
    (putNamed entries name hash).length ≤ limit := by
  have hlen : (putNamed entries name hash).length =
      if name ∈ names entries then entries.length else entries.length + 1 := Keyed.length_upsert
  rw [hlen]
  split
  · exact hlimit
  · rename_i habsent
    exact hroom.resolve_left habsent

theorem removeNamed_sublist (entries : List (String × Hash)) (name : String) :
    (names (removeNamed entries name)).Sublist (names entries) :=
  List.filter_sublist.map _

theorem length_removeNamed_le {limit : Nat} (hlimit : entries.length ≤ limit) :
    (removeNamed entries name).length ≤ limit :=
  (List.length_filter_le _ _).trans hlimit

end Put

def Edit.stickerName : Edit → Option String
  | .setServerSticker name _ _ => some name
  | _ => none

theorem Change.oneNamespace {S : Suite} {policy draft : ServerPolicy} {e : Edit}
    (hchange : Change S policy e draft) (hone : policy.OneNamespace)
    (hsound : ∀ name ∈ e.stickerName, name ∉ names policy.sounds) : draft.OneNamespace := by
  obtain ⟨⟨hemojis, hstickers, hsounds⟩, hes, heo, hso⟩ := nodup_append_append.mp hone.names
  cases hchange with
  | setServerEmoji valid sticker sound room =>
    refine { hone with names := nodup_append_append.mpr ?_, emojis := ?_ }
    · exact ⟨⟨nodup_putNamed hemojis, hstickers, hsounds⟩, disjoint_putNamed hes sticker,
        disjoint_putNamed heo sound, hso⟩
    · exact length_putNamed_le hone.emojis room
  | setServerSticker valid emoji room =>
    refine { hone with names := nodup_append_append.mpr ?_, stickers := ?_ }
    · exact ⟨⟨hemojis, nodup_putNamed hstickers, hsounds⟩, (disjoint_putNamed hes.symm emoji).symm,
        heo, disjoint_putNamed hso (hsound _ rfl)⟩
    · exact length_putNamed_le hone.stickers room
  | setServerSound valid emoji sticker room =>
    refine { hone with names := nodup_append_append.mpr ?_, sounds := ?_ }
    · exact ⟨⟨hemojis, hstickers, nodup_putNamed hsounds⟩, hes,
        (disjoint_putNamed heo.symm emoji).symm, (disjoint_putNamed hso.symm sticker).symm⟩
    · exact length_putNamed_le hone.sounds room
  | @removeServerEmoji name =>
    have hsublist := removeNamed_sublist policy.emojis name
    refine { hone with names := ?_, emojis := length_removeNamed_le hone.emojis }
    exact ((hsublist.append (.refl _)).append (.refl _)).nodup hone.names
  | @removeServerSticker name =>
    have hsublist := removeNamed_sublist policy.stickers name
    refine { hone with names := ?_, stickers := length_removeNamed_le hone.stickers }
    exact (((List.Sublist.refl _).append hsublist).append (.refl _)).nodup hone.names
  | @removeServerSound name =>
    have hsublist := removeNamed_sublist policy.sounds name
    refine { hone with names := ?_, sounds := length_removeNamed_le hone.sounds }
    exact ((List.Sublist.refl _).append hsublist).nodup hone.names
  | setRole => exact { hone with }
  | deleteRole => exact { hone with }
  | assignRole => exact { hone with }
  | setNickname => exact { hone with }
  | clearNickname => exact { hone with }

/-- A sticker is not given the name of a sound of its server. -/
def StickerIsNoSound {S : Suite} (h : Host S) : Op S → Prop
  | .createServer _ _ _ => True
  | .edit serverRoot e _ => ∀ policy, h.serverPolicies.lookup serverRoot = some policy →
      ∀ name ∈ e.stickerName, name ∉ names policy.sounds

/-- From a client that hosts nothing, in every run in which no sticker is given the name of a
sound, each stored policy has distinct names and lists within their limits. -/
theorem one_namespace_run {S : Suite} (me : Hash) (ops : List (Op S))
    (hrun : Steps.Along Host.step StickerIsNoSound (Host.new me) ops) (serverRoot : Key)
    (policy : ServerPolicy)
    (hpolicy : (Steps.exec Host.step (Host.new me) ops).serverPolicies.lookup serverRoot =
      some policy) : policy.OneNamespace := by
  refine Steps.exec_invariant (Host.Stored ServerPolicy.OneNamespace) ?_ (Host.stored_new _ me) hrun
    serverRoot policy hpolicy
  intro h op hone hok
  refine hone.step ?_ ?_
  · intro root ownerId nowMs
    exact ⟨List.nodup_nil, Nat.zero_le _, Nat.zero_le _, Nat.zero_le _⟩
  · rintro serverRoot e nowMs root policy draft rfl hpolicy hchange -
    obtain ⟨hnames, hemojis, hstickers, hsounds⟩ :=
      hchange.oneNamespace (hone serverRoot policy hpolicy) (hok policy hpolicy)
    exact ⟨hnames, hemojis, hstickers, hsounds⟩

def pngMagic : Bytes := [0x89, 0x50, 0x4e, 0x47, 0x0d, 0x0a, 0x1a, 0x0a]

def stickerAndSound : List (Op sampleSuite) :=
  [.createServer (sampleSecret (.fill 32 1)) true 0,
    .edit (.fill 32 1) (.setServerSticker "wave" pngMagic true) 1,
    .edit (.fill 32 1) (.setServerSound "horn" [0xff, 0xfb] true) 2]

def Host.allNames {S : Suite} (h : Host S) (serverRoot : Key) : Option (List String) :=
  (h.serverPolicies.lookup serverRoot).map fun policy =>
    names policy.emojis ++ names policy.stickers ++ names policy.sounds

theorem one_namespace_stickerAndSound :
    (Steps.exec Host.step (Host.new (.fill 32 2)) stickerAndSound).allNames (.fill 32 1) =
      some ["wave", "horn"] ∧
    ∀ policy, (Steps.exec Host.step (Host.new (.fill 32 2)) stickerAndSound).serverPolicies.lookup
      (.fill 32 1) = some policy → policy.OneNamespace := by
  refine ⟨by decide +kernel, ?_⟩
  apply one_namespace_run
  refine ⟨trivial, ?_, ?_, trivial⟩
  · intro policy hpolicy
    obtain rfl := Option.some.inj hpolicy
    exact fun name _ hsound => nomatch hsound
  · intro policy _ name hname
    cases hname

def stickerNamedAsSound : List (Op sampleSuite) :=
  [.createServer (sampleSecret (.fill 32 1)) true 0,
    .edit (.fill 32 1) (.setServerSound "horn" [0xff, 0xfb] true) 1,
    .edit (.fill 32 1) (.setServerSticker "horn" pngMagic true) 2]

/-- The setter of stickers accepts the name of a sound. -/
theorem sticker_takes_sound_name :
    let h := Steps.exec Host.step (Host.new (.fill 32 2)) stickerNamedAsSound
    h.allNames (.fill 32 1) = some ["horn", "horn"] ∧
      ∀ policy, h.serverPolicies.lookup (.fill 32 1) = some policy → ¬ policy.OneNamespace := by
  intro h
  have hnames : h.allNames (.fill 32 1) = some ["horn", "horn"] := by decide +kernel
  refine ⟨hnames, ?_⟩
  intro policy hpolicy hone
  have hnodup := hone.names
  rw [Host.allNames, hpolicy, Option.map_some, Option.some.injEq] at hnames
  rw [hnames] at hnodup
  simp at hnodup

end Dante.Core.Policy
