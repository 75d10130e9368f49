import Dante.Core.PolicyFormat
import Dante.Core.PolicyHost

/-!
What the edits of a host keep. `Change` says once what each edit does to the draft and what
it has checked; everything else is proved from that. The ids of new roles are counted with
sixteen bits, so the next id can be one that is taken.
-/

namespace Dante.Core.Policy

open Crypto Enc Except

variable {policy draft : ServerPolicy}

def names (entries : List (String × Hash)) : List String := entries.map Prod.fst

theorem hasName_eq_true {entries : List (String × Hash)} {name : String} :
    hasName entries name = true ↔ name ∈ names entries := by
  simp [hasName, names]

/-- What an edit that gets as far as the commit makes of the policy. -/
inductive Change (S : Suite) (policy : ServerPolicy) : Edit → ServerPolicy → Prop where
  | setRole {id : Option UInt16} {name : String} {allow deny : UInt32} {rank : UInt16}
      {icon : Option String} : Change S policy (.setRole id name allow deny rank icon)
        (policy.setRole { id := id.getD policy.nextRoleId, name, allow, deny, rank, icon })
  | deleteRole {roleId : UInt16} :
      Change S policy (.deleteRole roleId) (policy.deleteRole roleId)
  | assignRole {member : Hash} {roleId : UInt16} {add : Bool}
      (known : add = true → roleId ∈ policy.roleIds) :
      Change S policy (.assignRole member roleId add) (policy.assignRole member roleId add)
  | setServerEmoji {name : String} {image : Bytes} {stored : Bool}
      (valid : validEmojiName name = true) (sticker : name ∉ names policy.stickers)
      (sound : name ∉ names policy.sounds)
      (room : name ∈ names policy.emojis ∨ policy.emojis.length < maxServerEmojis) :
      Change S policy (.setServerEmoji name image stored)
        { policy with emojis := putNamed policy.emojis name (S.sha256 image) }
  | removeServerEmoji {name : String} : Change S policy (.removeServerEmoji name)
      { policy with emojis := removeNamed policy.emojis name }
  | setServerSticker {name : String} {image : Bytes} {stored : Bool}
      (valid : validEmojiName name = true) (emoji : name ∉ names policy.emojis)
      (room : name ∈ names policy.stickers ∨ policy.stickers.length < maxServerStickers) :
      Change S policy (.setServerSticker name image stored)
        { policy with stickers := putNamed policy.stickers name (S.sha256 image) }
  | removeServerSticker {name : String} : Change S policy (.removeServerSticker name)
      { policy with stickers := removeNamed policy.stickers name }
  | setServerSound {name : String} {audio : Bytes} {stored : Bool}
      (valid : validEmojiName name = true) (emoji : name ∉ names policy.emojis)
      (sticker : name ∉ names policy.stickers)
      (room : name ∈ names policy.sounds ∨ policy.sounds.length < maxServerSounds) :
      Change S policy (.setServerSound name audio stored)
        { policy with sounds := putNamed policy.sounds name (S.sha256 audio) }
  | removeServerSound {name : String} : Change S policy (.removeServerSound name)
      { policy with sounds := removeNamed policy.sounds name }
  | setNickname {member : Hash} {nickname : String} (valid : validNickname nickname = true) :
      Change S policy (.setMemberNickname member (some nickname))
        { policy with
          nicknames := Keyed.upsert Prod.fst member (fun entry => (entry.1, nickname))
            (member, nickname) policy.nicknames }
  | clearNickname {member : Hash} : Change S policy (.setMemberNickname member none)
      { policy with nicknames := policy.nicknames.filter fun entry => entry.1 ≠ member }

namespace Host

variable {S : Suite} {h h' : Host S} {serverRoot : Key} {nowMs : UInt64}

def store (h : Host S) (serverRoot : Key) (root : SignSecret S) (draft : ServerPolicy)
    (nowMs : UInt64) : Host S :=
  { h with
    serverPolicies := h.serverPolicies.insert serverRoot
      (ServerPolicy.signed root { draft with version := draft.version + 1 } nowMs) }

theorem policyDraft_eq_ok {policy : ServerPolicy} {root : SignSecret S} :
    h.policyDraft serverRoot = .ok (policy, root) ↔
      h.hosted.lookup serverRoot = some root ∧
        h.serverPolicies.lookup serverRoot = some policy := by
  simp only [policyDraft, bind_eq_ok, okOr_eq_ok, pure_eq_ok, Prod.mk.injEq]
  constructor
  · rintro ⟨root, hroot, policy, hpolicy, rfl, rfl⟩
    exact ⟨hroot, hpolicy⟩
  · rintro ⟨hroot, hpolicy⟩
    exact ⟨root, hroot, policy, hpolicy, rfl, rfl⟩

theorem commitPolicy_eq_ok {root : SignSecret S} {draft : ServerPolicy} :
    h.commitPolicy serverRoot root draft nowMs = .ok h' ↔
      iconsValid draft.roles draft.emojis = true ∧ h' = h.store serverRoot root draft nowMs := by
  simp only [commitPolicy, bind_eq_ok, refuseIf_eq_ok, pure_eq_ok, Bool.not_eq_false]
  constructor
  · rintro ⟨-, hicons, rfl⟩
    exact ⟨hicons, rfl⟩
  · rintro ⟨hicons, rfl⟩
    exact ⟨(), hicons, rfl⟩

theorem edit_eq_ok {e : Edit} (hok : h.edit serverRoot nowMs e = .ok h') :
    ∃ root policy draft, h.hosted.lookup serverRoot = some root ∧
      h.serverPolicies.lookup serverRoot = some policy ∧ Change S policy e draft ∧
      iconsValid draft.roles draft.emojis = true ∧ h' = h.store serverRoot root draft nowMs := by
  cases e <;> simp only [edit, setRole, deleteRole, assignRole, setServerEmoji, removeServerEmoji,
    setServerSticker, removeServerSticker, setServerSound, removeServerSound, setMemberNickname,
    bind_eq_ok, pure_eq_ok, Prod.exists, Prod.mk.injEq, policyDraft_eq_ok, refuseIf_eq_ok,
    commitPolicy_eq_ok, hasName_eq_true] at hok
  case setRole =>
    obtain ⟨_, _, ⟨policy, root, ⟨hroot, hpolicy⟩, _, ⟨hicons, rfl⟩, -, rfl⟩, rfl⟩ := hok
    exact ⟨root, policy, _, hroot, hpolicy, .setRole, hicons, rfl⟩
  case deleteRole =>
    obtain ⟨policy, root, ⟨hroot, hpolicy⟩, hicons, rfl⟩ := hok
    exact ⟨root, policy, _, hroot, hpolicy, .deleteRole, hicons, rfl⟩
  case assignRole =>
    obtain ⟨policy, root, ⟨hroot, hpolicy⟩, -, hknown, hicons, rfl⟩ := hok
    exact ⟨root, policy, _, hroot, hpolicy, .assignRole (by simpa using hknown), hicons, rfl⟩
  case setServerEmoji =>
    obtain ⟨-, hvalid, -, -, -, -, policy, root, ⟨hroot, hpolicy⟩, -, hsticker, -, hsound, -, hroom,
      -, -, hicons, rfl⟩ := hok
    exact ⟨root, policy, _, hroot, hpolicy, .setServerEmoji (by simpa using hvalid) hsticker hsound
      (by simpa [or_iff_not_imp_left] using hroom), hicons, rfl⟩
  case setServerSticker =>
    obtain ⟨-, hvalid, -, -, -, -, policy, root, ⟨hroot, hpolicy⟩, -, hemoji, -, hroom, -, -,
      hicons, rfl⟩ := hok
    exact ⟨root, policy, _, hroot, hpolicy, .setServerSticker (by simpa using hvalid) hemoji
      (by simpa [or_iff_not_imp_left] using hroom), hicons, rfl⟩
  case setServerSound =>
    obtain ⟨-, hvalid, -, -, -, -, policy, root, ⟨hroot, hpolicy⟩, -, hnew, -, hroom, -, -, hicons,
      rfl⟩ := hok
    obtain ⟨hemoji, hsticker⟩ := not_or.mp hnew
    exact ⟨root, policy, _, hroot, hpolicy, .setServerSound (by simpa using hvalid) hemoji hsticker
      (by simpa [or_iff_not_imp_left] using hroom), hicons, rfl⟩
  case removeServerEmoji | removeServerSticker | removeServerSound =>
    obtain ⟨policy, root, ⟨hroot, hpolicy⟩, -, -, hicons, hstored⟩ := hok
    refine ⟨root, policy, _, hroot, hpolicy, ?_, ?_, hstored⟩
    · constructor
    · exact hicons
  case setMemberNickname member nickname =>
    obtain ⟨-, hvalid, policy, root, ⟨hroot, hpolicy⟩, hicons, rfl⟩ := hok
    cases nickname with
    | none => exact ⟨root, policy, _, hroot, hpolicy, .clearNickname, hicons, rfl⟩
    | some nickname =>
      exact ⟨root, policy, _, hroot, hpolicy, .setNickname (by simpa using hvalid), hicons, rfl⟩

end Host

theorem names_putNamed (entries : List (String × Hash)) (name : String) (hash : Hash) :
    names (putNamed entries name hash) =
      if name ∈ names entries then names entries else names entries ++ [name] :=
  Keyed.map_key_upsert (fun _ hrow => hrow) rfl

theorem mem_names_putNamed {entries : List (String × Hash)} {name other : String} {hash : Hash} :
    other ∈ names (putNamed entries name hash) ↔ other = name ∨ other ∈ names entries := by
  apply Keyed.mem_map_key_upsert
  · exact fun entry hentry => hentry
  · rfl

theorem names_removeNamed (entries : List (String × Hash)) (name : String) :
    names (removeNamed entries name) = (names entries).filter fun other => other ≠ name := by
  simp only [names, removeNamed, List.filter_map]
  rfl

namespace ServerPolicy

variable {policy : ServerPolicy}

theorem mem_roleIds_deleteRole {roleId id : UInt16} :
    id ∈ (policy.deleteRole roleId).roleIds ↔ id ∈ policy.roleIds ∧ id ≠ roleId := by
  simp only [roleIds, deleteRole, List.mem_map, List.mem_filter, decide_eq_true_eq]
  constructor
  · rintro ⟨role, ⟨hrole, hne⟩, rfl⟩
    exact ⟨⟨role, hrole, rfl⟩, hne⟩
  · rintro ⟨⟨role, hrole, rfl⟩, hne⟩
    exact ⟨role, ⟨hrole, hne⟩, rfl⟩

theorem mem_assigned {rows : List (Hash × List UInt16)} {row : Hash × List UInt16} :
    row ∈ Core.ServerPolicy.assigned rows ↔ row ∈ rows ∧ row.2 ≠ [] := by
  simp [Core.ServerPolicy.assigned]

theorem nodup_assigned {rows : List (Hash × List UInt16)} (hnodup : (rows.map Prod.fst).Nodup) :
    ((Core.ServerPolicy.assigned rows).map Prod.fst).Nodup :=
  (List.filter_sublist.map Prod.fst).nodup hnodup

/-- Each member has one row at most, and a row has ids, all of them of roles that exist. -/
structure Assigned (policy : ServerPolicy) : Prop where
  members : (policy.assignments.map Prod.fst).Nodup
  ids : ∀ row ∈ policy.assignments, row.2 ≠ [] ∧ ∀ id ∈ row.2, id ∈ policy.roleIds

theorem Assigned.setRole (hassigned : policy.Assigned) (role : Role) :
    (policy.setRole role).Assigned where
  members := hassigned.members
  ids row hrow := by
    obtain ⟨hnonempty, hids⟩ := hassigned.ids row hrow
    refine ⟨hnonempty, ?_⟩
    intro id hid
    exact (Keyed.mem_map_key_upsert (fun _ _ => rfl) rfl).mpr (.inr (hids id hid))

theorem Assigned.deleteRole (hassigned : policy.Assigned) (roleId : UInt16) :
    (policy.deleteRole roleId).Assigned where
  members := by
    refine nodup_assigned ?_
    rw [List.map_map]
    exact hassigned.members
  ids row hrow := by
    obtain ⟨hmem, hnonempty⟩ := mem_assigned.mp hrow
    refine ⟨hnonempty, ?_⟩
    obtain ⟨old, hold, rfl⟩ := List.mem_map.mp hmem
    intro id hid
    obtain ⟨hid, hne⟩ := List.mem_filter.mp hid
    exact mem_roleIds_deleteRole.mpr
      ⟨(hassigned.ids old hold).2 id hid, of_decide_eq_true hne⟩

theorem Assigned.assignRole (hassigned : policy.Assigned) {member : Hash} {roleId : UInt16}
    {add : Bool} (hknown : add = true → roleId ∈ policy.roleIds) :
    (policy.assignRole member roleId add).Assigned where
  members := by
    refine nodup_assigned ?_
    cases add with
    | true => exact Keyed.nodup_map_key_upsert (fun _ hrow => hrow) rfl hassigned.members
    | false =>
      have hkeys : (Keyed.update Prod.fst member
          (fun row => (row.1, row.2.filter fun id => id ≠ roleId)) policy.assignments).map Prod.fst =
          policy.assignments.map Prod.fst := Keyed.map_key_update fun row hrow => hrow
      exact hkeys ▸ hassigned.members
  ids row hrow := by
    obtain ⟨hmem, hnonempty⟩ := mem_assigned.mp hrow
    refine ⟨hnonempty, ?_⟩
    intro id hid
    change id ∈ policy.roleIds
    cases add with
    | true =>
      rcases Keyed.mem_upsert hmem with hold | ⟨old, hold, -, rfl⟩ | rfl
      · exact (hassigned.ids row hold).2 id hid
      · have hid : id ∈ old.2 ∨ id = roleId := by
          dsimp only at hid
          split at hid
          · exact .inl hid
          · simpa using hid
        rcases hid with hid | rfl
        · exact (hassigned.ids old hold).2 id hid
        · exact hknown rfl
      · rw [List.mem_singleton.mp hid]
        exact hknown rfl
    | false =>
      rcases Keyed.mem_update hmem with hold | ⟨old, hold, -, rfl⟩
      · exact (hassigned.ids row hold).2 id hid
      · exact (hassigned.ids old hold).2 id (List.mem_filter.mp hid).1

/-- What holds of the policy's lists besides the roles' icons. -/
structure Tidy (policy : ServerPolicy) : Prop extends Assigned policy where
  emojis : ∀ name ∈ names policy.emojis, validEmojiName name = true
  stickers : ∀ name ∈ names policy.stickers, validEmojiName name = true
  sounds : ∀ name ∈ names policy.sounds, validEmojiName name = true
  nicknames : ∀ entry ∈ policy.nicknames, validNickname entry.2 = true
  roleIds : policy.roleIds.Nodup

/-- With icons that were checked, the policy is one that decodes. -/
theorem Tidy.valid (htidy : policy.Tidy) (hicons : iconsValid policy.roles policy.emojis = true) :
    policy.Valid where
  emojis entry hentry := htidy.emojis entry.1 (List.mem_map_of_mem hentry)
  stickers entry hentry := htidy.stickers entry.1 (List.mem_map_of_mem hentry)
  sounds entry hentry := htidy.sounds entry.1 (List.mem_map_of_mem hentry)
  nicknames := htidy.nicknames
  icons role hrole icon hicon := by
    simp only [iconsValid, List.all_eq_true, Option.all_eq_true, Bool.and_eq_true] at hicons
    exact hasName_eq_true.mp (hicons role hrole icon hicon).2

end ServerPolicy

section Names

variable {entries : List (String × Hash)} {name : String} {hash : Hash}

theorem valid_putNamed (hvalid : validEmojiName name = true)
    (hentries : ∀ other ∈ names entries, validEmojiName other = true) :
    ∀ other ∈ names (putNamed entries name hash), validEmojiName other = true := by
  intro other hother
  rcases mem_names_putNamed.mp hother with rfl | hold
  · exact hvalid
  · exact hentries other hold

theorem valid_removeNamed (hentries : ∀ other ∈ names entries, validEmojiName other = true) :
    ∀ other ∈ names (removeNamed entries name), validEmojiName other = true := by
  intro other hother
  rw [names_removeNamed] at hother
  exact hentries other (List.mem_filter.mp hother).1

end Names

theorem Change.tidy {S : Suite} {e : Edit} (hchange : Change S policy e draft) (htidy : policy.Tidy) :
    draft.Tidy := by
  cases hchange with
  | setRole =>
    exact { htidy with
      toAssigned := htidy.toAssigned.setRole _
      roleIds := Keyed.nodup_map_key_upsert (fun _ _ => rfl) rfl htidy.roleIds }
  | deleteRole =>
    exact { htidy with
      toAssigned := htidy.toAssigned.deleteRole _
      roleIds := (List.filter_sublist.map _).nodup htidy.roleIds }
  | assignRole known => exact { htidy with toAssigned := htidy.toAssigned.assignRole known }
  | setServerEmoji valid => exact { htidy with emojis := valid_putNamed valid htidy.emojis }
  | removeServerEmoji => exact { htidy with emojis := valid_removeNamed htidy.emojis }
  | setServerSticker valid => exact { htidy with stickers := valid_putNamed valid htidy.stickers }
  | removeServerSticker => exact { htidy with stickers := valid_removeNamed htidy.stickers }
  | setServerSound valid => exact { htidy with sounds := valid_putNamed valid htidy.sounds }
  | removeServerSound => exact { htidy with sounds := valid_removeNamed htidy.sounds }
  | setNickname valid =>
    refine { htidy with nicknames := ?_ }
    intro entry hentry
    rcases Keyed.mem_upsert hentry with hold | ⟨old, -, -, rfl⟩ | rfl
    · exact htidy.nicknames entry hold
    · exact valid
    · exact valid
  | clearNickname =>
    refine { htidy with nicknames := ?_ }
    intro entry hentry
    exact htidy.nicknames entry (List.mem_filter.mp hentry).1

/-- A first icon adds a byte to every role. -/
def Edit.growth (policy : ServerPolicy) : Edit → Nat
  | .setRole _ name _ _ _ icon => policy.roles.length +
      (minRoleBytes + name.utf8ByteSize + (1 + icon.elim 0 fun icon => 4 + icon.utf8ByteSize))
  | .assignRole _ _ _ => minAssignmentBytes + 2
  | .setServerEmoji name _ _ | .setServerSticker name _ _ | .setServerSound name _ _
  | .setMemberNickname _ (some name) => 16 + (minNamedEntryBytes + name.utf8ByteSize)
  | .deleteRole _ | .removeServerEmoji _ | .removeServerSticker _ | .removeServerSound _
  | .setMemberNickname _ none => 0

theorem Role.size_le_size_true (withIcons : Bool) (role : Role) :
    role.size withIcons ≤ role.size true := by
  unfold Role.size
  cases withIcons with
  | false => simp
  | true => exact Nat.le_refl _

/-- The sum of the sizes that a section's entries have. -/
def entriesSize (names : List String) : Nat :=
  (names.map fun name => minNamedEntryBytes + name.utf8ByteSize).sum

theorem entriesSize_append (first second : List String) :
    entriesSize (first ++ second) = entriesSize first + entriesSize second := by
  simp [entriesSize]

theorem entriesSize_names_putNamed_le (entries : List (String × Hash)) (name : String) (hash : Hash) :
    entriesSize (names (putNamed entries name hash)) ≤
      entriesSize (names entries) + (minNamedEntryBytes + name.utf8ByteSize) := by
  rw [names_putNamed]
  split
  · omega
  · rw [entriesSize_append]
    simp [entriesSize]

namespace ServerPolicy

section Tail

variable {present present' : Prop} [Decidable present] [Decidable present'] {entries : List String}

theorem tailSize_le : tailSize present entries ≤ 4 + entriesSize entries := by
  unfold tailSize
  split
  · exact Nat.le_refl _
  · exact Nat.zero_le _

theorem entriesSize_le (hpresent : entries ≠ [] → present) :
    entriesSize entries ≤ tailSize present entries := by
  by_cases hempty : entries = []
  · simp [hempty, entriesSize]
  · rw [tailSize, if_pos (hpresent hempty)]
    exact Nat.le_add_left _ _

theorem tailSize_mono {fewer : List String} (hsublist : fewer.Sublist entries)
    (hpresent : present' → present) : tailSize present' fewer ≤ tailSize present entries := by
  by_cases hpresent' : present'
  · rw [tailSize, tailSize, if_pos hpresent', if_pos (hpresent hpresent')]
    exact Nat.add_le_add_left ((hsublist.map _).sum_le_sum fun _ _ => Nat.zero_le _) 4
  · rw [tailSize, if_neg hpresent']
    exact Nat.zero_le _

end Tail

variable {policy : ServerPolicy}

def rolesSize (policy : ServerPolicy) : Nat := (policy.roles.map (Role.size policy.withIcons)).sum

def assignmentsSize (policy : ServerPolicy) : Nat := (policy.assignments.map assignmentSize).sum

def tailsSize (policy : ServerPolicy) : Nat :=
  tailSize (policy.emojis ≠ [] ∨ policy.stickers ≠ [] ∨ policy.sounds ≠ [] ∨
      policy.nicknames ≠ []) (names policy.emojis) +
    tailSize (policy.stickers ≠ [] ∨ policy.sounds ≠ [] ∨ policy.nicknames ≠ [])
      (names policy.stickers) +
    tailSize (policy.sounds ≠ [] ∨ policy.nicknames ≠ []) (names policy.sounds) +
    tailSize (policy.nicknames ≠ []) (policy.nicknames.map Prod.snd)

def allEntriesSize (policy : ServerPolicy) : Nat :=
  entriesSize (names policy.emojis) + entriesSize (names policy.stickers) +
    entriesSize (names policy.sounds) + entriesSize (policy.nicknames.map Prod.snd)

theorem size_eq (policy : ServerPolicy) :
    policy.size = 88 + policy.rolesSize + policy.assignmentsSize + policy.tailsSize := by
  unfold size rolesSize assignmentsSize tailsSize names
  omega

theorem tailsSize_le (policy : ServerPolicy) : policy.tailsSize ≤ 16 + policy.allEntriesSize := by
  have hle : policy.tailsSize ≤ (4 + _) + (4 + _) + (4 + _) + (4 + _) :=
    Nat.add_le_add (Nat.add_le_add (Nat.add_le_add tailSize_le tailSize_le) tailSize_le) tailSize_le
  unfold allEntriesSize
  omega

theorem allEntriesSize_le (policy : ServerPolicy) : policy.allEntriesSize ≤ policy.tailsSize := by
  unfold allEntriesSize tailsSize
  refine Nat.add_le_add (Nat.add_le_add (Nat.add_le_add ?_ ?_) ?_) ?_
  · exact entriesSize_le (by simp +contextual [names])
  · exact entriesSize_le (by simp +contextual [names])
  · exact entriesSize_le (by simp +contextual [names])
  · exact entriesSize_le (by simp)

theorem tailsSize_mono {other : ServerPolicy} (hemojis : other.emojis.Sublist policy.emojis)
    (hstickers : other.stickers.Sublist policy.stickers)
    (hsounds : other.sounds.Sublist policy.sounds)
    (hnicknames : other.nicknames.Sublist policy.nicknames) :
    other.tailsSize ≤ policy.tailsSize := by
  have hnonempty {α : Type} {fewer entries : List α} (hsublist : fewer.Sublist entries)
      (hfewer : fewer ≠ []) : entries ≠ [] := by
    rintro rfl
    exact hfewer (List.sublist_nil.mp hsublist)
  have hlast := hnonempty hnicknames
  have hlater := Or.imp (hnonempty hsounds) hlast
  have hlate := Or.imp (hnonempty hstickers) hlater
  unfold tailsSize
  refine Nat.add_le_add (Nat.add_le_add (Nat.add_le_add ?_ ?_) ?_) ?_
  · exact tailSize_mono (hemojis.map _) (Or.imp (hnonempty hemojis) hlate)
  · exact tailSize_mono (hstickers.map _) hlate
  · exact tailSize_mono (hsounds.map _) hlater
  · exact tailSize_mono (hnicknames.map _) hlast

/-- Whether or not there are icons, a role's entry differs by one byte at most. -/
theorem size_le_add_one {role : Role} (hrole : role ∈ policy.roles) (withIcons : Bool) :
    role.size withIcons ≤ role.size policy.withIcons + 1 := by
  have hle := role.size_le_size_true withIcons
  cases hwith : policy.withIcons with
  | true => exact Nat.le_succ_of_le hle
  | false =>
    refine hle.trans ?_
    simp [Role.size, icon_eq_none hwith hrole]

theorem rolesSize_setRole_le (role : Role) : (policy.setRole role).rolesSize ≤
    policy.rolesSize + (policy.roles.length + role.size true) := by
  have hnew := role.size_le_size_true (policy.setRole role).withIcons
  have hupsert : (policy.setRole role).rolesSize ≤
      (policy.roles.map (Role.size (policy.setRole role).withIcons)).sum +
        role.size (policy.setRole role).withIcons :=
    Keyed.sum_upsert_le (fun _ => Nat.le_add_left _ _) (Nat.le_refl _)
  have hold := List.sum_le_sum fun other (hother : other ∈ policy.roles) =>
    size_le_add_one hother (policy.setRole role).withIcons
  rw [List.sum_map_add, List.map_const', List.sum_replicate, smul_eq_mul, Nat.mul_one] at hold
  unfold rolesSize at hupsert ⊢
  omega

theorem rolesSize_deleteRole_le (roleId : UInt16) :
    (policy.deleteRole roleId).rolesSize ≤ policy.rolesSize := by
  have hfilter : (policy.deleteRole roleId).rolesSize ≤
      (policy.roles.map (Role.size (policy.deleteRole roleId).withIcons)).sum :=
    Keyed.sum_filter_le _ _ _
  refine hfilter.trans (List.sum_le_sum fun role _ => ?_)
  cases hwith : policy.withIcons with
  | true => exact role.size_le_size_true _
  | false =>
    have hnone : (policy.deleteRole roleId).withIcons = false := by
      simp only [withIcons, List.any_eq_false] at hwith ⊢
      exact fun other hother => hwith other (List.mem_filter.mp hother).1
    rw [hnone]

theorem assignmentsSize_deleteRole_le (roleId : UInt16) :
    (policy.deleteRole roleId).assignmentsSize ≤ policy.assignmentsSize := by
  refine (Keyed.sum_filter_le _ _ _).trans ?_
  rw [List.map_map]
  refine List.sum_le_sum fun row _ => ?_
  have hlen := List.length_filter_le (fun id => decide (id ≠ roleId)) row.2
  simp only [Function.comp_apply, assignmentSize]
  omega

theorem assignmentsSize_assignRole_le (member : Hash) (roleId : UInt16) (add : Bool) :
    (policy.assignRole member roleId add).assignmentsSize ≤
      policy.assignmentsSize + (minAssignmentBytes + 2) := by
  refine (Keyed.sum_filter_le _ _ _).trans ?_
  cases add with
  | true =>
    refine Keyed.sum_upsert_le (fun row => ?_) (by simp [assignmentSize])
    simp only [assignmentSize]
    split
    · omega
    · rw [List.length_append, List.length_singleton]
      omega
  | false =>
    refine Keyed.sum_update_le fun row => ?_
    have hlen := List.length_filter_le (fun id => decide (id ≠ roleId)) row.2
    simp only [assignmentSize]
    omega

theorem size_le_of_roles {draft : ServerPolicy} {added : Nat}
    (hroles : draft.rolesSize + draft.assignmentsSize ≤
      policy.rolesSize + policy.assignmentsSize + added)
    (htails : draft.tailsSize = policy.tailsSize) : draft.size ≤ policy.size + added := by
  rw [draft.size_eq, policy.size_eq]
  omega

theorem size_le_of_tails {draft : ServerPolicy} {added : Nat}
    (hroles : draft.rolesSize + draft.assignmentsSize = policy.rolesSize + policy.assignmentsSize)
    (htails : draft.tailsSize ≤ policy.tailsSize + added) : draft.size ≤ policy.size + added := by
  rw [draft.size_eq, policy.size_eq]
  omega

/-- The tail grows with its entries, and by the four counts at most. -/
theorem size_le_of_entries {draft : ServerPolicy} {added : Nat}
    (hroles : draft.rolesSize + draft.assignmentsSize = policy.rolesSize + policy.assignmentsSize)
    (hentries : draft.allEntriesSize ≤ policy.allEntriesSize + added) :
    draft.size ≤ policy.size + (16 + added) := by
  have hdraft := draft.tailsSize_le
  have hpolicy := policy.allEntriesSize_le
  exact size_le_of_tails hroles (by omega)

end ServerPolicy

open Policy.ServerPolicy in
/-- No edit adds more to the body than its growth. -/
theorem Change.size_le {S : Suite} {e : Edit} (hchange : Change S policy e draft) :
    draft.size ≤ policy.size + e.growth policy := by
  cases hchange with
  | @setRole id name allow deny rank icon =>
    have hroles := policy.rolesSize_setRole_le
      { id := id.getD policy.nextRoleId, name, allow, deny, rank, icon }
    exact size_le_of_roles ((Nat.add_le_add_right hroles _).trans_eq (Nat.add_right_comm _ _ _)) rfl
  | @deleteRole roleId =>
    have hle := Nat.add_le_add (policy.rolesSize_deleteRole_le roleId)
      (policy.assignmentsSize_deleteRole_le roleId)
    exact size_le_of_roles (Nat.le_add_right_of_le hle) rfl
  | @assignRole member roleId add =>
    have hassignments := policy.assignmentsSize_assignRole_le member roleId add
    exact size_le_of_roles
      ((Nat.add_le_add_left hassignments _).trans_eq (Nat.add_assoc _ _ _).symm) rfl
  | @setServerEmoji name image =>
    have hentries := entriesSize_names_putNamed_le policy.emojis name (S.sha256 image)
    exact size_le_of_entries rfl (by simp only [allEntriesSize]; omega)
  | @setServerSticker name image =>
    have hentries := entriesSize_names_putNamed_le policy.stickers name (S.sha256 image)
    exact size_le_of_entries rfl (by simp only [allEntriesSize]; omega)
  | @setServerSound name audio =>
    have hentries := entriesSize_names_putNamed_le policy.sounds name (S.sha256 audio)
    exact size_le_of_entries rfl (by simp only [allEntriesSize]; omega)
  | @setNickname member nickname =>
    have hentries : entriesSize ((Keyed.upsert Prod.fst member (fun entry => (entry.1, nickname))
        (member, nickname) policy.nicknames).map Prod.snd) ≤
        entriesSize (policy.nicknames.map Prod.snd) +
          (minNamedEntryBytes + nickname.utf8ByteSize) := by
      unfold entriesSize
      rw [List.map_map, List.map_map]
      exact Keyed.sum_upsert_le (fun _ => Nat.le_add_left _ _) (Nat.le_refl _)
    exact size_le_of_entries rfl (by simp only [allEntriesSize]; omega)
  | removeServerEmoji =>
    exact size_le_of_tails rfl (tailsSize_mono List.filter_sublist (.refl _) (.refl _) (.refl _))
  | removeServerSticker =>
    exact size_le_of_tails rfl (tailsSize_mono (.refl _) List.filter_sublist (.refl _) (.refl _))
  | removeServerSound =>
    exact size_le_of_tails rfl (tailsSize_mono (.refl _) (.refl _) List.filter_sublist (.refl _))
  | clearNickname =>
    exact size_le_of_tails rfl (tailsSize_mono (.refl _) (.refl _) (.refl _) List.filter_sublist)

instance lawfulOrderMaxUInt16 : Std.LawfulOrderMax UInt16 where
  max_eq_or a b := by
    change (if a ≤ b then b else a) = a ∨ (if a ≤ b then b else a) = b
    split <;> simp
  max_le_iff a b c := by
    change (if a ≤ b then b else a) ≤ c ↔ _
    simp only [UInt16.le_iff_toNat_le]
    split <;> omega

theorem ServerPolicy.nextRoleId_not_mem {policy : ServerPolicy}
    (hfree : ¬ (65535 ∈ policy.roleIds ∧ 0 ∈ policy.roleIds)) :
    policy.nextRoleId ∉ policy.roleIds := by
  unfold nextRoleId
  cases hmax : policy.roleIds.max? with
  | none =>
    rw [List.max?_eq_none_iff.mp hmax]
    exact List.not_mem_nil
  | some greatest =>
    obtain ⟨hmem, hle⟩ := List.max?_eq_some_iff.mp hmax
    rw [Option.getD_some]
    intro hnext
    by_cases hwraps : greatest = 65535
    · subst hwraps
      exact hfree ⟨hmem, hnext⟩
    · have hbound := UInt16.le_iff_toNat_le.mp (hle _ hnext)
      have hne : greatest.toNat ≠ 65535 := fun heq => hwraps (UInt16.toNat_inj.mp heq)
      have hlt := greatest.toNat_lt
      rw [UInt16.toNat_add, UInt16.toNat_one] at hbound
      omega

namespace ServerPolicy

variable {S : Suite} {policy : ServerPolicy}

theorem verify_eq_ok : policy.verify S = .ok () ↔
    Verifies S policy.serverRoot (challenge S policy.body).toList policy.sig := by
  simp only [verify, bind_eq_ok, mapError_eq_ok]
  constructor
  · rintro ⟨key, hkey, hsig⟩
    exact verifies_of_ok hkey hsig
  · rintro ⟨hvalid, hsig⟩
    exact ⟨⟨policy.serverRoot, hvalid⟩, SignPublic.fromBytes_eq_ok.mpr rfl,
      SignPublic.verify_eq_ok.mpr hsig⟩

theorem verify_signed (root : SignSecret S) (draft : ServerPolicy) (nowMs : UInt64) :
    (signed root draft nowMs).verify S = .ok () :=
  verify_eq_ok.mpr (root.sign_verifies _)

/-- A policy that a host may store. -/
structure Sound (S : Suite) (policy : ServerPolicy) : Prop extends Tidy policy where
  icons : iconsValid policy.roles policy.emojis = true
  size : policy.size < 2 ^ 32
  verifies : policy.verify S = .ok ()

theorem Sound.decode_encode (hsound : policy.Sound S) : decode policy.encode = .ok policy :=
  ServerPolicy.decode_encode (hsound.toTidy.valid hsound.icons) hsound.size

theorem sound_genesis (root : SignSecret S) (ownerId : Hash) (nowMs : UInt64) :
    (genesis root ownerId nowMs).Sound S where
  members := List.nodup_nil
  ids _ hrow := nomatch hrow
  emojis _ hname := nomatch hname
  stickers _ hname := nomatch hname
  sounds _ hname := nomatch hname
  nicknames _ hentry := nomatch hentry
  roleIds := List.nodup_nil
  icons := rfl
  size := by
    change (88 : Nat) < 2 ^ 32
    decide
  verifies := verify_signed _ _ _

end ServerPolicy

def Edit.createsRole : Edit → Bool
  | .setRole none _ _ _ _ _ => true
  | _ => false

theorem Change.version_eq {S : Suite} {e : Edit} (hchange : Change S policy e draft) :
    draft.version = policy.version := by
  cases hchange <;> rfl

theorem Change.roles_of_createsRole {S : Suite} {e : Edit} (hchange : Change S policy e draft)
    (hcreates : e.createsRole = true) (hfree : ¬ (65535 ∈ policy.roleIds ∧ 0 ∈ policy.roleIds)) :
    ∃ role, role.id ∉ policy.roleIds ∧ draft.roles = policy.roles ++ [role] := by
  cases hchange with
  | @setRole id name allow deny rank icon =>
    cases id with
    | none =>
      have hnew := ServerPolicy.nextRoleId_not_mem hfree
      exact ⟨_, hnew, if_neg hnew⟩
    | some id => cases hcreates
  | _ => cases hcreates

/-- The edit has room in the version, in the body and among the ids of the roles. -/
def Roomy {S : Suite} (h : Host S) : Op S → Prop
  | .createServer _ _ _ => True
  | .edit serverRoot e _ => ∀ policy, h.serverPolicies.lookup serverRoot = some policy →
      policy.version.toNat + 1 < 2 ^ 64 ∧ policy.size + e.growth policy < 2 ^ 32 ∧
        (e.createsRole = true → ¬ (65535 ∈ policy.roleIds ∧ 0 ∈ policy.roleIds))

/-- A successful edit moves the version on by one, and a role without an id is a new one at
the end of the roles. -/
def Advances {S : Suite} (h : Host S) : Op S → Prop
  | .createServer _ _ _ => True
  | .edit serverRoot e nowMs => ∀ h', h.edit serverRoot nowMs e = .ok h' →
      ∃ before after, h.serverPolicies.lookup serverRoot = some before ∧
        h'.serverPolicies.lookup serverRoot = some after ∧
        after.version.toNat = before.version.toNat + 1 ∧
        (e.createsRole = true →
          ∃ role, role.id ∉ before.roleIds ∧ after.roles = before.roles ++ [role])

namespace Host

variable {S : Suite} {h h' : Host S} {serverRoot : Key} {nowMs : UInt64}

def Stored (P : ServerPolicy → Prop) (h : Host S) : Prop :=
  ∀ serverRoot policy, h.serverPolicies.lookup serverRoot = some policy → P policy

theorem Stored.insert {P : ServerPolicy → Prop} {policy : ServerPolicy} (hstored : h.Stored P)
    (hpolicy : P policy) :
    ({ h with serverPolicies := h.serverPolicies.insert serverRoot policy } : Host S).Stored P :=
  AssocMap.forall_insert hstored hpolicy

/-- What holds of all stored policies holds of them after a call, if it holds of an empty
policy and of what the edit of the call commits. -/
theorem Stored.step {P : ServerPolicy → Prop} {op : Op S} (hstored : h.Stored P)
    (hgenesis : ∀ (root : SignSecret S) ownerId nowMs, P (.genesis root ownerId nowMs))
    (hcommit : ∀ serverRoot e nowMs (root : SignSecret S) policy draft,
      op = .edit serverRoot e nowMs → h.serverPolicies.lookup serverRoot = some policy →
      Change S policy e draft → iconsValid draft.roles draft.emojis = true →
      P (.signed root { draft with version := draft.version + 1 } nowMs)) :
    (h.step op).Stored P := by
  unfold Host.step
  cases hcall : h.call op with
  | error e => exact hstored
  | ok h' =>
    change h'.Stored P
    cases op with
    | createServer root sent nowMs =>
      simp only [call, createServer, bind_eq_ok, refuseIf_eq_ok, pure_eq_ok] at hcall
      obtain ⟨-, -, rfl⟩ := hcall
      exact hstored.insert (hgenesis root h.me nowMs)
    | edit serverRoot e nowMs =>
      obtain ⟨root, policy, draft, -, hpolicy, hchange, hicons, rfl⟩ := edit_eq_ok hcall
      exact hstored.insert (hcommit serverRoot e nowMs root policy draft rfl hpolicy hchange hicons)

theorem stored_new (P : ServerPolicy → Prop) (me : Hash) : (new me : Host S).Stored P :=
  fun _ _ hlookup => nomatch hlookup

/-- What is committed is sound if it was and there is room. -/
theorem Stored.step_sound {op : Op S} (hsound : h.Stored (ServerPolicy.Sound S))
    (hroomy : Roomy h op) : (h.step op).Stored (ServerPolicy.Sound S) := by
  refine hsound.step ServerPolicy.sound_genesis ?_
  rintro serverRoot e nowMs root policy draft rfl hpolicy hchange hicons
  have hbefore := hsound serverRoot policy hpolicy
  have hroom := (hroomy policy hpolicy).2.1
  have htidy := hchange.tidy hbefore.toTidy
  exact { htidy with
    icons := hicons
    size := Nat.lt_of_le_of_lt hchange.size_le hroom
    verifies := ServerPolicy.verify_signed _ _ _ }

theorem advances {op : Op S} (hroomy : Roomy h op) : Advances h op := by
  cases op with
  | createServer root sent nowMs => trivial
  | edit serverRoot e nowMs =>
    intro h' hok
    obtain ⟨root, policy, draft, -, hpolicy, hchange, -, rfl⟩ := edit_eq_ok hok
    obtain ⟨hversion, -, hfree⟩ := hroomy policy hpolicy
    refine ⟨policy, _, hpolicy, AList.lookup_insert _, ?_, ?_⟩
    · change (draft.version + 1).toNat = _
      rw [hchange.version_eq, UInt64.toNat_add, UInt64.toNat_one]
      omega
    · intro hcreates
      obtain ⟨role, hnew, hroles⟩ := hchange.roles_of_createsRole hcreates (hfree hcreates)
      exact ⟨role, hnew, hroles⟩

end Host

/-- From a client that hosts nothing, in every run whose edits have room: each stored policy
verifies, decodes to itself and has well-formed roles and assignments, and each edit that
succeeds moves its policy on by one version. -/
theorem stored_policies_run {S : Suite} (me : Hash) (ops : List (Op S))
    (hrun : Steps.Along Host.step Roomy (Host.new me) ops) :
    (∀ serverRoot policy,
      (Steps.exec Host.step (Host.new me) ops).serverPolicies.lookup serverRoot = some policy →
        policy.verify S = .ok () ∧ ServerPolicy.decode policy.encode = .ok policy ∧
          policy.roleIds.Nodup ∧ policy.Assigned) ∧
      Steps.Along Host.step Advances (Host.new me) ops := by
  have hinit : (Host.new me : Host S).Stored (ServerPolicy.Sound S) := Host.stored_new _ me
  have hstep (h : Host S) (op : Op S) (hsound : h.Stored (ServerPolicy.Sound S))
      (hroomy : Roomy h op) : (h.step op).Stored (ServerPolicy.Sound S) := hsound.step_sound hroomy
  constructor
  · intro serverRoot policy hpolicy
    have hsound := Steps.exec_invariant _ hstep hinit hrun serverRoot policy hpolicy
    exact ⟨hsound.verifies, hsound.decode_encode, hsound.roleIds, hsound.toAssigned⟩
  · exact Steps.along_invariant _ hstep (fun h op _ hroomy => Host.advances hroomy) hinit hrun

/-- A server, and a role that gets the first id. -/
def firstRole : List (Op sampleSuite) :=
  [.createServer (sampleSecret (.fill 32 1)) true 0,
    .edit (.fill 32 1) (.setRole none "staff" permKick 0 1 none) 1]

theorem stored_policies_firstRole :
    ((Steps.exec Host.step (Host.new (.fill 32 2)) firstRole).serverPolicies.lookup
      (.fill 32 1)).map ServerPolicy.roleIds = some [1] ∧
    Steps.Along Host.step Advances (Host.new (.fill 32 2)) firstRole := by
  refine ⟨by decide, (stored_policies_run (.fill 32 2) firstRole ⟨trivial, ?_, trivial⟩).2⟩
  intro policy hpolicy
  obtain rfl := Option.some.inj hpolicy
  refine ⟨by decide, by decide, fun _ => ?_⟩
  exact fun htaken => nomatch htaken.1

/-- A server with two roles, of the least and of the greatest id. -/
def fullIds : Host sampleSuite := Steps.exec Host.step (Host.new (.fill 32 2))
  [.createServer (sampleSecret (.fill 32 1)) true 0,
    .edit (.fill 32 1) (.setRole (some 0) "first" 0 0 1 none) 1,
    .edit (.fill 32 1) (.setRole (some 65535) "last" 0 0 2 none) 2]

def Host.roleNames {S : Suite} (h : Host S) (serverRoot : Key) : Option (List String) :=
  (h.serverPolicies.lookup serverRoot).map fun policy => policy.roles.map Role.name

/-- A role that is created without an id then takes the place of the first one. -/
theorem new_role_replaces_first :
    let op : Op sampleSuite := .edit (.fill 32 1) (.setRole none "new" permAll 0 3 none) 3
    fullIds.roleNames (.fill 32 1) = some ["first", "last"] ∧
      (fullIds.step op).roleNames (.fill 32 1) = some ["new", "last"] ∧
      ¬ Advances fullIds op := by
  intro op
  have hbefore : fullIds.roleNames (.fill 32 1) = some ["first", "last"] := by decide
  have hafter : (fullIds.step op).roleNames (.fill 32 1) = some ["new", "last"] := by decide
  refine ⟨hbefore, hafter, ?_⟩
  intro hadvances
  cases hcall : fullIds.edit (.fill 32 1) 3 (.setRole none "new" permAll 0 3 none) with
  | error e =>
    have hstep : fullIds.step op = fullIds := by rw [Host.step, Host.call, hcall]; rfl
    rw [hstep, hbefore] at hafter
    simp at hafter
  | ok h' =>
    obtain ⟨before, after, hlookup, hlookup', -, hnew⟩ := hadvances h' hcall
    obtain ⟨role, -, hroles⟩ := hnew rfl
    have hstep : fullIds.step op = h' := by rw [Host.step, Host.call, hcall]; rfl
    rw [Host.roleNames, hlookup, Option.map_some, Option.some.injEq] at hbefore
    rw [hstep, Host.roleNames, hlookup', Option.map_some, hroles, List.map_append, hbefore] at hafter
    simp at hafter

end Dante.Core.Policy
