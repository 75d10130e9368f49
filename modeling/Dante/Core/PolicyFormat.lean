import Mathlib.Data.Nat.Bitwise
import Dante.Core.Policy

/-!
The policy's bytes determine the policy. What is read back is followed by a known rest, not by
anything: a section of the tail is there or not, depending on whether the input goes on.
-/

namespace Dante.Core.Policy

open Crypto Enc Except

theorem length_mul_le_sum {α : Type} {f : α → Nat} {m : Nat} {xs : List α}
    (hmin : ∀ x ∈ xs, m ≤ f x) : xs.length * m ≤ (xs.map f).sum := by
  have hle := List.card_nsmul_le_sum (xs.map f) m (List.forall_mem_map.mpr hmin)
  rwa [List.length_map, smul_eq_mul] at hle

theorem le_sum_of_mem {α : Type} (f : α → Nat) {x : α} {xs : List α} (hx : x ∈ xs) :
    f x ≤ (xs.map f).sum :=
  List.single_le_sum (fun _ _ => Nat.zero_le _) _ (List.mem_map_of_mem hx)

theorem run_bounded {n minElemBytes : Nat} {rest : Bytes} (hn : n < 2 ^ 32)
    (hroom : n * max minElemBytes 1 ≤ rest.length) :
    (bounded minElemBytes).run (Writer.u32 (UInt32.ofNat n) ++ rest) = .ok (n, rest) := by
  have hword : (UInt32.ofNat n).toNat = n := UInt32.toNat_ofNat_of_lt' hn
  have hremaining : Reader.remaining.run rest = .ok (rest.length, rest) := rfl
  have hfits : ¬ n > rest.length / max minElemBytes 1 := by
    rw [gt_iff_lt, not_lt]
    exact (Nat.le_div_iff_mul_le (by omega)).mpr hroom
  rw [bounded, Parser.run_bind_of_ok (Reader.reads_u32 _ _)]
  dsimp only
  rw [Parser.run_bind_of_ok hremaining, hword, if_neg hfits]
  rfl

section Counted

variable {α : Type} {item : Reader α} {write : α → Bytes} {minElemBytes : Nat} {xs : List α}

theorem reads_counted (hreads : ∀ x ∈ xs, Parser.Reads item (write x) x)
    (hmin : ∀ x ∈ xs, max minElemBytes 1 ≤ (write x).length) (hlen : xs.length < 2 ^ 32) :
    Parser.Reads (counted minElemBytes item) (Writer.list write xs) xs := by
  intro rest
  have hroom : xs.length * max minElemBytes 1 ≤ (xs.flatMap write ++ rest).length := by
    have hle := length_mul_le_sum hmin
    rw [List.length_append, List.length_flatMap]
    omega
  rw [Writer.list, List.append_assoc, counted, Parser.run_bind_of_ok (run_bounded hlen hroom)]
  exact Parser.Reads.times xs hreads rest

/-- A section of the tail that is absent is empty, and so are those after it. -/
theorem run_readTail (present : Prop) [Decidable present] (rest : Bytes)
    (hreads : ∀ x ∈ xs, Parser.Reads item (write x) x)
    (hmin : ∀ x ∈ xs, minNamedEntryBytes ≤ (write x).length) (hlen : xs.length < 2 ^ 32)
    (habsent : ¬ present → xs = [] ∧ rest = []) :
    (readTail item).run ((if present then Writer.list write xs else []) ++ rest) =
      .ok (xs, rest) := by
  by_cases hpresent : present
  · have hpositive : (Writer.list write xs ++ rest).length > 0 := by
      simp [Writer.list]
    have hremaining : Reader.remaining.run (Writer.list write xs ++ rest) =
        .ok ((Writer.list write xs ++ rest).length, Writer.list write xs ++ rest) := rfl
    rw [if_pos hpresent, readTail, Parser.run_bind_of_ok hremaining, if_pos hpositive]
    apply reads_counted hreads _ hlen
    intro x hx
    exact Nat.max_le.mpr ⟨hmin x hx, Nat.le_trans (by decide) (hmin x hx)⟩
  · obtain ⟨rfl, rfl⟩ := habsent hpresent
    rw [if_neg hpresent]
    rfl

end Counted

theorem validEmojiName_size {name : String} (hvalid : validEmojiName name = true) :
    name.utf8ByteSize ≤ emojiNameMax := by
  simp only [validEmojiName, Bool.and_eq_true, decide_eq_true_eq] at hvalid
  exact hvalid.1.2

theorem validNickname_size {name : String} (hvalid : validNickname name = true) :
    name.utf8ByteSize ≤ nicknameMax := by
  simp only [validNickname, Bool.and_eq_true, decide_eq_true_eq] at hvalid
  exact hvalid.1.2

theorem reads_named (what : String) {entry : String × Hash}
    (hvalid : validEmojiName entry.1 = true) :
    Parser.Reads (readNamed what) (writeNamed entry) entry := by
  have hsize : entry.1.utf8ByteSize < 2 ^ 32 :=
    Nat.lt_of_le_of_lt (validEmojiName_size hvalid) (by decide)
  refine Reader.codec_string.reads_bind hsize ?_
  rw [hvalid]
  exact (Reader.codec_fixed 32).reads_map trivial _

theorem reads_nickname {entry : Hash × String} (hvalid : validNickname entry.2 = true) :
    Parser.Reads readNickname (writeNickname entry) entry := by
  have hsize : entry.2.utf8ByteSize < 2 ^ 32 :=
    Nat.lt_of_le_of_lt (validNickname_size hvalid) (by decide)
  refine (Reader.codec_fixed 32).reads_bind trivial (Reader.codec_string.reads_last hsize ?_)
  rw [hvalid]
  exact .pure _

theorem reads_assignment {row : Hash × List UInt16} (hlen : row.2.length < 2 ^ 32) :
    Parser.Reads readAssignment (writeAssignment row) row := by
  refine (Reader.codec_fixed 32).reads_bind trivial ?_
  rw [← List.append_nil (Writer.list _ _)]
  refine (reads_counted (fun id _ => Reader.reads_u16 id) (fun id _ => ?_) hlen).bind (.pure _)
  simp

theorem reads_icon {withIcons : Bool} {icon : Option String}
    (habsent : withIcons = false → icon = none)
    (hsize : ∀ name ∈ icon, name.utf8ByteSize < 2 ^ 32) :
    Parser.Reads (readIcon withIcons)
      (if withIcons then
        match icon with
        | some icon => Writer.bool true ++ Writer.string icon
        | none => Writer.bool false
      else []) icon := by
  cases withIcons with
  | false =>
    rw [habsent rfl]
    exact .pure none
  | true =>
    cases icon with
    | none => exact Reader.codec_bool.reads_last trivial (.pure none)
    | some name =>
      exact Reader.codec_bool.reads_bind trivial
        (Reader.codec_string.reads_map (hsize name rfl) some)

theorem reads_role {withIcons : Bool} {role : Role} (hname : role.name.utf8ByteSize < 2 ^ 32)
    (habsent : withIcons = false → role.icon = none)
    (hsize : ∀ name ∈ role.icon, name.utf8ByteSize < 2 ^ 32) :
    Parser.Reads (Role.read withIcons) (role.write withIcons) role := by
  simp only [Role.write, List.append_assoc]
  refine Reader.codec_u16.reads_bind trivial <| Reader.codec_string.reads_bind hname <|
    Reader.codec_u32.reads_bind trivial <| Reader.codec_u32.reads_bind trivial <|
    Reader.codec_u16.reads_bind trivial ?_
  rw [← List.append_nil (ite _ _ _)]
  exact (reads_icon habsent hsize).bind (.pure _)

theorem length_writeNamed (entry : String × Hash) :
    (writeNamed entry).length = minNamedEntryBytes + entry.1.utf8ByteSize := by
  simp only [writeNamed, List.length_append, Writer.length_string, Writer.length_fixed,
    minNamedEntryBytes]
  omega

theorem length_writeNickname (entry : Hash × String) :
    (writeNickname entry).length = minNamedEntryBytes + entry.2.utf8ByteSize := by
  simp only [writeNickname, List.length_append, Writer.length_string, Writer.length_fixed,
    minNamedEntryBytes]
  omega

def assignmentSize (row : Hash × List UInt16) : Nat := minAssignmentBytes + 2 * row.2.length

theorem length_writeAssignment (row : Hash × List UInt16) :
    (writeAssignment row).length = assignmentSize row := by
  simp only [writeAssignment, Writer.list, List.length_append, Writer.length_fixed,
    Writer.length_u32, List.length_flatMap, Writer.length_u16, List.map_const', List.sum_replicate,
    smul_eq_mul, assignmentSize, minAssignmentBytes]
  omega

def Role.size (withIcons : Bool) (role : Role) : Nat :=
  minRoleBytes + role.name.utf8ByteSize +
    if withIcons then 1 + (role.icon.elim 0 fun icon => 4 + icon.utf8ByteSize) else 0

theorem Role.length_write (withIcons : Bool) (role : Role) :
    (role.write withIcons).length = role.size withIcons := by
  simp only [Role.write, Role.size, List.length_append, Writer.length_u16, Writer.length_string,
    Writer.length_u32, minRoleBytes]
  cases withIcons with
  | false => simp only [Bool.false_eq_true, if_false, List.length_nil]; omega
  | true =>
    cases role.icon with
    | none => simp only [if_true, Writer.bool, List.length_singleton, Option.elim]; omega
    | some icon =>
      simp only [if_true, Writer.bool, List.length_append, List.length_singleton,
        Writer.length_string, Option.elim]
      omega

theorem Role.name_le_size (withIcons : Bool) (role : Role) :
    role.name.utf8ByteSize ≤ role.size withIcons := by
  unfold Role.size
  omega

theorem Role.minRoleBytes_le_size (withIcons : Bool) (role : Role) :
    minRoleBytes ≤ role.size withIcons := by
  unfold Role.size
  omega

theorem flag_clear {n : Nat} (hn : n < 2 ^ 31) :
    UInt32.ofNat n &&& roleIconFlag = 0 ∧
      (UInt32.ofNat n &&& ~~~ roleIconFlag).toNat = n := by
  have hword : (UInt32.ofNat n).toNat = n := UInt32.toNat_ofNat_of_lt' (Nat.lt_trans hn (by decide))
  have hbit : n &&& 2 ^ 31 = 0 := by
    rw [Nat.and_two_pow, Nat.testBit_lt_two_pow hn]
    rfl
  constructor
  · apply UInt32.toNat_inj.mp
    rw [UInt32.toNat_and, hword]
    exact hbit
  · rw [UInt32.toNat_and, hword]
    exact (Nat.and_two_pow_sub_one_eq_mod n 31).trans (Nat.mod_eq_of_lt hn)

theorem flag_set {n : Nat} (hn : n < 2 ^ 31) :
    (UInt32.ofNat n ||| roleIconFlag) &&& roleIconFlag ≠ 0 ∧
      ((UInt32.ofNat n ||| roleIconFlag) &&& ~~~ roleIconFlag).toNat = n := by
  have hword : (UInt32.ofNat n ||| roleIconFlag).toNat = 2 ^ 31 + n := by
    rw [UInt32.toNat_or, UInt32.toNat_ofNat_of_lt' (Nat.lt_trans hn (by decide)), Nat.or_comm]
    exact (Nat.two_pow_add_eq_or_of_lt hn 1).symm
  constructor
  · intro hzero
    have hnat : ((2 ^ 31 + n) &&& 2 ^ 31) = 0 := by
      rw [← hword]
      exact congrArg UInt32.toNat hzero
    rw [Nat.and_two_pow, Nat.testBit_two_pow_add_eq, Nat.testBit_lt_two_pow hn] at hnat
    cases hnat
  · rw [UInt32.toNat_and, hword]
    exact (Nat.and_two_pow_sub_one_eq_mod _ 31).trans (by omega)

namespace ServerPolicy

variable {policy : ServerPolicy}

theorem icon_eq_none {role : Role} (hwith : policy.withIcons = false) (hrole : role ∈ policy.roles) :
    role.icon = none := by
  simp only [withIcons, List.any_eq_false, Option.isSome_iff_ne_none, not_not] at hwith
  exact hwith role hrole

theorem reads_roles (hlen : policy.roles.length < 2 ^ 31)
    (hnames : ∀ role ∈ policy.roles, role.name.utf8ByteSize < 2 ^ 32)
    (hicons : ∀ role ∈ policy.roles, ∀ icon ∈ role.icon, icon.utf8ByteSize < 2 ^ 32) :
    Parser.Reads readRoles policy.writeRoles policy.roles := by
  have hentry : ∀ role ∈ policy.roles,
      Parser.Reads (Role.read policy.withIcons) (role.write policy.withIcons) role :=
    fun role hrole => reads_role (hnames role hrole) (fun hwith => icon_eq_none hwith hrole)
      (hicons role hrole)
  -- The flag and the count come apart again.
  obtain ⟨raw, hraw, hflag, hcount⟩ : ∃ raw : UInt32,
      (if policy.withIcons then UInt32.ofNat policy.roles.length ||| roleIconFlag
        else UInt32.ofNat policy.roles.length) = raw ∧
      decide (raw &&& roleIconFlag ≠ 0) = policy.withIcons ∧
      (raw &&& ~~~ roleIconFlag).toNat = policy.roles.length := by
    cases policy.withIcons with
    | false => exact ⟨_, rfl, by simp [(flag_clear hlen).1], (flag_clear hlen).2⟩
    | true => exact ⟨_, rfl, decide_eq_true (flag_set hlen).1, (flag_set hlen).2⟩
  intro rest
  have hremaining (input : Bytes) : Reader.remaining.run input = .ok (input.length, input) := rfl
  have hroom : ¬ policy.roles.length >
      (policy.roles.flatMap (Role.write policy.withIcons) ++ rest).length / minRoleBytes := by
    have hle : policy.roles.length * minRoleBytes ≤
        (policy.roles.map fun role => role.size policy.withIcons).sum :=
      length_mul_le_sum fun role _ => role.minRoleBytes_le_size policy.withIcons
    rw [gt_iff_lt, not_lt, Nat.le_div_iff_mul_le (by decide), List.length_append,
      List.length_flatMap]
    simp only [Role.length_write]
    omega
  rw [writeRoles, hraw, List.append_assoc, readRoles,
    Parser.run_bind_of_ok (Reader.reads_u32 _ _), Parser.run_bind_of_ok (hremaining _)]
  dsimp only
  rw [hcount, if_neg hroom, hflag]
  exact Parser.Reads.times _ hentry rest

/-- All names are well formed, and the roles' icons name emoji of the policy. -/
structure Valid (policy : ServerPolicy) : Prop where
  emojis : ∀ entry ∈ policy.emojis, validEmojiName entry.1 = true
  stickers : ∀ entry ∈ policy.stickers, validEmojiName entry.1 = true
  sounds : ∀ entry ∈ policy.sounds, validEmojiName entry.1 = true
  nicknames : ∀ entry ∈ policy.nicknames, validNickname entry.2 = true
  icons : ∀ role ∈ policy.roles, ∀ icon ∈ role.icon, icon ∈ policy.emojis.map Prod.fst

/-- Every list has fewer than `2 ^ 31` elements. -/
structure Short (policy : ServerPolicy) : Prop where
  roles : policy.roles.length < 2 ^ 31
  assignments : policy.assignments.length < 2 ^ 31
  ids : ∀ row ∈ policy.assignments, row.2.length < 2 ^ 31
  emojis : policy.emojis.length < 2 ^ 31
  stickers : policy.stickers.length < 2 ^ 31
  sounds : policy.sounds.length < 2 ^ 31
  nicknames : policy.nicknames.length < 2 ^ 31

theorem Valid.validEmojiName_icon (hvalid : policy.Valid) {role : Role} (hrole : role ∈ policy.roles)
    {icon : String} (hicon : icon ∈ role.icon) : validEmojiName icon = true := by
  obtain ⟨entry, hentry, rfl⟩ := List.mem_map.mp (hvalid.icons role hrole icon hicon)
  exact hvalid.emojis entry hentry

theorem Valid.iconsValid (hvalid : policy.Valid) : iconsValid policy.roles policy.emojis = true := by
  simp only [Policy.iconsValid, List.all_eq_true, Option.all_eq_true]
  intro role hrole icon hicon
  obtain ⟨entry, hentry, hname⟩ := List.mem_map.mp (hvalid.icons role hrole icon hicon)
  rw [hvalid.validEmojiName_icon hrole hicon, Bool.true_and, List.any_eq_true]
  exact ⟨entry, hentry, decide_eq_true hname⟩

/-- The signed part is read back, whatever stands for the signature. -/
theorem decodeAll_readBody (hvalid : policy.Valid) (hshort : policy.Short)
    (hnames : ∀ role ∈ policy.roles, role.name.utf8ByteSize < 2 ^ 32) (sig : Signature) :
    Reader.decodeAll (readBody sig) policy.body = .ok { policy with sig := sig } := by
  have hlt {n : Nat} (h : n < 2 ^ 31) : n < 2 ^ 32 := Nat.lt_trans h (by decide)
  have hroles := reads_roles hshort.roles hnames fun role hrole icon hicon =>
    Nat.lt_of_le_of_lt (validEmojiName_size (hvalid.validEmojiName_icon hrole hicon)) (by decide)
  have hassignments : Parser.Reads (counted minAssignmentBytes readAssignment)
      (Writer.list writeAssignment policy.assignments) policy.assignments :=
    reads_counted (fun row hrow => reads_assignment (hlt (hshort.ids row hrow)))
      (fun row _ => (Nat.le_add_right _ _).trans_eq (length_writeAssignment row).symm) (hlt hshort.assignments)
  rw [Reader.decodeAll_eq_ok]
  simp only [body, List.append_assoc]
  rw [readBody, Parser.run_bind_of_ok (Reader.reads_fixed _ _),
    Parser.run_bind_of_ok (Reader.reads_fixed _ _), Parser.run_bind_of_ok (Reader.reads_u64 _ _),
    Parser.run_bind_of_ok (Reader.reads_u64 _ _), Parser.run_bind_of_ok (hroles _),
    Parser.run_bind_of_ok (hassignments _)]
  -- An absent section is empty, and then all later ones are absent too.
  have hemojis (present : Prop) [Decidable present] (rest : Bytes) :=
    run_readTail present rest
      (fun entry hentry => reads_named "emoji shortcode" (hvalid.emojis entry hentry))
      (fun entry _ => (Nat.le_add_right _ _).trans_eq (length_writeNamed entry).symm) (hlt hshort.emojis)
  have hstickers (present : Prop) [Decidable present] (rest : Bytes) :=
    run_readTail present rest
      (fun entry hentry => reads_named "sticker name" (hvalid.stickers entry hentry))
      (fun entry _ => (Nat.le_add_right _ _).trans_eq (length_writeNamed entry).symm) (hlt hshort.stickers)
  have hsounds (present : Prop) [Decidable present] (rest : Bytes) :=
    run_readTail present rest
      (fun entry hentry => reads_named "sound name" (hvalid.sounds entry hentry))
      (fun entry _ => (Nat.le_add_right _ _).trans_eq (length_writeNamed entry).symm) (hlt hshort.sounds)
  have hnicknames (present : Prop) [Decidable present] (rest : Bytes) :=
    run_readTail present rest
      (fun entry hentry => reads_nickname (hvalid.nicknames entry hentry))
      (fun entry _ => (Nat.le_add_right _ _).trans_eq (length_writeNickname entry).symm) (hlt hshort.nicknames)
  have hicons : ¬ (!iconsValid policy.roles policy.emojis) = true := by
    simp [hvalid.iconsValid]
  rw [Parser.run_bind_of_ok (hemojis _ _ (by simp +contextual)), if_neg hicons,
    Parser.run_bind_of_ok (hstickers _ _ (by simp +contextual)),
    Parser.run_bind_of_ok (hsounds _ _ (by simp +contextual)),
    ← List.append_nil (if policy.nicknames ≠ [] then _ else _),
    Parser.run_bind_of_ok (hnicknames _ _ (by simp))]
  rfl

/-- A section of the tail: a count, and for each entry a name and an array of 32 bytes. -/
def tailSize (present : Prop) [Decidable present] (names : List String) : Nat :=
  if present then 4 + (names.map fun name => minNamedEntryBytes + name.utf8ByteSize).sum else 0

/-- The length of the body, from the policy's fields. -/
def size (policy : ServerPolicy) : Nat :=
  80 + (4 + (policy.roles.map (Role.size policy.withIcons)).sum) +
    (4 + (policy.assignments.map assignmentSize).sum) +
    tailSize (policy.emojis ≠ [] ∨ policy.stickers ≠ [] ∨ policy.sounds ≠ [] ∨
      policy.nicknames ≠ []) (policy.emojis.map Prod.fst) +
    tailSize (policy.stickers ≠ [] ∨ policy.sounds ≠ [] ∨ policy.nicknames ≠ [])
      (policy.stickers.map Prod.fst) +
    tailSize (policy.sounds ≠ [] ∨ policy.nicknames ≠ []) (policy.sounds.map Prod.fst) +
    tailSize (policy.nicknames ≠ []) (policy.nicknames.map Prod.snd)

theorem length_tail {α : Type} {write : α → Bytes} {name : α → String} (present : Prop)
    [Decidable present] (xs : List α)
    (hwrite : ∀ x, (write x).length = minNamedEntryBytes + (name x).utf8ByteSize) :
    (if present then Writer.list write xs else []).length = tailSize present (xs.map name) := by
  unfold tailSize
  split
  · simp only [Writer.list, List.length_append, Writer.length_u32, List.length_flatMap, hwrite,
      List.map_map, Function.comp_def]
  · rfl

theorem length_body (policy : ServerPolicy) : policy.body.length = policy.size := by
  simp only [body, writeRoles, List.length_append, Writer.length_fixed, Writer.length_u64,
    Writer.length_u32, length_tail _ _ length_writeNamed,
    length_tail _ _ length_writeNickname]
  simp only [Writer.list, List.length_append, Writer.length_u32, List.length_flatMap,
    length_writeAssignment, Role.length_write]
  rfl

theorem length_mul_le_tailSize (present : Prop) [Decidable present] (names : List String)
    (hpresent : names ≠ [] → present) :
    names.length * minNamedEntryBytes ≤ tailSize present names := by
  by_cases hnames : names = []
  · simp [hnames]
  · have hle := length_mul_le_sum fun name (_ : name ∈ names) =>
      Nat.le_add_right minNamedEntryBytes name.utf8ByteSize
    rw [tailSize, if_pos (hpresent hnames)]
    omega

/-- What fits in a body below four gigabytes has short lists and short names. -/
theorem short_of_size (hsize : policy.size < 2 ^ 32) :
    policy.Short ∧ ∀ role ∈ policy.roles, role.name.utf8ByteSize < 2 ^ 32 := by
  have hroles := length_mul_le_sum fun role (_ : role ∈ policy.roles) =>
    role.minRoleBytes_le_size policy.withIcons
  have hassignments : policy.assignments.length * minAssignmentBytes ≤
      (policy.assignments.map assignmentSize).sum :=
    length_mul_le_sum fun row _ => Nat.le_add_right _ _
  have hemojis := length_mul_le_tailSize (policy.emojis ≠ [] ∨ policy.stickers ≠ [] ∨
    policy.sounds ≠ [] ∨ policy.nicknames ≠ []) (policy.emojis.map Prod.fst) (by simp +contextual)
  have hstickers := length_mul_le_tailSize (policy.stickers ≠ [] ∨ policy.sounds ≠ [] ∨
    policy.nicknames ≠ []) (policy.stickers.map Prod.fst) (by simp +contextual)
  have hsounds := length_mul_le_tailSize (policy.sounds ≠ [] ∨ policy.nicknames ≠ [])
    (policy.sounds.map Prod.fst) (by simp +contextual)
  have hnicknames := length_mul_le_tailSize (policy.nicknames ≠ [])
    (policy.nicknames.map Prod.snd) (by simp)
  rw [List.length_map] at hemojis hstickers hsounds hnicknames
  unfold size at hsize
  simp only [minRoleBytes, minAssignmentBytes, minNamedEntryBytes] at *
  refine ⟨⟨by omega, by omega, ?_, by omega, by omega, by omega, by omega⟩, ?_⟩
  · intro row hrow
    have hle := le_sum_of_mem assignmentSize hrow
    have hids : 2 * row.2.length ≤ assignmentSize row := Nat.le_add_left _ _
    omega
  · intro role hrole
    have hle := le_sum_of_mem (Role.size policy.withIcons) hrole
    have hname := role.name_le_size policy.withIcons
    omega

theorem decode_encode (hvalid : policy.Valid) (hsize : policy.size < 2 ^ 32) :
    decode policy.encode = .ok policy := by
  obtain ⟨hshort, hnames⟩ := short_of_size hsize
  rw [← length_body] at hsize
  simp only [decode, bind_eq_ok]
  refine ⟨(policy.body, policy.sig), ?_, decodeAll_readBody hvalid hshort hnames _⟩
  apply Reader.decodeAll_of_reads
  exact Reader.codec_bytes.reads_bind hsize <| (Reader.codec_fixed 64).reads_map trivial _

/-- The outer reader does not get past a body of four gigabytes: the truncated length leaves
bytes behind. -/
theorem size_lt_of_decode (hok : decode policy.encode = .ok policy) : policy.size < 2 ^ 32 := by
  simp only [decode, bind_eq_ok] at hok
  obtain ⟨result, houter, -⟩ := hok
  have hcodec : Parser.Takes (do return (← Reader.bytes, ← Reader.fixed 64) : Reader (Bytes × Signature))
      fun pair taken => taken = Writer.bytes pair.1 ++ Writer.fixed pair.2 ∧ pair.1.length < 2 ^ 32 :=
    Reader.codec_bytes.takes_bind fun body hbody =>
      (Reader.codec_fixed 64).takes_map fun sig _ => ⟨rfl, hbody⟩
  obtain ⟨taken, hinput, htaken, hlen⟩ := hcodec _ _ _ (Reader.decodeAll_eq_ok.mp houter)
  have hlengths := congrArg List.length hinput
  rw [htaken] at hlengths
  simp only [encode, List.length_append, Writer.length_bytes, Writer.length_fixed, length_body,
    List.length_nil] at hlengths
  omega

/-- The body determines the policy up to the signature, for role names that a length word
can measure. -/
theorem body_injective {other : ServerPolicy} (hvalid : policy.Valid) (hshort : policy.Short)
    (hnames : ∀ role ∈ policy.roles, role.name.utf8ByteSize < 2 ^ 32) (hother : other.Valid)
    (hshort' : other.Short) (hnames' : ∀ role ∈ other.roles, role.name.utf8ByteSize < 2 ^ 32)
    (hbody : other.body = policy.body) : other = { policy with sig := other.sig } := by
  have hread := decodeAll_readBody hvalid hshort hnames other.sig
  rw [← hbody, decodeAll_readBody hother hshort' hnames' other.sig] at hread
  exact Except.ok.inj hread

/-- A policy comes back from its encoding, and shares its body with no other policy, exactly
if the body is shorter than four gigabytes. -/
theorem encoding_determines_iff (hvalid : policy.Valid) (hshort : policy.Short) :
    (decode policy.encode = .ok policy ∧
      ∀ other : ServerPolicy, other.Valid → other.Short → other.body = policy.body →
        other = { policy with sig := other.sig }) ↔ policy.size < 2 ^ 32 := by
  constructor
  · rintro ⟨hdecode, -⟩
    exact size_lt_of_decode hdecode
  · intro hsize
    refine ⟨decode_encode hvalid hsize, ?_⟩
    intro other hother hshort' hbody
    have hnames := (short_of_size hsize).2
    rw [← length_body, ← hbody, length_body] at hsize
    exact body_injective hvalid hshort hnames hother hshort' (short_of_size hsize).2 hbody

def blank : ServerPolicy where
  serverRoot := .fill 32 1
  ownerId := .fill 32 2
  version := 1
  roles := []
  assignments := []
  emojis := []
  stickers := []
  sounds := []
  nicknames := []
  issuedMs := 0
  sig := .fill 64 0

/-- An emoji that a role has as its icon, and a nickname after two empty sections. -/
def decorated : ServerPolicy :=
  { blank with
    roles := [{ id := 1, allow := permKick, deny := 0, name := "staff", rank := 1, icon := some "wave" }]
    assignments := [(.fill 32 3, [1])]
    emojis := [("wave", .fill 32 4)]
    nicknames := [(.fill 32 3, "Ann")] }

theorem decorated_valid : decorated.Valid := by
  have hwave : validEmojiName "wave" = true := by
    rw [validEmojiName, String.toUTF8, ByteArray.toList_eq]
    rfl
  constructor
  · simpa [decorated] using hwave
  · simp [decorated, blank]
  · simp [decorated, blank]
  · simpa [decorated] using (by decide : validNickname "Ann" = true)
  · simp [decorated]

theorem encoding_determines_decorated : decorated.Valid ∧ decorated.Short ∧
    decode decorated.encode = .ok decorated :=
  have hshort : decorated.Short := by constructor <;> simp [decorated, blank]
  ⟨decorated_valid, hshort,
    ((encoding_determines_iff decorated_valid hshort).mpr (by decide)).1⟩

/-- One member with `n` role ids. -/
def crowded (n : Nat) : ServerPolicy :=
  { blank with assignments := [(.fill 32 3, List.replicate n 1)] }

theorem size_crowded (n : Nat) : (crowded n).size = 124 + 2 * n := by
  simp [crowded, blank, size, tailSize, assignmentSize, minAssignmentBytes]
  omega

theorem crowded_valid (n : Nat) : (crowded n).Valid := by
  constructor <;> simp [crowded, blank]

theorem crowded_short {n : Nat} (hn : n < 2 ^ 31) : (crowded n).Short := by
  refine ⟨?_, ?_, ?_, ?_, ?_, ?_, ?_⟩
  case refine_3 =>
    simpa [crowded] using hn
  all_goals simp [crowded, blank]

/-- All lists are short enough, and still the body is longer than its length word can say. -/
theorem crowded_does_not_decode : (crowded 2147483647).Valid ∧ (crowded 2147483647).Short ∧
    decode (crowded 2147483647).encode ≠ .ok (crowded 2147483647) := by
  refine ⟨crowded_valid _, crowded_short (by decide), ?_⟩
  intro hdecode
  have hsize := size_lt_of_decode hdecode
  rw [size_crowded] at hsize
  omega

end ServerPolicy

end Dante.Core.Policy
