import Dante.Bytes
import Dante.Library.Codec
import Dante.Library.Utf8

/-!
The length-prefixed binary codec. Writing is concatenation: each `Writer` method
is the list of bytes it appends. A `Reader` is a parser whose state is the part of
the input that is not consumed yet.
-/

namespace Dante.Enc

namespace Writer

def u8 (v : UInt8) : Bytes := [v]

def u16 (v : UInt16) : Bytes := BigEndian.encode 2 v.toNat

def u32 (v : UInt32) : Bytes := BigEndian.encode 4 v.toNat

def u64 (v : UInt64) : Bytes := BigEndian.encode 8 v.toNat

def bool (v : Bool) : Bytes := [if v then 1 else 0]

def fixed {n : Nat} (array : ByteArr n) : Bytes := array.toList

/-- A `u32` length, truncated as `as u32` truncates it, and the bytes. -/
def bytes (v : Bytes) : Bytes := u32 (UInt32.ofNat v.length) ++ v

def string (s : String) : Bytes := bytes s.toUTF8.toList

def both {α γ : Type} (first : α → Bytes) (second : γ → Bytes) (v : α × γ) : Bytes :=
  first v.1 ++ second v.2

@[simp]
theorem length_u16 (v : UInt16) : (u16 v).length = 2 := BigEndian.encode_length 2 _

@[simp]
theorem length_u32 (v : UInt32) : (u32 v).length = 4 := BigEndian.encode_length 4 _

@[simp]
theorem length_u64 (v : UInt64) : (u64 v).length = 8 := BigEndian.encode_length 8 _

@[simp]
theorem length_fixed {n : Nat} (array : ByteArr n) : (fixed array).length = n :=
  array.length_toList

@[simp]
theorem length_bytes (v : Bytes) : (bytes v).length = 4 + v.length := by
  rw [bytes, List.length_append, length_u32]

@[simp]
theorem length_both {α γ : Type} (first : α → Bytes) (second : γ → Bytes) (v : α × γ) :
    (both first second v).length = (first v.1).length + (second v.2).length :=
  List.length_append

@[simp]
theorem length_string (s : String) : (string s).length = 4 + s.utf8ByteSize := by
  rw [string, length_bytes, String.length_toUTF8]

end Writer

inductive WireError where
  | eof
  | trailing (count : Nat)
  | lengthTooLarge (length : UInt64)
  | badBool (byte : UInt8)
  | badUtf8
  | badDiscriminant (ty : String) (value : UInt64)
  | invalid (what : String)
  deriving DecidableEq, Repr

abbrev Reader := Parser UInt8 WireError

namespace Reader

def remaining : Reader Nat := do
  return (← get).length

def take (n : Nat) : Reader (ByteArr n) := do
  let input ← get
  if h : input.length < n then
    throw .eof
  else
    set (input.drop n)
    return .ofList (input.take n) (by rw [List.length_take]; omega)

def u8 : Reader UInt8 := do
  return UInt8.ofNat (BigEndian.decode (← take 1).toList)

def u16 : Reader UInt16 := do
  return UInt16.ofNat (BigEndian.decode (← take 2).toList)

def u32 : Reader UInt32 := do
  return UInt32.ofNat (BigEndian.decode (← take 4).toList)

def u64 : Reader UInt64 := do
  return UInt64.ofNat (BigEndian.decode (← take 8).toList)

def bool : Reader Bool := do
  match ← u8 with
  | 0 => return false
  | 1 => return true
  | other => throw (.badBool other)

def fixed (n : Nat) : Reader (ByteArr n) := take n

def bytes : Reader Bytes := do
  let len := (← u32).toNat
  if len > (← remaining) then
    throw (.lengthTooLarge (UInt64.ofNat len))
  return (← take len).toList

def string : Reader String := do
  match String.fromUTF8? ⟨(← bytes).toArray⟩ with
  | some s => return s
  | none => throw .badUtf8

/-- Run a reader on a whole input and assert that it is fully consumed. -/
def decodeAll {α : Type} (reader : Reader α) (input : Bytes) : Except WireError α := do
  let (value, rest) ← reader.run input
  if rest.length = 0 then
    return value
  throw (.trailing rest.length)

theorem decodeAll_eq_ok {α : Type} {reader : Reader α} {input : Bytes} {value : α} :
    decodeAll reader input = .ok value ↔ reader.run input = .ok (value, []) := by
  unfold decodeAll
  cases hrun : reader.run input with
  | error e => simp [bind, Except.bind]
  | ok result =>
    obtain ⟨found, rest⟩ := result
    cases rest <;> simp [bind, Except.bind, pure, Except.pure, throw, throwThe,
      MonadExceptOf.throw]

theorem decodeAll_of_reads {α : Type} {reader : Reader α} {input : Bytes} {value : α}
    (hread : Parser.Reads reader input value) : decodeAll reader input = .ok value := by
  rw [decodeAll_eq_ok]
  simpa using hread []

theorem run_take (n : Nat) (input : Bytes) :
    (take n).run input =
      if h : input.length < n then
        .error .eof
      else
        .ok (.ofList (input.take n) (by rw [List.length_take]; omega), input.drop n) := by
  unfold take
  rw [StateT.run_bind, StateT.run_get, pure_bind]
  dsimp only
  by_cases h : input.length < n
  · rw [dif_pos h, dif_pos h]
    rfl
  · rw [dif_neg h, dif_neg h]
    rfl

theorem reads_take {n : Nat} (array : ByteArr n) : Parser.Reads (take n) array.toList array := by
  intro rest
  have hlen : ¬ (array.toList ++ rest).length < n := by simp
  rw [run_take, dif_neg hlen]
  congr 2
  · apply ByteArr.toList_injective
    simp
  · simp

theorem reads_fixed {n : Nat} (array : ByteArr n) :
    Parser.Reads (fixed n) (Writer.fixed array) array :=
  reads_take array

theorem reads_number {α : Type} (w n : Nat) (hn : n < 256 ^ w) (ofNat : Nat → α) :
    Parser.Reads (do return ofNat (BigEndian.decode (← take w).toList) : Reader α)
      (BigEndian.encode w n) (ofNat n) := by
  let array : ByteArr w := .ofList (BigEndian.encode w n) (BigEndian.encode_length w n)
  have hvalue : ofNat (BigEndian.decode array.toList) = ofNat n := by
    rw [ByteArr.toList_ofList, BigEndian.decode_encode_of_lt hn]
  have hread : Parser.Reads (do return ofNat (BigEndian.decode (← take w).toList) : Reader α)
      (array.toList ++ []) (ofNat (BigEndian.decode array.toList)) :=
    (reads_take array).bind (Parser.Reads.pure _)
  rwa [hvalue, List.append_nil] at hread

theorem reads_u8 (v : UInt8) : Parser.Reads u8 (Writer.u8 v) v := by
  have hread := reads_number 1 v.toNat v.toNat_lt UInt8.ofNat
  have hbyte : BigEndian.encode 1 v.toNat = Writer.u8 v := by
    simp [BigEndian.encode, Writer.u8]
  rwa [UInt8.ofNat_toNat, hbyte] at hread

theorem reads_u16 (v : UInt16) : Parser.Reads u16 (Writer.u16 v) v := by
  have hread := reads_number 2 v.toNat v.toNat_lt UInt16.ofNat
  rwa [UInt16.ofNat_toNat] at hread

theorem reads_u32 (v : UInt32) : Parser.Reads u32 (Writer.u32 v) v := by
  have hread := reads_number 4 v.toNat v.toNat_lt UInt32.ofNat
  rwa [UInt32.ofNat_toNat] at hread

theorem reads_u64 (v : UInt64) : Parser.Reads u64 (Writer.u64 v) v := by
  have hread := reads_number 8 v.toNat v.toNat_lt UInt64.ofNat
  rwa [UInt64.ofNat_toNat] at hread

theorem reads_bool (v : Bool) : Parser.Reads bool (Writer.bool v) v := by
  intro rest
  cases v <;> rfl

/-- The length word is exact below `2 ^ 32`. -/
theorem reads_bytes {v : Bytes} (hlen : v.length < 2 ^ 32) :
    Parser.Reads bytes (Writer.bytes v) v := by
  intro rest
  have hword : v.length = (UInt32.ofNat v.length).toNat := by
    rw [UInt32.toNat_ofNat']
    exact (Nat.mod_eq_of_lt hlen).symm
  have hfits : ¬ (UInt32.ofNat v.length).toNat > (v ++ rest).length := by
    rw [← hword, List.length_append]
    omega
  have hremaining : remaining.run (v ++ rest) = .ok ((v ++ rest).length, v ++ rest) := rfl
  rw [bytes, Writer.bytes, List.append_assoc, Parser.run_bind_of_ok (reads_u32 _ _)]
  dsimp only
  rw [Parser.run_bind_of_ok hremaining, if_neg hfits]
  exact Parser.run_bind_of_ok (reads_take (.ofList v hword) rest)

theorem length_of_run_bytes {v found rest rest' : Bytes}
    (hok : bytes.run (Writer.bytes v ++ rest) = .ok (found, rest')) :
    found.length = v.length % 2 ^ 32 := by
  rw [bytes, Writer.bytes, List.append_assoc, Parser.run_bind_of_ok (reads_u32 _ _)] at hok
  dsimp only at hok
  obtain ⟨count, mid, hcount, hok⟩ := Parser.run_bind_ok hok
  cases hcount
  split at hok
  · obtain ⟨_, _, hthrow, -⟩ := Parser.run_bind_ok hok
    cases hthrow
  · obtain ⟨array, mid, -, hok⟩ := Parser.run_bind_ok hok
    cases hok
    rw [ByteArr.length_toList, UInt32.toNat_ofNat']

theorem length_of_decodeAll {α : Type} {reader : Reader α} {P : α → Nat → Prop} {input : Bytes}
    {value : α} (h : Parser.Consumes reader P) (hok : decodeAll reader input = .ok value) :
    P value input.length := by
  obtain ⟨n, hn, hP⟩ := h _ _ _ (decodeAll_eq_ok.mp hok)
  rw [List.length_nil, Nat.add_zero] at hn
  rwa [hn]

theorem consumes_take (n : Nat) : Parser.Consumes (take n) fun _ m => m = n := by
  intro input rest array hok
  rw [run_take] at hok
  split at hok
  · cases hok
  · cases hok
    refine ⟨n, ?_, rfl⟩
    rw [List.length_drop]
    omega

theorem consumes_fixed (n : Nat) : Parser.Consumes (fixed n) fun _ m => m = n :=
  consumes_take n

theorem consumes_u8 : Parser.Consumes u8 fun _ m => m = 1 :=
  (consumes_take 1).bind fun _ _ hn => .pure hn

theorem consumes_u32 : Parser.Consumes u32 fun _ m => m = 4 :=
  (consumes_take 4).bind fun _ _ hn => .pure hn

theorem consumes_remaining : Parser.Consumes remaining fun _ m => m = 0 := by
  intro input rest count hok
  cases hok
  exact ⟨0, (Nat.zero_add _).symm, rfl⟩

theorem consumes_bool : Parser.Consumes bool fun _ m => m = 1 := by
  refine consumes_u8.bind fun byte n hn => ?_
  split
  · exact .pure hn
  · exact .pure hn
  · exact .throw

theorem consumes_bytes : Parser.Consumes bytes fun v m => m = 4 + v.length := by
  refine consumes_u32.bind fun len n hn => ?_
  refine consumes_remaining.bind fun left m hm => ?_
  dsimp only
  split
  · exact .throw
  · refine (consumes_take len.toNat).bind fun array k hk => .pure ?_
    rw [ByteArr.length_toList]
    omega

theorem consumes_string : Parser.Consumes string fun s m => m = 4 + s.utf8ByteSize := by
  refine consumes_bytes.bind fun v n hn => ?_
  split
  · rename_i s hs
    refine .pure ?_
    have hsize : s.utf8ByteSize = v.length := by
      rw [← String.length_toUTF8, String.fromUTF8?_eq_some.mp hs]
    omega
  · exact .throw

theorem takes_take (n : Nat) :
    Parser.Takes (take n) fun array xs => xs = array.toList := by
  intro input rest array hok
  rw [run_take] at hok
  split at hok
  · cases hok
  · cases hok
    exact ⟨input.take n, (List.take_append_drop n input).symm, (ByteArr.toList_ofList _ _).symm⟩

theorem codec_fixed (n : Nat) : Parser.Codec (fixed n) Writer.fixed fun _ => True where
  reads _ := reads_fixed _
  takes := by
    intro input rest array hok
    obtain ⟨xs, hxs, rfl⟩ := takes_take n input rest array hok
    exact ⟨_, hxs, rfl, trivial⟩

theorem takes_number {α : Type} (w : Nat) {ofNat : Nat → α} {write : α → Bytes}
    (hwrite : ∀ n < 256 ^ w, write (ofNat n) = BigEndian.encode w n) :
    Parser.Takes (do return ofNat (BigEndian.decode (← take w).toList) : Reader α)
      fun v xs => xs = write v ∧ True := by
  refine (takes_take w).bind ?_
  rintro array _ rfl
  refine .pure ⟨?_, trivial⟩
  have hlt := BigEndian.decode_lt array.toList
  rw [ByteArr.length_toList] at hlt
  have hback := BigEndian.encode_decode array.toList
  rw [ByteArr.length_toList] at hback
  rw [List.append_nil, hwrite _ hlt, hback]

theorem codec_u8 : Parser.Codec u8 Writer.u8 fun _ => True where
  reads _ := reads_u8 _
  takes := takes_number 1 fun n hn => by
    simp [Writer.u8, BigEndian.encode]

/-- A tag, and what it stands for. -/
theorem reads_tag {α : Type} {next : UInt8 → Reader α} {tag : UInt8} {rest : Bytes} {a : α}
    (h : Parser.Reads (next tag) rest a) : Parser.Reads (u8 >>= next) (Writer.u8 tag ++ rest) a :=
  codec_u8.reads_bind trivial h

theorem codec_u16 : Parser.Codec u16 Writer.u16 fun _ => True where
  reads _ := reads_u16 _
  takes := takes_number 2 fun n hn => by
    rw [Writer.u16, UInt16.toNat_ofNat_of_lt' hn]

theorem codec_u32 : Parser.Codec u32 Writer.u32 fun _ => True where
  reads _ := reads_u32 _
  takes := takes_number 4 fun n hn => by
    rw [Writer.u32, UInt32.toNat_ofNat_of_lt' hn]

theorem codec_u64 : Parser.Codec u64 Writer.u64 fun _ => True where
  reads _ := reads_u64 _
  takes := takes_number 8 fun n hn => by
    rw [Writer.u64, UInt64.toNat_ofNat_of_lt' hn]

theorem codec_bool : Parser.Codec bool Writer.bool fun _ => True where
  reads _ := reads_bool _
  takes := by
    refine codec_u8.takes_bind fun byte _ => ?_
    split
    · exact .pure ⟨rfl, trivial⟩
    · exact .pure ⟨rfl, trivial⟩
    · exact .throw

theorem takes_remaining : Parser.Takes remaining fun _ xs => xs = [] := by
  intro input rest count hok
  cases hok
  exact ⟨[], rfl, rfl⟩

theorem codec_bytes : Parser.Codec bytes Writer.bytes fun v => v.length < 2 ^ 32 where
  reads hlen := reads_bytes hlen
  takes := by
    refine codec_u32.takes_bind fun len _ => takes_remaining.bind ?_
    rintro count _ rfl
    dsimp only
    split
    · exact .throw
    · refine (takes_take len.toNat).bind ?_
      rintro array _ rfl
      refine .pure ⟨?_, ?_⟩
      · rw [Writer.bytes, ByteArr.length_toList, UInt32.ofNat_toNat]
        simp
      · rw [ByteArr.length_toList]
        exact len.toNat_lt

theorem codec_both {α γ : Type} {first : Reader α} {second : Reader γ} {write : α → Bytes}
    {write' : γ → Bytes} {fits : α → Prop} {fits' : γ → Prop} (h : Parser.Codec first write fits)
    (h' : Parser.Codec second write' fits') :
    Parser.Codec (Parser.both first second) (Writer.both write write')
      fun v => fits v.1 ∧ fits' v.2 :=
  h.both h'

theorem codec_string : Parser.Codec string Writer.string fun s => s.utf8ByteSize < 2 ^ 32 where
  reads {s} hlen := by
    have hback : String.fromUTF8? ⟨s.toUTF8.toList.toArray⟩ = some s := String.fromUTF8?_eq_some.mpr rfl
    rw [← String.length_toUTF8] at hlen
    rw [Writer.string, ← List.append_nil (Writer.bytes _)]
    refine (reads_bytes hlen).bind ?_
    rw [hback]
    exact .pure s
  takes := by
    refine codec_bytes.takes_bind fun v hv => ?_
    split
    · rename_i s hs
      obtain rfl := String.fromUTF8?_eq_some.mp hs
      rw [String.length_toUTF8] at hv
      exact .pure ⟨List.append_nil _, hv⟩
    · exact .throw

end Reader

def Writer.list {α : Type} (write : α → Bytes) (xs : List α) : Bytes :=
  u32 (UInt32.ofNat xs.length) ++ xs.flatMap write

theorem Writer.length_list {α : Type} (write : α → Bytes) (xs : List α) :
    (Writer.list write xs).length = 4 + (xs.map fun x => (write x).length).sum := by
  rw [Writer.list, List.length_append, length_u32, List.length_flatMap]

theorem Writer.length_list_le {α : Type} {write : α → Bytes} {xs : List α} {size : Nat}
    (h : ∀ x ∈ xs, (write x).length ≤ size) :
    (Writer.list write xs).length ≤ 4 + xs.length * size := by
  have hsum := List.sum_le_card_nsmul (xs.map fun x => (write x).length) size (by simpa using h)
  rw [List.length_map, smul_eq_mul] at hsum
  rw [Writer.length_list]
  omega

namespace Reader

variable {α : Type} {fits : α → Prop}

def list {α : Type} (item : Reader α) : Reader (List α) := do
  let n := (← u32).toNat
  if n > (← remaining) then
    throw (.lengthTooLarge (UInt64.ofNat n))
  Parser.times item n

theorem length_le_flatMap {write : α → Bytes} (hpos : ∀ x, 0 < (write x).length) (xs : List α) :
    xs.length ≤ (xs.flatMap write).length := by
  induction xs with
  | nil => exact Nat.le_refl 0
  | cons x xs ih =>
    have := hpos x
    rw [List.flatMap_cons, List.length_append, List.length_cons]
    omega

theorem toNat_ofNat_length {n : Nat} (hlen : n < 2 ^ 32) : (UInt32.ofNat n).toNat = n := by
  rw [UInt32.toNat_ofNat']
  exact Nat.mod_eq_of_lt hlen

theorem reads_list {item : Reader α} {write : α → Bytes} (hpos : ∀ x, 0 < (write x).length)
    {xs : List α} (hlen : xs.length < 2 ^ 32) (hitems : ∀ x ∈ xs, Parser.Reads item (write x) x) :
    Parser.Reads (list item) (Writer.list write xs) xs := by
  intro rest
  have hword := toNat_ofNat_length hlen
  have hroom : ¬ (UInt32.ofNat xs.length).toNat > (xs.flatMap write ++ rest).length := by
    have := length_le_flatMap hpos xs
    rw [hword, List.length_append]
    omega
  have hremaining : remaining.run (xs.flatMap write ++ rest) =
      .ok ((xs.flatMap write ++ rest).length, xs.flatMap write ++ rest) := rfl
  rw [list, Writer.list, List.append_assoc, Parser.run_bind_of_ok (reads_u32 _ _)]
  dsimp only
  rw [Parser.run_bind_of_ok hremaining, if_neg hroom, hword]
  exact Parser.Reads.times xs hitems rest

theorem codec_list {item : Reader α} {write : α → Bytes} (h : Parser.Codec item write fits)
    (hpos : ∀ x, 0 < (write x).length) :
    Parser.Codec (list item) (Writer.list write)
      fun xs => xs.length < 2 ^ 32 ∧ ∀ x ∈ xs, fits x where
  reads hxs := reads_list hpos hxs.1 fun x hx => h.reads (hxs.2 x hx)
  takes := by
    refine codec_u32.takes_bind fun n _ => takes_remaining.bind ?_
    rintro count _ rfl
    dsimp only
    split
    · exact .throw
    · intro input rest xs hok
      obtain ⟨taken, hinput, hlen, htaken, hfits⟩ := h.takes.times n.toNat input rest xs hok
      refine ⟨taken, hinput, ?_, hlen ▸ n.toNat_lt, hfits⟩
      rw [Writer.list, hlen, UInt32.ofNat_toNat, htaken, List.nil_append]

theorem run_list_eq_ok {item : Reader α} {write : α → Bytes} {xs ys : List α} {rest rest' : Bytes}
    (hok : (list item).run (Writer.list write xs ++ rest) = .ok (ys, rest')) :
    ys.length = (UInt32.ofNat xs.length).toNat ∧
      (Parser.times item ys.length).run (xs.flatMap write ++ rest) = .ok (ys, rest') := by
  rw [list, Writer.list, List.append_assoc, Parser.run_bind_of_ok (reads_u32 _ _)] at hok
  dsimp only at hok
  obtain ⟨count, mid, hcount, hok⟩ := Parser.run_bind_ok hok
  cases hcount
  split at hok
  · obtain ⟨_, _, hthrow, -⟩ := Parser.run_bind_ok hok
    cases hthrow
  · have hlen := Parser.length_of_times hok
    rw [hlen]
    exact ⟨rfl, hok⟩

theorem restores_list {item : Reader α} {write : α → Bytes} (h : Parser.Restores item write fits)
    (hpos : ∀ x, 0 < (write x).length) :
    Parser.Restores (list item) (Writer.list write)
      fun xs => xs.length < 2 ^ 32 ∧ ∀ x ∈ xs, fits x where
  reads hxs := reads_list hpos hxs.1 fun x hx => h.reads (hxs.2 x hx)
  only {xs rest rest'} hok := by
    obtain ⟨hlen, htimes⟩ := run_list_eq_ok hok
    obtain ⟨hitems, hrest⟩ := h.times xs htimes
    exact ⟨⟨hlen ▸ (UInt32.ofNat xs.length).toNat_lt, hitems⟩, hrest⟩

/-- Decoding succeeds on the encodings of values that fit, and on nothing else. -/
theorem decodeAll_eq_ok_iff {reader : Reader α} {write : α → Bytes}
    (h : Parser.Codec reader write fits) {input : Bytes} {value : α} :
    decodeAll reader input = .ok value ↔ input = write value ∧ fits value := by
  constructor
  · intro hok
    obtain ⟨taken, hinput, htaken, hfits⟩ := h.takes _ _ _ (decodeAll_eq_ok.mp hok)
    rw [hinput, List.append_nil]
    exact ⟨htaken, hfits⟩
  · rintro ⟨rfl, hfits⟩
    exact decodeAll_of_reads (h.reads hfits)

section Nested

variable {α γ : Type} {reader : Reader α} {write : α → Bytes} {fits : α → Prop}
  {next : α → Reader γ}

theorem reads_nested (h : Parser.Codec reader write fits) {a : α} {b : γ} {second : Bytes}
    (ha : fits a) (hlen : (write a).length < 2 ^ 32)
    (hsecond : Parser.Reads (next a) second b) :
    Parser.Reads (do next (← Parser.ofExcept (decodeAll reader (← bytes))))
      (Writer.bytes (write a) ++ second) b :=
  (reads_bytes hlen).bind <|
    (Parser.Reads.ofExcept ((decodeAll_eq_ok_iff h).mpr ⟨rfl, ha⟩)).bind hsecond

theorem takes_nested (h : Parser.Codec reader write fits) {Q : γ → Bytes → Prop}
    (hnext : ∀ a, fits a → (write a).length < 2 ^ 32 →
      Parser.Takes (next a) fun b ys => Q b (Writer.bytes (write a) ++ ys)) :
    Parser.Takes (do next (← Parser.ofExcept (decodeAll reader (← bytes)))) Q := by
  refine codec_bytes.takes_bind fun v hv => (Parser.Takes.ofExcept _).bind ?_
  rintro a _ ⟨rfl, hdecode⟩
  obtain ⟨rfl, hfits⟩ := (decodeAll_eq_ok_iff h).mp hdecode
  exact hnext a hfits hv

theorem codec_nested (h : Parser.Codec reader write fits) :
    Parser.Codec (do Parser.ofExcept (decodeAll reader (← bytes))) (fun a => Writer.bytes (write a))
      fun a => fits a ∧ (write a).length < 2 ^ 32 where
  reads {a} hfits := by
    refine codec_bytes.reads_last hfits.2 ?_
    exact Parser.Reads.ofExcept ((decodeAll_eq_ok_iff h).mpr ⟨rfl, hfits.1⟩)
  takes := by
    refine codec_bytes.takes_bind fun v hv => ?_
    intro input rest a hok
    obtain ⟨taken, hinput, rfl, hdecode⟩ := Parser.Takes.ofExcept _ _ _ _ hok
    obtain ⟨rfl, hfits⟩ := (decodeAll_eq_ok_iff h).mp hdecode
    exact ⟨[], hinput, List.append_nil _, hfits, hv⟩

end Nested

end Reader

end Dante.Enc
