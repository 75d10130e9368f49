import Dante.Bytes
import Dante.Library.BitBuffer
import Dante.Library.Method

/-!
The base32 text of an identity id, in Crockford's alphabet and in groups of four symbols. A
reader tolerates dashes and whitespace anywhere, lower case, and the letters that are easily
taken for digits. Both directions pass the bits through a `u16`, which is a number modulo
`2 ^ 16` here.
-/

namespace Dante.Identity

open BitBuffer

variable {values : List Nat} {value : Nat}

def crockford : List Char := "0123456789ABCDEFGHJKMNPQRSTVWXYZ".toList

def symbolOf (value : Nat) : Char := crockford.getD value '0'

structure EncodeState where
  out : List Char
  acc : Nat
  bits : Nat
  symbols : Nat

namespace EncodeState

def start : EncodeState := { out := [], acc := 0, bits := 0, symbols := 0 }

/-- Put out a symbol, with a dash in front of each group but the first. -/
def push (state : EncodeState) (index : Nat) : EncodeState :=
  let out := if state.symbols > 0 ∧ state.symbols % 4 = 0 then state.out ++ ['-'] else state.out
  { state with out := out ++ [symbolOf index], symbols := state.symbols + 1 }

/-- `while bits >= 5` -/
def drain (state : EncodeState) : EncodeState :=
  if _h : state.bits ≥ 5 then
    drain ({ state with bits := state.bits - 5 }.push (state.acc >>> (state.bits - 5) &&& 0x1f))
  else
    state
termination_by state.bits
decreasing_by
  simp only [push]
  omega

def feed (state : EncodeState) (byte : UInt8) : EncodeState :=
  drain { state with acc := shiftIn state.acc 8 byte.toNat, bits := state.bits + 8 }

end EncodeState

def crockfordEncodeGrouped (data : Bytes) : String :=
  let state := data.foldl EncodeState.feed .start
  let state := if state.bits > 0 then
      state.push (state.acc <<< (5 - state.bits) % 2 ^ 16 &&& 0x1f)
    else
      state
  String.ofList state.out

def toBase32 (id : Hash) : String := crockfordEncodeGrouped id.toList

/-- `char::is_whitespace`: the characters with the Unicode property `White_Space`. -/
def isWhitespace (c : Char) : Bool :=
  let n := c.toNat
  (0x09 ≤ n && n ≤ 0x0D) || n == 0x20 || n == 0x85 || n == 0xA0 || n == 0x1680 ||
    (0x2000 ≤ n && n ≤ 0x200A) || n == 0x2028 || n == 0x2029 || n == 0x202F || n == 0x205F ||
    n == 0x3000

/-- Upper case, and digits for the letters that look like them. -/
def normalizeChar (c : Char) : Char :=
  match c.toUpper with
  | 'O' => '0'
  | 'I' | 'L' => '1'
  | other => other

def crockfordSymbol (c : Char) : Option Nat := crockford.findIdx? (· = normalizeChar c)

structure DecodeState where
  acc : Nat
  bits : Nat
  out : Bytes
  symbols : Nat

namespace DecodeState

def start : DecodeState := { acc := 0, bits := 0, out := [], symbols := 0 }

def push (state : DecodeState) (value : Nat) : DecodeState :=
  let acc := shiftIn state.acc 5 value
  let bits := state.bits + 5
  if bits ≥ 8 then
    { acc := acc, bits := bits - 8, out := state.out ++ [UInt8.ofNat (acc >>> (bits - 8))]
      symbols := state.symbols + 1 }
  else
    { acc := acc, bits := bits, out := state.out, symbols := state.symbols + 1 }

def feed (state : DecodeState) (c : Char) : Option DecodeState :=
  if c = '-' ∨ isWhitespace c then
    some state
  else do
    let value ← crockfordSymbol c
    return state.push value

end DecodeState

def crockfordDecode (s : String) : Option Bytes := do
  let state ← s.toList.foldlM DecodeState.feed .start
  if state.symbols ≠ 52 ∨ state.out.length ≠ 32 then none
  if state.bits ≠ 4 ∨ state.acc &&& 0x0f ≠ 0 then none
  return state.out

inductive FingerprintError where
  | badFingerprint
  deriving DecidableEq, Repr

def fromBase32 (s : String) : Except FingerprintError Hash := do
  let bytes ← Except.okOr (crockfordDecode s) .badFingerprint
  if h : bytes.length = 32 then
    return .ofList bytes h
  else
    throw .badFingerprint

/-- The text without dashes and whitespace, in upper case and with digits for letters. -/
def normalized (s : String) : List Char :=
  (s.toList.filter fun c => ¬ (c = '-' ∨ isWhitespace c)).map normalizeChar

def undashed (s : String) : List Char := s.toList.filter (· ≠ '-')

/-- A symbol stands for itself, and is neither a dash nor whitespace. -/
theorem symbolOf_kept (hvalue : value < 32) :
    symbolOf value ≠ '-' ∧ isWhitespace (symbolOf value) = false ∧
      normalizeChar (symbolOf value) = symbolOf value := by
  have hall : ∀ value < 32, symbolOf value ≠ '-' ∧ isWhitespace (symbolOf value) = false ∧
      normalizeChar (symbolOf value) = symbolOf value := by decide
  exact hall value hvalue

theorem crockfordSymbol_eq_some {c : Char} :
    crockfordSymbol c = some value ↔ value < 32 ∧ normalizeChar c = symbolOf value := by
  have hsymbol {i : Nat} (hi : i < crockford.length) : crockford[i] = symbolOf i := by
    rw [symbolOf, List.getD_eq_getElem?_getD, List.getElem?_eq_getElem hi, Option.getD_some]
  have hnodup : crockford.Nodup := by decide
  rw [crockfordSymbol, List.findIdx?_eq_some_iff_getElem]
  constructor
  · rintro ⟨hlt, hfound, -⟩
    exact ⟨hlt, (of_decide_eq_true hfound).symm.trans (hsymbol hlt)⟩
  · rintro ⟨hlt, hsame⟩
    refine ⟨hlt, decide_eq_true ((hsymbol hlt).trans hsame.symm), ?_⟩
    intro j hj hfound
    -- the alphabet has no symbol twice
    have hlast : value < crockford.length := hlt
    have heq : crockford[j] = crockford[value] :=
      (of_decide_eq_true hfound).trans (hsame.trans (hsymbol hlt).symm)
    exact absurd (hnodup.getElem_inj_iff.mp heq) hj.ne

theorem foldlM_feed {cs : List Char} {state state' : DecodeState} :
    cs.foldlM DecodeState.feed state = some state' ↔
      ∃ values : List Nat, (∀ value ∈ values, value < 32) ∧
        (cs.filter fun c => ¬ (c = '-' ∨ isWhitespace c)).map normalizeChar =
          values.map symbolOf ∧
        state' = values.foldl DecodeState.push state := by
  induction cs generalizing state with
  | nil =>
    constructor
    · intro h
      cases h
      exact ⟨[], by simp, rfl, rfl⟩
    · rintro ⟨values, -, hmap, rfl⟩
      obtain rfl : values = [] := by simpa using hmap.symm
      rfl
  | cons c cs ih =>
    rw [List.foldlM_cons, Option.bind_eq_bind, Option.bind_eq_some_iff]
    by_cases hskip : c = '-' ∨ isWhitespace c
    · simp only [DecodeState.feed, hskip, if_true, Option.some.injEq, exists_eq_left', ih,
        List.filter_cons, not_true_eq_false, decide_false, Bool.false_eq_true, if_false]
    · simp only [DecodeState.feed, hskip, if_false, Option.bind_eq_bind, Option.bind_eq_some_iff,
        Option.pure_def, Option.some.injEq, List.filter_cons, not_false_eq_true, decide_true,
        if_true, List.map_cons, crockfordSymbol_eq_some]
      constructor
      · rintro ⟨next, ⟨value, ⟨hvalue, hsame⟩, rfl⟩, hrest⟩
        obtain ⟨values, hvalues, hmap, rfl⟩ := ih.mp hrest
        exact ⟨value :: values, List.forall_mem_cons.mpr ⟨hvalue, hvalues⟩, by
          rw [hsame, hmap, List.map_cons], rfl⟩
      · rintro ⟨values, hvalues, hmap, rfl⟩
        cases values with
        | nil => cases hmap
        | cons value values =>
          obtain ⟨hvalue, hvalues⟩ := List.forall_mem_cons.mp hvalues
          obtain ⟨hsame, hmap⟩ := List.cons.inj hmap
          exact ⟨_, ⟨value, ⟨hvalue, hsame⟩, rfl⟩, ih.mpr ⟨values, hvalues, hmap, rfl⟩⟩

/-- What has been read of the values of `values`: whole bytes, and the bits of the next one. -/
structure DecodeState.Holds (values : List Nat) (state : DecodeState) : Prop where
  symbols : state.symbols = values.length
  bits : state.bits < 8
  length : 5 * values.length = 8 * state.out.length + state.bits
  value : Digits.value 32 values =
    BigEndian.decode state.out * 2 ^ state.bits + state.acc % 2 ^ state.bits

theorem DecodeState.Holds.push {state : DecodeState} (h : state.Holds values) (hvalue : value < 32) :
    (state.push value).Holds (values ++ [value]) := by
  obtain ⟨acc, bits, out, symbols⟩ := state
  obtain ⟨hsymbols, hbits, hlength, htotal⟩ := h
  dsimp only at hsymbols hbits hlength htotal
  have hshift : shiftIn acc 5 value % 2 ^ (bits + 5) = acc % 2 ^ bits * 2 ^ 5 + value :=
    shiftIn_mod acc hvalue (by omega)
  have hnew : Digits.value 32 (values ++ [value]) =
      BigEndian.decode out * 2 ^ (bits + 5) + shiftIn acc 5 value % 2 ^ (bits + 5) := by
    rw [Digits.value_snoc, htotal, hshift, pow_add]
    ring
  rw [DecodeState.push]
  dsimp only
  split
  · rename_i hfull
    refine ⟨?_, ?_, ?_, ?_⟩
    · simp [hsymbols]
    · dsimp only
      omega
    · simp only [List.length_append, List.length_singleton]
      omega
    · -- a byte is taken from the top
      have hsplit := mod_eq_take_add (shiftIn acc 5 value) (bits + 5 - 8) 8
      rw [Nat.sub_add_cancel hfull] at hsplit
      have hpow : 2 ^ (bits + 5) = 256 * 2 ^ (bits + 5 - 8) := by
        rw [← Nat.sub_add_cancel hfull, Nat.add_sub_cancel, pow_add, Nat.mul_comm]
        rfl
      rw [hnew, hsplit, BigEndian.decode_snoc, UInt8.toNat_ofNat', hpow]
      ring
  · refine ⟨by simp [hsymbols], ?_, ?_, hnew⟩
    · dsimp only
      omega
    · simp only [List.length_append, List.length_singleton]
      omega

theorem DecodeState.Holds.foldl {values before : List Nat} {state : DecodeState}
    (h : state.Holds before) (hvalues : ∀ value ∈ values, value < 32) :
    (values.foldl DecodeState.push state).Holds (before ++ values) := by
  induction values generalizing before state with
  | nil => simpa using h
  | cons value values ih =>
    obtain ⟨hvalue, hvalues⟩ := List.forall_mem_cons.mp hvalues
    simpa using ih (h.push hvalue) hvalues

/-- What has been written of the bytes of `data`: whole symbols, and the bits of the next one. -/
structure EncodeState.Holds (data : Bytes) (values : List Nat) (state : EncodeState) : Prop where
  out : state.out.filter (· ≠ '-') = values.map symbolOf
  small : ∀ value ∈ values, value < 32
  length : 8 * data.length = 5 * values.length + state.bits
  value : BigEndian.decode data =
    Digits.value 32 values * 2 ^ state.bits + state.acc % 2 ^ state.bits

theorem EncodeState.filter_out_push {state : EncodeState}
    (hout : state.out.filter (· ≠ '-') = values.map symbolOf) (hvalue : value < 32) :
    (state.push value).out.filter (· ≠ '-') = (values ++ [value]).map symbolOf := by
  have hdash := (symbolOf_kept hvalue).1
  rw [List.map_append, ← hout, EncodeState.push]
  dsimp only
  split <;> simp [hdash]

theorem EncodeState.Holds.take {data : Bytes} {state : EncodeState} (h : state.Holds data values)
    (hbits : state.bits ≥ 5) :
    let value := state.acc >>> (state.bits - 5) &&& 0x1f
    ({ state with bits := state.bits - 5 }.push value).Holds data (values ++ [value]) := by
  intro value
  have hmod : value = state.acc >>> (state.bits - 5) % 2 ^ 5 :=
    Nat.and_two_pow_sub_one_eq_mod _ 5
  have hvalue : value < 32 := by
    rw [hmod]
    exact Nat.mod_lt _ (by decide)
  refine ⟨filter_out_push h.out hvalue, ?_, ?_, ?_⟩
  · intro v hv
    rcases List.mem_append.mp hv with hold | hnew
    · exact h.small v hold
    · exact List.mem_singleton.mp hnew ▸ hvalue
  · have hlength := h.length
    simp only [EncodeState.push, List.length_append, List.length_singleton]
    omega
  · have hsplit := mod_eq_take_add state.acc (state.bits - 5) 5
    rw [Nat.sub_add_cancel hbits, ← hmod] at hsplit
    have hpow : 2 ^ state.bits = 32 * 2 ^ (state.bits - 5) := by
      rw [← Nat.sub_add_cancel hbits, Nat.add_sub_cancel, pow_add, Nat.mul_comm]
      rfl
    rw [h.value, hsplit, Digits.value_snoc, hpow]
    simp only [EncodeState.push]
    ring

theorem EncodeState.Holds.drain {data : Bytes} {state : EncodeState} (h : state.Holds data values) :
    ∃ values', state.drain.Holds data values' ∧ state.drain.bits < 5 := by
  fun_induction EncodeState.drain state generalizing values with
  | case1 state hbits ih => exact ih (h.take hbits)
  | case2 state hbits => exact ⟨values, h, not_le.mp hbits⟩

theorem EncodeState.Holds.feed {data : Bytes} {state : EncodeState} (h : state.Holds data values)
    (hbits : state.bits < 5) (byte : UInt8) :
    ∃ values', (state.feed byte).Holds (data ++ [byte]) values' ∧ (state.feed byte).bits < 5 := by
  have hshifted : EncodeState.Holds (data ++ [byte]) values
      { state with acc := shiftIn state.acc 8 byte.toNat, bits := state.bits + 8 } := by
    refine ⟨h.out, h.small, ?_, ?_⟩
    · have hlength := h.length
      simp only [List.length_append, List.length_singleton]
      omega
    · rw [shiftIn_mod state.acc byte.toNat_lt (by omega), BigEndian.decode_snoc, h.value, pow_add]
      ring
  exact hshifted.drain

theorem EncodeState.Holds.foldl {before : Bytes} {state : EncodeState}
    (h : state.Holds before values) (data : Bytes) (hbits : state.bits < 5) :
    ∃ values', (data.foldl EncodeState.feed state).Holds (before ++ data) values' ∧
      (data.foldl EncodeState.feed state).bits < 5 := by
  induction data generalizing before values state with
  | nil => exact ⟨values, by simpa using h, hbits⟩
  | cons byte data ih =>
    obtain ⟨values', h', hbits'⟩ := h.feed hbits byte
    simpa using ih h' hbits'

/-- The text of an id is 52 symbols, for the id and four zero bits. -/
theorem undashed_toBase32 (id : Hash) :
    ∃ values : List Nat, undashed (toBase32 id) = values.map symbolOf ∧
      (∀ value ∈ values, value < 32) ∧ values.length = 52 ∧
      Digits.value 32 values = BigEndian.decode id.toList * 16 := by
  have hstart : EncodeState.Holds [] [] .start := ⟨rfl, by simp, rfl, rfl⟩
  obtain ⟨values, h, hbits⟩ := hstart.foldl id.toList (by decide)
  rw [undashed, toBase32, crockfordEncodeGrouped]
  generalize id.toList.foldl EncodeState.feed .start = state at h hbits ⊢
  have hlength := h.length
  rw [List.nil_append, id.length_toList] at hlength
  -- 51 whole symbols, and one bit for the last one
  have hone : state.bits = 1 := by omega
  let last := state.acc <<< (5 - state.bits) % 2 ^ 16 &&& 0x1f
  have hlast : last = state.acc % 2 * 16 := by
    have hmod : last = state.acc <<< (5 - state.bits) % 2 ^ 16 % 2 ^ 5 :=
      Nat.and_two_pow_sub_one_eq_mod _ 5
    rw [hmod, hone, Nat.shiftLeft_eq]
    omega
  have hvalue := h.value
  rw [List.nil_append, hone, pow_one] at hvalue
  refine ⟨values ++ [last], ?_, ?_, ?_, ?_⟩
  · rw [if_pos (by omega : state.bits > 0), String.toList_ofList]
    exact EncodeState.filter_out_push h.out (by omega)
  · intro value hmem
    rcases List.mem_append.mp hmem with hold | hnew
    · exact h.small value hold
    · rw [List.mem_singleton.mp hnew]
      omega
  · rw [List.length_append, List.length_singleton]
    omega
  · rw [Digits.value_snoc, hlast, hvalue]
    ring

theorem crockfordDecode_eq_some {s : String} {bytes : Bytes} :
    crockfordDecode s = some bytes ↔
      ∃ state, s.toList.foldlM DecodeState.feed .start = some state ∧
        state.symbols = 52 ∧ state.out.length = 32 ∧ state.bits = 4 ∧ state.acc % 16 = 0 ∧
        state.out = bytes := by
  have hmask (acc : Nat) : acc &&& 0x0f = acc % 16 := Nat.and_two_pow_sub_one_eq_mod acc 4
  rw [crockfordDecode, Option.bind_eq_bind, Option.bind_eq_some_iff]
  apply exists_congr
  intro state
  apply and_congr_right
  intro _
  by_cases hcount : state.symbols ≠ 52 ∨ state.out.length ≠ 32
  · rw [if_pos hcount]
    refine iff_of_false (by simp) ?_
    rintro ⟨hsymbols, hout, -⟩
    exact hcount.elim (absurd hsymbols) (absurd hout)
  · rw [if_neg hcount]
    rw [not_or, not_not, not_not] at hcount
    rw [hmask]
    by_cases hpadding : state.bits ≠ 4 ∨ state.acc % 16 ≠ 0
    · simp only [hpadding, if_true]
      refine iff_of_false (by simp) ?_
      rintro ⟨-, -, hbits, hzero, -⟩
      exact hpadding.elim (absurd hbits) (absurd hzero)
    · simp only [hpadding, if_false]
      rw [not_or, not_not, not_not] at hpadding
      simp [hcount, hpadding]

/-- What a text is read as: 52 symbols that stand for an id and four zero bits. -/
theorem fromBase32_eq_ok {s : String} {id : Hash} :
    fromBase32 s = .ok id ↔
      ∃ values : List Nat, normalized s = values.map symbolOf ∧ (∀ value ∈ values, value < 32) ∧
        values.length = 52 ∧ Digits.value 32 values = BigEndian.decode id.toList * 16 := by
  have hstart : DecodeState.Holds [] .start := ⟨rfl, by decide, rfl, rfl⟩
  constructor
  · intro hok
    simp only [fromBase32, Except.bind_eq_ok, Except.okOr_eq_ok] at hok
    obtain ⟨bytes, hdecode, hok⟩ := hok
    obtain ⟨state, hfold, hsymbols, hout, hbits, hzero, rfl⟩ := crockfordDecode_eq_some.mp hdecode
    rw [dif_pos hout, Except.pure_eq_ok] at hok
    obtain ⟨values, hvalues, hnormalized, rfl⟩ := foldlM_feed.mp hfold
    have h := hstart.foldl hvalues
    rw [List.nil_append] at h
    refine ⟨values, hnormalized, hvalues, h.symbols.symm.trans hsymbols, ?_⟩
    rw [h.value, hbits, ← hok, ByteArr.toList_ofList]
    omega
  · rintro ⟨values, hnormalized, hvalues, hlength, hvalue⟩
    have h := hstart.foldl hvalues
    rw [List.nil_append] at h
    have hfold : s.toList.foldlM DecodeState.feed .start =
        some (values.foldl DecodeState.push .start) :=
      foldlM_feed.mpr ⟨values, hvalues, hnormalized, rfl⟩
    generalize values.foldl DecodeState.push .start = state at h hfold
    -- the counts leave no choice
    obtain ⟨hsymbols, hbits, htotal, hread⟩ := h
    have hout : state.out.length = 32 := by omega
    have hfour : state.bits = 4 := by omega
    rw [hfour, hvalue] at hread
    have hbytes : state.out = id.toList := by
      have hsame : BigEndian.decode state.out = BigEndian.decode id.toList := by omega
      rw [← BigEndian.encode_decode state.out, ← BigEndian.encode_decode id.toList, hsame, hout,
        id.length_toList]
    have hdecode := crockfordDecode_eq_some.mpr
      ⟨state, hfold, hsymbols.trans hlength, hout, hfour, by omega, hbytes⟩
    simp only [fromBase32, Except.bind_eq_ok, Except.okOr_eq_ok]
    refine ⟨_, hdecode, ?_⟩
    rw [dif_pos id.length_toList, Except.pure_eq_ok]
    exact ByteArr.toList_injective rfl

/-- The text of an id reads back as the id; and a text reads as an id exactly if its symbols,
in upper case and with digits for the letters that look like them, are those of the id's text. -/
theorem base32_faithful :
    (∀ id, fromBase32 (toBase32 id) = .ok id) ∧
      ∀ s id, fromBase32 s = .ok id ↔ normalized s = undashed (toBase32 id) := by
  have hiff (s : String) (id : Hash) :
      fromBase32 s = .ok id ↔ normalized s = undashed (toBase32 id) := by
    obtain ⟨written, htext, hsmall, hlength, hvalue⟩ := undashed_toBase32 id
    rw [fromBase32_eq_ok, htext]
    constructor
    · rintro ⟨values, hnormalized, hvalues, hcount, hread⟩
      rw [hnormalized, Digits.value_injective (by decide) (hcount.trans hlength.symm) hvalues hsmall
        (hread.trans hvalue.symm)]
    · intro hnormalized
      exact ⟨written, hnormalized, hsmall, hlength, hvalue⟩
  refine ⟨fun id => (hiff _ id).mpr ?_, hiff⟩
  -- the symbols of the alphabet stand for themselves
  obtain ⟨written, htext, hsmall, -⟩ := undashed_toBase32 id
  have hfilter : (toBase32 id).toList.filter (fun c => ¬ (c = '-' ∨ isWhitespace c)) =
      (undashed (toBase32 id)).filter fun c => !isWhitespace c := by
    rw [undashed, List.filter_filter]
    congr 1
    funext c
    by_cases hdash : c = '-' <;> simp [hdash]
  rw [normalized, hfilter, htext, List.filter_eq_self.mpr]
  · rw [List.map_map]
    exact List.map_congr_left fun value hvalue => (symbolOf_kept (hsmall value hvalue)).2.2
  · intro c hc
    obtain ⟨value, hvalue, rfl⟩ := List.mem_map.mp hc
    simp [(symbolOf_kept (hsmall value hvalue)).2.1]

end Dante.Identity
