import Mathlib.Tactic

/-!
Texts that are cut at byte offsets. A text is a list of characters, an offset counts the bytes of
its UTF-8 form, and the text can only be cut where a character begins or the text ends. Right
before and right after a byte below 128 that is so: no other character has such a byte in it.
-/

namespace Utf8

def encode (text : List Char) : List UInt8 := text.flatMap String.utf8EncodeChar

/-- A character begins at the offset, or the text ends there. -/
def IsBoundary (text : List Char) (offset : Nat) : Prop :=
  ∃ front back, text = front ++ back ∧ (encode front).length = offset

/-- What stands before and behind an offset, if it is a boundary. -/
def cut : List Char → Nat → Option (List Char × List Char)
  | text, 0 => some ([], text)
  | [], _ + 1 => none
  | c :: rest, offset + 1 =>
    if c.utf8Size ≤ offset + 1 then
      (cut rest (offset + 1 - c.utf8Size)).map fun parts => (c :: parts.1, parts.2)
    else none

def sliceFrom (text : List Char) (start : Nat) : Option (List Char) := (cut text start).map Prod.snd

def slice (text : List Char) (start stop : Nat) : Option (List Char) :=
  if start ≤ stop then (sliceFrom text start).bind fun rest => (cut rest (stop - start)).map Prod.fst
  else none

variable {text : List Char} {offset start stop : Nat}

theorem encode_append (front back : List Char) :
    encode (front ++ back) = encode front ++ encode back := List.flatMap_append

theorem length_encode_cons (c : Char) (rest : List Char) :
    (encode (c :: rest)).length = c.utf8Size + (encode rest).length := by
  rw [encode, List.flatMap_cons, List.length_append, String.length_utf8EncodeChar]
  rfl

theorem cut_append (front back : List Char) :
    cut (front ++ back) (encode front).length = some (front, back) := by
  induction front with
  | nil => cases back <;> rfl
  | cons c rest ih =>
    obtain ⟨size, hsize⟩ := Nat.exists_eq_succ_of_ne_zero c.utf8Size_pos.ne'
    have hlen : (encode (c :: rest)).length = size + (encode rest).length + 1 := by
      rw [length_encode_cons, hsize]
      omega
    rw [hlen, List.cons_append, cut, if_pos (by omega), hsize]
    have hrest : size + (encode rest).length + 1 - (size + 1) = (encode rest).length := by omega
    rw [Nat.succ_eq_add_one, hrest, ih]
    rfl

theorem sliceFrom_append (front back : List Char) :
    sliceFrom (front ++ back) (encode front).length = some back := by
  rw [sliceFrom, cut_append]
  rfl

theorem slice_of_isBoundary (hstart : IsBoundary text start) (hstop : IsBoundary text stop)
    (hle : start ≤ stop) : ∃ part, slice text start stop = some part := by
  obtain ⟨front, back, rfl, rfl⟩ := hstart
  obtain ⟨front', back', htext, rfl⟩ := hstop
  rw [slice, if_pos hle, sliceFrom_append, Option.bind_some]
  rcases List.append_eq_append_iff.mp htext with ⟨part, rfl, rfl⟩ | ⟨part, rfl, rfl⟩
  · refine ⟨part, ?_⟩
    rw [encode_append, List.length_append, Nat.add_sub_cancel_left, cut_append]
    rfl
  · rw [Nat.sub_eq_zero_of_le (by rw [encode_append, List.length_append]; omega)]
    exact ⟨[], by cases back <;> rfl⟩

theorem isBoundary_zero (text : List Char) : IsBoundary text 0 := ⟨[], text, rfl, rfl⟩

theorem isBoundary_length (text : List Char) : IsBoundary text (encode text).length :=
  ⟨text, [], (List.append_nil text).symm, rfl⟩

theorem IsBoundary.cons (h : IsBoundary text offset) (c : Char) :
    IsBoundary (c :: text) (c.utf8Size + offset) := by
  obtain ⟨front, back, rfl, rfl⟩ := h
  exact ⟨c :: front, back, rfl, length_encode_cons c front⟩

/-- A character with a byte below 128 has no other byte. -/
theorem utf8EncodeChar_eq_of_mem {c : Char} {byte : UInt8} (hmem : byte ∈ String.utf8EncodeChar c)
    (hascii : byte < 128) : String.utf8EncodeChar c = [byte] := by
  have htail (n : Nat) (hlow : 128 ≤ n) (hhigh : n < 256) : byte ≠ UInt8.ofNat n := by
    rintro rfl
    rw [UInt8.lt_iff_toNat_lt, UInt8.toNat_ofNat_of_lt' hhigh] at hascii
    exact absurd hascii (Nat.not_lt.mpr hlow)
  unfold String.utf8EncodeChar at hmem ⊢
  dsimp only at hmem ⊢
  split at hmem
  · rename_i hsmall
    rw [if_pos hsmall, List.mem_singleton.mp hmem]
  · -- the bytes of a longer character all have the highest bit
    exfalso
    split at hmem
    · simp only [List.mem_cons, List.not_mem_nil, or_false] at hmem
      rcases hmem with h | h <;> exact htail _ (by omega) (by omega) h
    · split at hmem
      · simp only [List.mem_cons, List.not_mem_nil, or_false] at hmem
        rcases hmem with h | h | h <;> exact htail _ (by omega) (by omega) h
      · simp only [List.mem_cons, List.not_mem_nil, or_false] at hmem
        rcases hmem with h | h | h | h <;> exact htail _ (by omega) (by omega) h

theorem isBoundary_of_ascii {byte : UInt8} (hbyte : (encode text)[offset]? = some byte)
    (hascii : byte < 128) : IsBoundary text offset ∧ IsBoundary text (offset + 1) := by
  induction text generalizing offset with
  | nil => cases hbyte
  | cons c rest ih =>
    rw [encode, List.flatMap_cons] at hbyte
    by_cases hfirst : offset < (String.utf8EncodeChar c).length
    · rw [List.getElem?_append_left hfirst] at hbyte
      have hsingle := utf8EncodeChar_eq_of_mem (List.mem_of_getElem? hbyte) hascii
      have hsize : c.utf8Size = 1 := by rw [← String.length_utf8EncodeChar, hsingle]; rfl
      obtain rfl : offset = 0 := by
        rw [hsingle] at hfirst
        exact Nat.lt_one_iff.mp hfirst
      have hnext := (isBoundary_zero rest).cons c
      rw [hsize] at hnext
      exact ⟨isBoundary_zero _, hnext⟩
    · rw [List.getElem?_append_right (Nat.not_lt.mp hfirst), String.length_utf8EncodeChar] at hbyte
      rw [String.length_utf8EncodeChar] at hfirst
      obtain ⟨hbefore, hafter⟩ := ih hbyte
      have hoffset : c.utf8Size + (offset - c.utf8Size) = offset := by omega
      have hnext : c.utf8Size + (offset - c.utf8Size + 1) = offset + 1 := by omega
      exact ⟨hoffset ▸ hbefore.cons c, hnext ▸ hafter.cons c⟩

theorem length_encode_map {f : Char → Char} (hsize : ∀ c, (f c).utf8Size = c.utf8Size)
    (text : List Char) : (encode (text.map f)).length = (encode text).length := by
  induction text with
  | nil => rfl
  | cons c rest ih => rw [List.map_cons, length_encode_cons, length_encode_cons, hsize, ih]

/-- Characters can be exchanged for others of the same size. -/
theorem isBoundary_of_map {f : Char → Char} (hsize : ∀ c, (f c).utf8Size = c.utf8Size)
    (h : IsBoundary (text.map f) offset) : IsBoundary text offset := by
  obtain ⟨front, back, hmap, rfl⟩ := h
  obtain ⟨front, back, rfl, rfl, rfl⟩ := List.map_eq_append_iff.mp hmap
  exact ⟨front, back, rfl, (length_encode_map hsize front).symm⟩

theorem utf8Size_toLower (c : Char) : c.toLower.utf8Size = c.utf8Size := by
  unfold Char.toLower
  split
  · rename_i hupper
    simp only [ge_iff_le, UInt32.le_iff_toNat_le] at hupper
    change 65 ≤ c.val.toNat ∧ c.val.toNat ≤ 90 at hupper
    have hsmall : c.utf8Size = 1 := by
      rw [Char.utf8Size_eq_one_iff, UInt32.le_iff_toNat_le]
      exact hupper.2.trans (by decide)
    rw [hsmall, Char.utf8Size_eq_one_iff, UInt32.le_iff_toNat_le]
    change (c.val.toNat + 32) % 2 ^ 32 ≤ 127
    omega
  · rfl

end Utf8
