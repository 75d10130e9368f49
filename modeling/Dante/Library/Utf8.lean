import Mathlib.Tactic

/-!
The bytes of a string as a list. A string is its UTF-8 bytes with the proof that they are
valid, so that reading bytes as a string is undone by writing them.
-/

theorem ByteArray.toList_loop (bs : ByteArray) (i : Nat) (acc : List UInt8) :
    ByteArray.toList.loop bs i acc = acc.reverse ++ bs.data.toList.drop i := by
  fun_induction ByteArray.toList.loop bs i acc with
  | case1 i acc hlt ih =>
    have hsize : i < bs.data.toList.length := hlt
    have hget : bs.get! i = bs.data.toList[i] := by
      rw [ByteArray.get!, getElem!_pos bs.data i hlt]
      rfl
    rw [ih, List.reverse_cons, List.append_assoc, List.drop_eq_getElem_cons hsize, hget]
    rfl
  | case2 i acc hge =>
    have hsize : bs.data.toList.length ≤ i := Nat.le_of_not_lt hge
    rw [List.drop_eq_nil_of_le hsize, List.append_nil]

theorem ByteArray.toList_eq (bs : ByteArray) : bs.toList = bs.data.toList := by
  rw [ByteArray.toList, toList_loop]
  rfl

namespace String

theorem length_toUTF8 (s : String) : s.toUTF8.toList.length = s.utf8ByteSize := by
  rw [ByteArray.toList_eq]
  rfl

theorem utf8ByteSize_ofList_eq_sum (chars : List Char) :
    (String.ofList chars).utf8ByteSize = (chars.map Char.utf8Size).sum := by
  induction chars with
  | nil => rfl
  | cons c rest ih => simp [String.ofList_cons, ih]

theorem utf8ByteSize_join (parts : List String) :
    (String.join parts).utf8ByteSize = (parts.map String.utf8ByteSize).sum := by
  induction parts with
  | nil => rfl
  | cons part rest ih => rw [String.join_cons, String.utf8ByteSize_append, ih]; rfl

theorem fromUTF8?_eq_some {bytes : List UInt8} {s : String} :
    String.fromUTF8? ⟨bytes.toArray⟩ = some s ↔ s.toUTF8.toList = bytes := by
  rw [toUTF8, ByteArray.toList_eq, fromUTF8?]
  constructor
  · intro h
    split at h
    · cases h
      rfl
    · cases h
  · rintro rfl
    have hbytes : ByteArray.mk s.toByteArray.data.toList.toArray = s.toByteArray := by simp
    rw [hbytes, dif_pos s.isValidUTF8]
    rfl

end String
