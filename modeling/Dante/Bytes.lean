import Mathlib.Data.Vector.Basic
import Dante.Library.BigEndian

/-!
Byte strings and fixed-length byte arrays. A `Vec<u8>` or `&[u8]` is a list of
bytes; an array `[u8; n]` is a list of bytes that carries its length.
-/

namespace Dante

abbrev Bytes := List UInt8

/-- `[u8; n]`. -/
abbrev ByteArr (n : Nat) := List.Vector UInt8 n

/-- `[u8; 32]` used as a public key, a secret key or a chain key. -/
abbrev Key := ByteArr 32

/-- A 32-byte hash: leaf hash, node hash, tree root or record id. -/
abbrev Hash := ByteArr 32

/-- An Ed25519 signature, `[u8; SIG_LEN]`. -/
abbrev Signature := ByteArr 64

def ByteArr.ofList {n : Nat} (bytes : Bytes) (hlen : bytes.length = n) : ByteArr n :=
  ⟨bytes, hlen⟩

/-- `[byte; n]`. -/
def ByteArr.fill (n : Nat) (byte : UInt8) : ByteArr n := List.Vector.replicate n byte

@[simp]
theorem ByteArr.length_toList {n : Nat} (array : ByteArr n) : array.toList.length = n :=
  array.toList_length

@[simp]
theorem ByteArr.toList_ofList {n : Nat} (bytes : Bytes) (hlen : bytes.length = n) :
    (ByteArr.ofList bytes hlen).toList = bytes := rfl

theorem ByteArr.toList_injective {n : Nat} {left right : ByteArr n}
    (heq : left.toList = right.toList) : left = right :=
  List.Vector.eq left right heq

/-- Two arrays of one length written one after the other can be read back. -/
theorem ByteArr.append_injective {n : Nat} {left right : ByteArr n} {xs ys : Bytes}
    (heq : left.toList ++ xs = right.toList ++ ys) : left = right ∧ xs = ys := by
  have hlen : left.toList.length = right.toList.length := by simp
  obtain ⟨harray, hrest⟩ := List.append_inj heq hlen
  exact ⟨ByteArr.toList_injective harray, hrest⟩

/-- `a.saturating_add(b)` on `u64`. -/
def saturatingAdd (a b : UInt64) : UInt64 :=
  if a.toNat + b.toNat < 2 ^ 64 then a + b else 0xFFFFFFFFFFFFFFFF

/-- `a.saturating_sub(b)` on `u64`. -/
def saturatingSub (a b : UInt64) : UInt64 :=
  if b ≤ a then a - b else 0

@[grind =]
theorem max_u64 (a b : UInt64) : max a b = if a ≤ b then b else a := rfl

theorem saturatingAdd_toNat (a b : UInt64) :
    (saturatingAdd a b).toNat = min (a.toNat + b.toNat) (2 ^ 64 - 1) := by
  unfold saturatingAdd
  split
  · rw [UInt64.toNat_add]
    omega
  · have hmax : (0xFFFFFFFFFFFFFFFF : UInt64).toNat = 2 ^ 64 - 1 := by decide
    rw [hmax]
    omega

theorem saturatingSub_toNat (a b : UInt64) :
    (saturatingSub a b).toNat = a.toNat - b.toNat := by
  unfold saturatingSub
  split
  · rename_i hle
    exact UInt64.toNat_sub_of_le a b hle
  · rename_i hgt
    rw [UInt64.le_iff_toNat_le] at hgt
    rw [UInt64.toNat_zero]
    omega

end Dante
