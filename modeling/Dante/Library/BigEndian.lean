import Mathlib.Tactic

/-!
Fixed-width big-endian bytes of a natural number. Encoding keeps the low
`w` bytes, so it is exact below `256 ^ w`; decoding accepts every byte list.
-/

namespace BigEndian

/-- The low `w` bytes of `n`, most significant first. -/
def encode : Nat → Nat → List UInt8
  | 0, _ => []
  | w + 1, n => encode w (n / 256) ++ [UInt8.ofNat n]

def decode (bytes : List UInt8) : Nat :=
  bytes.foldl (fun acc byte => acc * 256 + byte.toNat) 0

@[simp]
theorem encode_length (w n : Nat) : (encode w n).length = w := by
  induction w generalizing n with
  | zero => rfl
  | succ w ih => simp [encode, ih]

theorem decode_snoc (bytes : List UInt8) (byte : UInt8) :
    decode (bytes ++ [byte]) = decode bytes * 256 + byte.toNat := by
  simp [decode]

theorem decode_lt (bytes : List UInt8) : decode bytes < 256 ^ bytes.length := by
  induction bytes using List.reverseRecOn with
  | nil => simp [decode]
  | append_singleton bytes byte ih =>
    have hbyte : byte.toNat < 256 := byte.toNat_lt
    rw [decode_snoc, List.length_append, List.length_singleton, Nat.pow_succ]
    omega

theorem decode_encode (w n : Nat) : decode (encode w n) = n % 256 ^ w := by
  induction w generalizing n with
  | zero => simp [encode, decode, Nat.mod_one]
  | succ w ih =>
    have hsplit : n % 256 ^ (w + 1) = n % 256 + 256 * (n / 256 % 256 ^ w) := by
      rw [Nat.pow_succ', Nat.mod_mul]
    rw [encode, decode_snoc, ih, UInt8.toNat_ofNat', hsplit]
    omega

theorem decode_encode_of_lt {w n : Nat} (hn : n < 256 ^ w) : decode (encode w n) = n := by
  rw [decode_encode, Nat.mod_eq_of_lt hn]

theorem encode_decode (bytes : List UInt8) : encode bytes.length (decode bytes) = bytes := by
  induction bytes using List.reverseRecOn with
  | nil => rfl
  | append_singleton bytes byte ih =>
    have hbyte : byte.toNat < 256 := byte.toNat_lt
    have hdiv : (decode bytes * 256 + byte.toNat) / 256 = decode bytes := by omega
    have hlow : UInt8.ofNat (decode bytes * 256 + byte.toNat) = byte := by
      apply UInt8.toNat_inj.mp
      rw [UInt8.toNat_ofNat']
      omega
    rw [List.length_append, List.length_singleton, encode, decode_snoc, hdiv, ih, hlow]

theorem encode_injective {w m n : Nat} (hm : m < 256 ^ w) (hn : n < 256 ^ w)
    (heq : encode w m = encode w n) : m = n := by
  rw [← decode_encode_of_lt hm, heq, decode_encode_of_lt hn]

end BigEndian
