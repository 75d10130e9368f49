import Mathlib.Data.Nat.Digits.Lemmas
import Mathlib.Tactic

/-!
Regrouping of digits through a buffer of bits. Digits of one width are shifted into an accumulator
of 16 bits, and digits of another width are taken from the top of the valid bits. Only the valid
bits count, and what they stand for next to the digits already taken is what has come in.
-/

namespace BitBuffer

/-- Shift `width` bits into the accumulator. -/
def shiftIn (acc width v : Nat) : Nat := acc <<< width % 2 ^ 16 ||| v

theorem shiftIn_mod {bits width v : Nat} (acc : Nat) (hv : v < 2 ^ width)
    (hfits : bits + width ≤ 16) :
    shiftIn acc width v % 2 ^ (bits + width) = acc % 2 ^ bits * 2 ^ width + v := by
  have hpow : 2 ^ 16 = 2 ^ (16 - width) * 2 ^ width := by
    rw [← pow_add, Nat.sub_add_cancel (by omega)]
  -- what is shifted out is not among the valid bits
  have hkept : acc % 2 ^ (16 - width) % 2 ^ bits = acc % 2 ^ bits :=
    Nat.mod_mod_of_dvd acc (pow_dvd_pow 2 (by omega))
  have hlt : acc % 2 ^ bits * 2 ^ width + v < 2 ^ (bits + width) := by
    have hmod : acc % 2 ^ bits < 2 ^ bits := Nat.mod_lt _ (by positivity)
    calc acc % 2 ^ bits * 2 ^ width + v
        < acc % 2 ^ bits * 2 ^ width + 2 ^ width := by omega
      _ = (acc % 2 ^ bits + 1) * 2 ^ width := by ring
      _ ≤ 2 ^ bits * 2 ^ width := Nat.mul_le_mul_right _ hmod
      _ = 2 ^ (bits + width) := (pow_add 2 bits width).symm
  have hshift : shiftIn acc width v = acc % 2 ^ (16 - width) * 2 ^ width + v := by
    rw [shiftIn, Nat.shiftLeft_eq, hpow, Nat.mul_mod_mul_right, ← Nat.shiftLeft_eq,
      ← Nat.shiftLeft_add_eq_or_of_lt hv]
  generalize acc % 2 ^ (16 - width) = kept at hkept hshift
  have hsplit : kept * 2 ^ width + v =
      2 ^ (bits + width) * (kept / 2 ^ bits) + (acc % 2 ^ bits * 2 ^ width + v) := by
    rw [← hkept, pow_add]
    conv_lhs => rw [← Nat.div_add_mod kept (2 ^ bits)]
    ring
  rw [hshift, hsplit, Nat.mul_add_mod, Nat.mod_eq_of_lt hlt]

/-- Taking `width` bits from the top of `low + width` valid ones. -/
theorem mod_eq_take_add (acc low width : Nat) :
    acc % 2 ^ (low + width) = acc >>> low % 2 ^ width * 2 ^ low + acc % 2 ^ low := by
  have htop : acc >>> low % 2 ^ width = acc % 2 ^ (low + width) / 2 ^ low := by
    rw [Nat.shiftRight_eq_div_pow, pow_add, Nat.mod_mul_right_div_self]
  have hrest : acc % 2 ^ (low + width) % 2 ^ low = acc % 2 ^ low :=
    Nat.mod_mod_of_dvd acc (pow_dvd_pow 2 (by omega))
  rw [htop, ← hrest, Nat.div_add_mod']

end BitBuffer

namespace Digits

/-- The number that digits stand for, the first one being the most significant. -/
def value (base : Nat) (digits : List Nat) : Nat := Nat.ofDigits base digits.reverse

theorem value_snoc (base : Nat) (digits : List Nat) (digit : Nat) :
    value base (digits ++ [digit]) = value base digits * base + digit := by
  simp [value, Nat.ofDigits_cons]
  ring

/-- As many digits that stand for the same number are the same digits. -/
theorem value_injective {base : Nat} (hbase : 1 < base) {left right : List Nat}
    (hlen : left.length = right.length) (hleft : ∀ digit ∈ left, digit < base)
    (hright : ∀ digit ∈ right, digit < base) (hvalue : value base left = value base right) :
    left = right := by
  have hreverse : left.reverse = right.reverse := Nat.ofDigits_inj_of_len_eq hbase
    (by simpa using hlen) (by simpa using hleft) (by simpa using hright) hvalue
  simpa using congrArg List.reverse hreverse

end Digits
