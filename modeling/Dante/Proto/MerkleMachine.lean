import Dante.Proto.MerkleInclusion

/-!
The verifier of audit paths on 64-bit sizes. The size is whatever a peer says, so nothing keeps it
below `2 ^ 63`, where `k << 1` loses the top bit of `k` and the loop of `split` goes on with zero.

A run may not end, so the loop has a number of rounds at hand and the recursion a depth; `none` says
that they did not suffice.
-/

namespace Dante.Merkle.Machine

open Crypto

/-- `while k << 1 < n { k <<= 1 }`, for at most `rounds` rounds. -/
def splitLoop (n : UInt64) : Nat → UInt64 → Option UInt64
  | 0, k => if k <<< 1 < n then none else some k
  | rounds + 1, k => if k <<< 1 < n then splitLoop n rounds (k <<< 1) else some k

def split (rounds : Nat) (n : UInt64) : Option UInt64 := splitLoop n rounds 1

section Model

variable (sha256 : Bytes → Hash)

/-- At most `depth` recursive calls, and `rounds` rounds in each call of `split`. -/
def rootFromInclusion (rounds depth : Nat) (index size : UInt64) (leaf : Hash)
    (path : List Hash) : Option (Option Hash) :=
  if size = 0 ∨ index ≥ size then
    some none
  else if size = 1 then
    some (if path.isEmpty then some leaf else none)
  else
    match path.getLast? with
    | none => some none
    | some last =>
      let rest := path.dropLast
      (split rounds size).bind fun k =>
        match depth with
        | 0 => none
        | depth + 1 =>
          if index < k then
            (rootFromInclusion rounds depth index k leaf rest).map
              (·.map (nodeHash sha256 · last))
          else
            (rootFromInclusion rounds depth (index - k) (size - k) leaf rest).map
              (·.map (nodeHash sha256 last ·))
termination_by structural depth

def verifyInclusion (rounds depth : Nat) (index size : UInt64) (leaf : Hash) (path : List Hash)
    (expectedRoot : Hash) : Option Bool :=
  (rootFromInclusion sha256 rounds depth index size leaf path).map (· = some expectedRoot)

end Model

theorem toNat_shiftLeft_one (k : UInt64) : (k <<< 1).toNat = 2 * k.toNat % 2 ^ 64 := by
  rw [UInt64.toNat_shiftLeft]
  simp [Nat.shiftLeft_eq, Nat.mul_comm]

/-- Up to `2 ^ 63` the loop ends at the largest power of two below `n`. -/
theorem splitLoop_eq {n k : UInt64} {i rounds : Nat} (hn : n.toNat ≤ 2 ^ 63)
    (hk : k.toNat = 2 ^ i) (hlow : 2 ^ i < n.toNat) (hrounds : 62 ≤ i + rounds) :
    ∃ found j, splitLoop n rounds k = some found ∧ found.toNat = 2 ^ j ∧ 2 ^ j < n.toNat ∧
      n.toNat ≤ 2 ^ (j + 1) := by
  have hi : i < 63 := (Nat.pow_lt_pow_iff_right (by omega)).mp (Nat.lt_of_lt_of_le hlow hn)
  have hpow : 2 ^ (i + 1) ≤ 2 ^ 63 := Nat.pow_le_pow_right (by omega) hi
  have hshift : (k <<< 1).toNat = 2 ^ (i + 1) := by
    rw [toNat_shiftLeft_one, hk, ← Nat.pow_succ', Nat.mod_eq_of_lt (by omega)]
  induction rounds generalizing i k with
  | zero =>
    -- no round is left at the exponent 62, and none is needed
    obtain rfl : i = 62 := by omega
    have hstop : ¬ k <<< 1 < n := by
      rw [UInt64.lt_iff_toNat_lt, hshift]
      omega
    exact ⟨k, 62, by simp [splitLoop, hstop], hk, hlow, by omega⟩
  | succ rounds ih =>
    by_cases hmore : k <<< 1 < n
    · rw [splitLoop, if_pos hmore]
      rw [UInt64.lt_iff_toNat_lt, hshift] at hmore
      have hi' : i + 1 < 63 :=
        (Nat.pow_lt_pow_iff_right (by omega)).mp (Nat.lt_of_lt_of_le hmore hn)
      have hpow' : 2 ^ (i + 2) ≤ 2 ^ 63 := Nat.pow_le_pow_right (by omega) hi'
      refine ih hshift hmore (by omega) hi' hpow' ?_
      rw [toNat_shiftLeft_one, hshift, ← Nat.pow_succ', Nat.mod_eq_of_lt (by omega)]
    · refine ⟨k, i, by rw [splitLoop, if_neg hmore], hk, hlow, ?_⟩
      rw [UInt64.lt_iff_toNat_lt, hshift] at hmore
      omega

theorem split_eq {n : UInt64} {rounds : Nat} (hlow : 2 ≤ n.toNat) (hn : n.toNat ≤ 2 ^ 63)
    (hrounds : 62 ≤ rounds) :
    ∃ k, split rounds n = some k ∧ k.toNat = Merkle.split n.toNat := by
  obtain ⟨k, j, hloop, hk, hbelow, habove⟩ :=
    splitLoop_eq (k := 1) (i := 0) hn rfl (by omega) (show 62 ≤ 0 + rounds by omega)
  refine ⟨k, hloop, ?_⟩
  rw [hk, split_eq_splitPoint hlow, TreeFold.splitPoint_eq hbelow habove]

/-- What the doubling loop can hold: a power of two, or zero once the top bit is lost. -/
def Doubled (k : UInt64) : Prop := k = 0 ∨ ∃ i, k.toNat = 2 ^ i

theorem Doubled.shiftLeft_one {k : UInt64} (h : Doubled k) :
    Doubled (k <<< 1) ∧ (k <<< 1).toNat ≤ 2 ^ 63 := by
  rcases h with rfl | ⟨i, hi⟩
  · exact ⟨Or.inl (by decide), by decide⟩
  · have hlt : 2 ^ i < 2 ^ 64 := hi ▸ k.toNat_lt
    have hle : i < 64 := (Nat.pow_lt_pow_iff_right (by omega)).mp hlt
    rcases Nat.lt_or_ge i 63 with hsmall | hlast
    · have hpow : 2 ^ (i + 1) ≤ 2 ^ 63 := Nat.pow_le_pow_right (by omega) hsmall
      have hshift : (k <<< 1).toNat = 2 ^ (i + 1) := by
        rw [toNat_shiftLeft_one, hi, ← Nat.pow_succ', Nat.mod_eq_of_lt (by omega)]
      exact ⟨Or.inr ⟨i + 1, hshift⟩, hshift ▸ hpow⟩
    · obtain rfl : i = 63 := by omega
      have hzero : (k <<< 1).toNat = 0 := by
        rw [toNat_shiftLeft_one, hi, ← Nat.pow_succ', Nat.mod_self]
      exact ⟨Or.inl (UInt64.toNat_inj.mp hzero), by omega⟩

/-- Above `2 ^ 63` no number of rounds is enough. -/
theorem splitLoop_eq_none {n k : UInt64} (rounds : Nat) (hn : 2 ^ 63 < n.toNat)
    (hk : Doubled k) : splitLoop n rounds k = none := by
  have hmore : k <<< 1 < n := by
    have hle := hk.shiftLeft_one.2
    rw [UInt64.lt_iff_toNat_lt]
    omega
  induction rounds generalizing k with
  | zero => rw [splitLoop, if_pos hmore]
  | succ rounds ih =>
    rw [splitLoop, if_pos hmore]
    have hnext := hk.shiftLeft_one.1
    refine ih hnext ?_
    have hle := hnext.shiftLeft_one.2
    rw [UInt64.lt_iff_toNat_lt]
    omega

theorem split_eq_none {n : UInt64} (rounds : Nat) (hn : 2 ^ 63 < n.toNat) :
    split rounds n = none :=
  splitLoop_eq_none rounds hn (Or.inr ⟨0, rfl⟩)

section Ends

variable {sha256 : Bytes → Hash} {rounds depth : Nat} {index size : UInt64} {leaf : Hash}
  {path : List Hash}

/-- The inputs on which the verifier ends: it never splits a size above `2 ^ 63`. -/
def Bounded (index size : UInt64) (path : List Hash) : Prop :=
  size.toNat ≤ 2 ^ 63 ∨ size ≤ index ∨ path = []

theorem rootFromInclusion_early (h : size ≤ index ∨ size = 1 ∨ path = []) :
    rootFromInclusion sha256 rounds depth index size leaf path =
      some (Merkle.rootFromInclusion sha256 index.toNat size.toNat leaf path) := by
  rw [rootFromInclusion.eq_def]
  by_cases hrange : size ≤ index
  · rw [Merkle.rootFromInclusion_out_of_range (UInt64.le_iff_toNat_le.mp hrange)]
    exact if_pos (Or.inr hrange)
  have hindex : index.toNat < size.toNat := UInt64.lt_iff_toNat_lt.mp (UInt64.not_le.mp hrange)
  have hzero : size ≠ 0 := by
    rintro rfl
    exact absurd hindex (Nat.not_lt_zero _)
  rw [if_neg (not_or.mpr ⟨hzero, hrange⟩)]
  by_cases hone : size = 1
  · subst hone
    rw [Merkle.rootFromInclusion, dif_neg (by simpa using hindex),
      dif_pos (show (1 : UInt64).toNat = 1 from rfl), if_pos rfl]
  obtain rfl := (h.resolve_left hrange).resolve_left hone
  rw [Merkle.rootFromInclusion_nil fun heq => hone (UInt64.toNat_inj.mp heq), if_neg hone]
  rfl

/-- A call that comes to the split: the size is at least two, and the path has a last element. -/
theorem rootFromInclusion_concat (hsize : 2 ≤ size.toNat) (hindex : index < size) {last : Hash} :
    rootFromInclusion sha256 rounds depth index size leaf (path ++ [last]) =
      (split rounds size).bind fun k =>
        match depth with
        | 0 => none
        | depth + 1 =>
          if index < k then
            (rootFromInclusion sha256 rounds depth index k leaf path).map
              (·.map (nodeHash sha256 · last))
          else
            (rootFromInclusion sha256 rounds depth (index - k) (size - k) leaf path).map
              (·.map (nodeHash sha256 last ·)) := by
  have hzero : size ≠ 0 := by
    rintro rfl
    exact absurd hsize (by decide)
  have hone : size ≠ 1 := by
    rintro rfl
    exact absurd hsize (by decide)
  have hrange : ¬ (size = 0 ∨ index ≥ size) := not_or.mpr ⟨hzero, UInt64.not_le.mpr hindex⟩
  rw [rootFromInclusion.eq_def]
  simp only [if_neg hrange, if_neg hone, List.getLast?_concat, List.dropLast_concat]

/-- Up to `2 ^ 63` the length of the path and 62 rounds suffice, and the answer is that of
the verifier on natural numbers. -/
theorem rootFromInclusion_eq (hsize : size.toNat ≤ 2 ^ 63) (hrounds : 62 ≤ rounds)
    (hdepth : path.length ≤ depth) :
    rootFromInclusion sha256 rounds depth index size leaf path =
      some (Merkle.rootFromInclusion sha256 index.toNat size.toNat leaf path) := by
  induction depth generalizing index size path with
  | zero =>
    have hpath := List.length_eq_zero_iff.mp (Nat.le_zero.mp hdepth)
    exact rootFromInclusion_early (Or.inr (Or.inr hpath))
  | succ depth ih =>
    by_cases hearly : size ≤ index ∨ size = 1 ∨ path = []
    · exact rootFromInclusion_early hearly
    simp only [not_or, UInt64.not_le] at hearly
    obtain ⟨hindex, hone, hpath⟩ := hearly
    obtain ⟨rest, last, rfl⟩ := (List.eq_nil_or_concat' path).resolve_left hpath
    have hone' : size.toNat ≠ 1 := fun heq => hone (UInt64.toNat_inj.mp heq)
    have hindex' : index.toNat < size.toNat := UInt64.lt_iff_toNat_lt.mp hindex
    have htwo : 2 ≤ size.toNat := by omega
    have hrest : rest.length ≤ depth := by simpa using hdepth
    obtain ⟨k, hsplit, hk⟩ := split_eq htwo hsize hrounds
    have hlt := Merkle.split_lt htwo
    rw [rootFromInclusion_concat htwo hindex, hsplit, Option.bind_some]
    dsimp only
    by_cases hleft : index < k
    · have hleft' : index.toNat < Merkle.split size.toNat :=
        hk ▸ UInt64.lt_iff_toNat_lt.mp hleft
      rw [if_pos hleft, ih (by omega) hrest, rootFromInclusion_concat_left htwo hleft', hk]
      rfl
    · have hright : k ≤ index := UInt64.not_lt.mp hleft
      have hright' : Merkle.split size.toNat ≤ index.toNat :=
        hk ▸ UInt64.le_iff_toNat_le.mp hright
      have hsize' : (size - k).toNat = size.toNat - Merkle.split size.toNat := by
        rw [UInt64.toNat_sub_of_le _ _ (UInt64.le_iff_toNat_le.mpr (by omega)), hk]
      rw [if_neg hleft, ih (by omega) hrest, rootFromInclusion_concat_right htwo hindex' hright',
        UInt64.toNat_sub_of_le _ _ hright, hsize', hk]
      rfl

theorem rootFromInclusion_eq_none (h : ¬ Bounded index size path) :
    rootFromInclusion sha256 rounds depth index size leaf path = none := by
  simp only [Bounded, not_or, Nat.not_le, UInt64.not_le] at h
  obtain ⟨hsize, hindex, hpath⟩ := h
  obtain ⟨rest, last, rfl⟩ := (List.eq_nil_or_concat' path).resolve_left hpath
  rw [rootFromInclusion_concat (by omega) hindex, split_eq_none rounds hsize]
  rfl

end Ends

/-- The verifier ends, within the length of the path and 64 rounds for each split, exactly
if it does not have to split a size above `2 ^ 63`; otherwise it never does. -/
theorem verifyInclusion_ends_iff (sha256 : Bytes → Hash) (index size : UInt64) (leaf : Hash)
    (path : List Hash) (expectedRoot : Hash) :
    ((verifyInclusion sha256 64 path.length index size leaf path expectedRoot).isSome ↔
        Bounded index size path) ∧
      ((∃ rounds depth,
          (verifyInclusion sha256 rounds depth index size leaf path expectedRoot).isSome) ↔
        Bounded index size path) := by
  have hends : Bounded index size path →
      (verifyInclusion sha256 64 path.length index size leaf path expectedRoot).isSome := by
    intro hbounded
    have hvalue : rootFromInclusion sha256 64 path.length index size leaf path =
        some (Merkle.rootFromInclusion sha256 index.toNat size.toNat leaf path) := by
      rcases hbounded with hsize | hrange | hpath
      · exact rootFromInclusion_eq hsize (by omega) (le_refl _)
      · exact rootFromInclusion_early (Or.inl hrange)
      · exact rootFromInclusion_early (Or.inr (Or.inr hpath))
    rw [verifyInclusion, hvalue]
    rfl
  have hnever : (∃ rounds depth,
      (verifyInclusion sha256 rounds depth index size leaf path expectedRoot).isSome) →
        Bounded index size path := by
    rintro ⟨rounds, depth, hsome⟩
    by_contra hunbounded
    rw [verifyInclusion, rootFromInclusion_eq_none hunbounded] at hsome
    cases hsome
  exact ⟨⟨fun hsome => hnever ⟨64, path.length, hsome⟩, hends⟩,
    ⟨hnever, fun hbounded => ⟨64, path.length, hends hbounded⟩⟩⟩

/-- A peer that claims a tree of `2 ^ 64 - 1` leaves and sends one hash as the path keeps the
verifier busy for ever. -/
theorem huge_size_never_ends :
    ¬ ∃ rounds depth, (verifyInclusion polynomialHash rounds depth 0 0xFFFFFFFFFFFFFFFF
      (.fill 32 0) [.fill 32 0] (.fill 32 0)).isSome := by
  rintro ⟨rounds, depth, hsome⟩
  have hunbounded : ¬ Bounded 0 0xFFFFFFFFFFFFFFFF [(.fill 32 0 : Hash)] := by
    rintro (hsize | hrange | hpath)
    · exact absurd hsize (by decide)
    · exact absurd hrange (by decide)
    · cases hpath
  rw [verifyInclusion, rootFromInclusion_eq_none hunbounded] at hsome
  cases hsome

end Dante.Merkle.Machine
