import Dante.Proto.Merkle

/-!
The verifier's loop in the level view. `a` and `b` are the indices of the last old and the last new
leaf. They are only ever shifted together, so a walk state is a level: it stands at the block of
`2 ^ i` leaves that holds the last old leaf.

A round joins both hashes with the block on the left (`fnode` odd), or the new hash with the block
on the right (only the old tree ends here). The inner loop skips the levels at which both end.
-/

namespace Dante.Merkle

open Crypto TreeFold

structure AtLevel (a b i : Nat) (w : Walk) : Prop where
  fnode : w.fnode = a >>> i
  snode : w.snode = b >>> i

/-- From level `i` up to level `j` both trees end with a left child. -/
def SkipLevels (a b i j : Nat) : Prop :=
  ∀ l, i ≤ l → l < j → (a >>> l) % 2 = 0 ∧ a >>> l = b >>> l

/-- A level with a nonzero node has an odd node at or above it. -/
theorem exists_odd_level (a i : Nat) (hne : a >>> i ≠ 0) :
    ∃ j, i ≤ j ∧ (a >>> j) % 2 = 1 ∧ ∀ l, i ≤ l → l < j → (a >>> l) % 2 = 0 := by
  induction hn : a >>> i using Nat.strong_induction_on generalizing i with
  | _ n ih =>
    by_cases hodd : (a >>> i) % 2 = 1
    · exact ⟨i, le_rfl, hodd, by omega⟩
    · have hnext : a >>> (i + 1) = (a >>> i) / 2 := Nat.shiftRight_succ a i
      obtain ⟨j, hij, hj, hbelow⟩ := ih (a >>> (i + 1)) (by omega) (i + 1) (by omega) rfl
      refine ⟨j, by omega, hj, ?_⟩
      intro l hl hlj
      by_cases hli : l = i
      · rw [hli]
        omega
      · exact hbelow l (by omega) hlj

/-- A level below the new root is one of the two kinds of round. -/
theorem level_cases (a b i : Nat) (hb : b >>> i ≠ 0) :
    ((a >>> i) % 2 = 0 ∧ a >>> i ≠ b >>> i) ∨
      ∃ j, i ≤ j ∧ SkipLevels a b i j ∧ (a >>> j) % 2 = 1 := by
  by_cases hodd : (a >>> i) % 2 = 1
  · exact Or.inr ⟨i, le_rfl, fun l hl hlj => by omega, hodd⟩
  · by_cases heq : a >>> i = b >>> i
    · obtain ⟨j, hij, hj, hbelow⟩ := exists_odd_level a i (by omega)
      refine Or.inr ⟨j, hij, ?_, hj⟩
      intro l hl hlj
      refine ⟨hbelow l hl hlj, ?_⟩
      -- equal nodes stay equal above
      obtain ⟨d, rfl⟩ := Nat.exists_eq_add_of_le hl
      rw [Nat.shiftRight_add, Nat.shiftRight_add, heq]
    · exact Or.inl ⟨by omega, heq⟩

section Rounds

variable (sha256 : Bytes → Hash)

/-- `skipOdd` climbs to the first level with an even old node. -/
theorem skipOdd_eq (a b i : Nat) (heven : (a >>> i) % 2 = 0)
    (hodd : ∀ l, l < i → (a >>> l) % 2 = 1) : skipOdd a b = (a >>> i, b >>> i) := by
  induction i generalizing a b with
  | zero =>
    rw [skipOdd, dif_neg]
    · rfl
    · rw [Nat.and_one_is_mod]
      simp only [Nat.shiftRight_zero] at heven
      omega
  | succ i ih =>
    have hfirst : a % 2 = 1 := hodd 0 (by omega)
    have hstep (x l : Nat) : x >>> 1 >>> l = x >>> (l + 1) := by
      rw [← Nat.shiftRight_add, Nat.add_comm]
    rw [skipOdd, dif_pos (by rw [Nat.and_one_is_mod]; exact hfirst),
      ih (a >>> 1) (b >>> 1) (by rw [hstep]; exact heven)
        (fun l hl => by rw [hstep]; exact hodd (l + 1) (by omega)), hstep, hstep]

/-- The inner loop climbs to the next odd old node. -/
theorem climb_eq (a b i j : Nat) (hij : i < j) (hodd : (a >>> j) % 2 = 1)
    (heven : ∀ l, i < l → l < j → (a >>> l) % 2 = 0) :
    climb (a >>> i) (b >>> i) = (a >>> j, b >>> j) := by
  induction hd : j - i using Nat.strong_induction_on generalizing i with
  | _ d ih =>
    have hstep (x : Nat) : x >>> i >>> 1 = x >>> (i + 1) := by
      rw [← Nat.shiftRight_add]
    rw [climb]
    simp only [hstep, Nat.and_one_is_mod]
    by_cases hnext : i + 1 = j
    · rw [dif_pos (Or.inl (hnext ▸ hodd)), hnext]
    · have hzero : a >>> (i + 1) ≠ 0 := by
        intro hz
        obtain ⟨e, rfl⟩ := Nat.exists_eq_add_of_le (show i + 1 ≤ j by omega)
        rw [Nat.shiftRight_add, hz, Nat.zero_shiftRight] at hodd
        omega
      have heven' := heven (i + 1) (by omega) (by omega)
      rw [dif_neg (by omega)]
      exact ih (j - (i + 1)) (by omega) (i + 1) (by omega)
        (fun l hl hlj => heven l (by omega) hlj) rfl

/-- The round that joins both hashes with the left sibling at level `j`. -/
theorem verifyStep_join {a b i j : Nat} {w : Walk} (hw : AtLevel a b i w)
    (hb : b >>> i ≠ 0) (hij : i ≤ j) (hskip : SkipLevels a b i j)
    (hodd : (a >>> j) % 2 = 1) (c : Hash) :
    verifyStep sha256 w c = some
      { fnode := a >>> (j + 1), snode := b >>> (j + 1),
        fr := nodeHash sha256 c w.fr, sr := nodeHash sha256 c w.sr } := by
  have hnode (x l : Nat) : x >>> l >>> 1 = x >>> (l + 1) := (Nat.shiftRight_add x l 1).symm
  unfold verifyStep
  rw [if_neg (by rw [hw.snode]; exact hb), hw.fnode, hw.snode, Nat.and_one_is_mod]
  rcases Nat.eq_or_lt_of_le hij with heq | hlt
  · subst heq
    simp [hodd, hnode]
  · obtain ⟨heven, heq⟩ := hskip i le_rfl hlt
    have hclimb := climb_eq a b i j hlt hodd (fun l hl hlj => (hskip l hl.le hlj).1)
    rw [heq] at heven hclimb
    simp only [heq, heven, hclimb, or_true, if_true, hnode]

theorem verifyStep_extend {a b i : Nat} {w : Walk} (hw : AtLevel a b i w)
    (hb : b >>> i ≠ 0) (heven : (a >>> i) % 2 = 0) (hne : a >>> i ≠ b >>> i) (c : Hash) :
    verifyStep sha256 w c = some
      { fnode := a >>> (i + 1), snode := b >>> (i + 1),
        fr := w.fr, sr := nodeHash sha256 w.sr c } := by
  have hnode (x l : Nat) : x >>> l >>> 1 = x >>> (l + 1) := (Nat.shiftRight_add x l 1).symm
  unfold verifyStep
  rw [if_neg (by rw [hw.snode]; exact hb), hw.fnode, hw.snode, Nat.and_one_is_mod]
  simp [heven, hne, hnode]

/-- Everything a round can do, from a state that stands at level `i`. -/
theorem verifyStep_cases {a b i : Nat} {w w' : Walk} {c : Hash} (hw : AtLevel a b i w)
    (hstep : verifyStep sha256 w c = some w') :
    b >>> i ≠ 0 ∧
      (((a >>> i) % 2 = 0 ∧ a >>> i ≠ b >>> i ∧ AtLevel a b (i + 1) w' ∧
          w'.fr = w.fr ∧ w'.sr = nodeHash sha256 w.sr c) ∨
        ∃ j, i ≤ j ∧ SkipLevels a b i j ∧ (a >>> j) % 2 = 1 ∧ AtLevel a b (j + 1) w' ∧
          w'.fr = nodeHash sha256 c w.fr ∧ w'.sr = nodeHash sha256 c w.sr) := by
  have hb : b >>> i ≠ 0 := by
    intro hz
    rw [verifyStep, if_pos (by rw [hw.snode]; exact hz)] at hstep
    cases hstep
  refine ⟨hb, ?_⟩
  rcases level_cases a b i hb with ⟨heven, hne⟩ | ⟨j, hij, hskip, hodd⟩
  · rw [verifyStep_extend sha256 hw hb heven hne] at hstep
    cases hstep
    exact Or.inl ⟨heven, hne, ⟨rfl, rfl⟩, rfl, rfl⟩
  · rw [verifyStep_join sha256 hw hb hij hskip hodd] at hstep
    cases hstep
    exact Or.inr ⟨j, hij, hskip, hodd, ⟨rfl, rfl⟩, rfl, rfl⟩

end Rounds

/-- The block at which a walk stands at level `i`. -/
def standing (xs : List Hash) (a i : Nat) : List Hash := block xs i (a >>> i)

theorem shiftRight_mul_le (a i : Nat) : (a >>> i) * 2 ^ i ≤ a := by
  rw [Nat.shiftRight_eq_div_pow]
  exact Nat.div_mul_le_self a (2 ^ i)

theorem lt_shiftRight_succ_mul (a i : Nat) : a < (a >>> i + 1) * 2 ^ i := by
  rw [Nat.shiftRight_eq_div_pow, Nat.add_mul, Nat.one_mul]
  exact Nat.lt_div_mul_add (Nat.two_pow_pos i)

/-- Between two levels of a skip the walk stands at the same leaves: each list
ends in the block of the lower level. -/
theorem standing_skip (xs : List Hash) {a i j : Nat} (hij : i ≤ j)
    (hend : ∀ l, i ≤ l → l < j → (a >>> l) % 2 = 0 ∧ xs.length ≤ (a >>> l + 1) * 2 ^ l) :
    standing xs a j = standing xs a i ∧ (a >>> j) * 2 ^ j = (a >>> i) * 2 ^ i := by
  induction j, hij using Nat.le_induction with
  | base => exact ⟨rfl, rfl⟩
  | succ j hij ih =>
    obtain ⟨hblock, hindex⟩ := ih (fun l hl hlj => hend l hl (by omega))
    obtain ⟨heven, hlen⟩ := hend j hij (by omega)
    have hhalf : a >>> j = 2 * (a >>> (j + 1)) := by
      rw [Nat.shiftRight_succ]
      omega
    constructor
    · rw [← hblock, standing, standing, block_lift xs j (a >>> (j + 1)) (by rwa [← hhalf]),
        ← hhalf]
    · rw [← hindex, hhalf, Nat.pow_succ]
      ring

/-- The levels of a skip, for a list whose last leaf is below the nodes `a` passes. -/
theorem standing_skip_last (xs : List Hash) {a i j : Nat} (hij : i ≤ j)
    (hlast : SkipLevels a (xs.length - 1) i j) :
    standing xs a j = standing xs a i ∧ (a >>> j) * 2 ^ j = (a >>> i) * 2 ^ i := by
  refine standing_skip xs hij ?_
  intro l hl hlj
  obtain ⟨heven, hnode⟩ := hlast l hl hlj
  refine ⟨heven, ?_⟩
  rw [hnode]
  have := lt_shiftRight_succ_mul (xs.length - 1) l
  omega

/-- A list that ends with the leaf `a` itself ends in every block the walk skips. -/
theorem SkipLevels.self {a b i j : Nat} (hskip : SkipLevels a b i j) : SkipLevels a a i j :=
  fun l hl hlj => ⟨(hskip l hl hlj).1, rfl⟩

theorem SkipLevels.single {a i : Nat} (heven : (a >>> i) % 2 = 0) :
    SkipLevels a a i (i + 1) := by
  intro l hl hlt
  obtain rfl : l = i := by omega
  exact ⟨heven, rfl⟩

/-- Joining at an odd level: the block above is the left sibling's block and
the standing block, and the left sibling is full. -/
theorem standing_join (xs : List Hash) {a j : Nat} (ha : a < xs.length)
    (hodd : (a >>> j) % 2 = 1) :
    (2 * (a >>> (j + 1)) + 1) * 2 ^ j < xs.length ∧ 2 * (a >>> (j + 1)) + 1 = a >>> j := by
  have hindex : 2 * (a >>> (j + 1)) + 1 = a >>> j := by
    rw [Nat.shiftRight_succ]
    omega
  exact ⟨hindex ▸ lt_of_le_of_lt (shiftRight_mul_le a j) ha, hindex⟩

theorem standing_extend (ys : List Hash) {a b i : Nat} (hb : b + 1 = ys.length)
    (hab : a ≤ b) (heven : (a >>> i) % 2 = 0) (hne : a >>> i ≠ b >>> i) :
    (2 * (a >>> (i + 1)) + 1) * 2 ^ i < ys.length ∧ 2 * (a >>> (i + 1)) = a >>> i := by
  have hindex : 2 * (a >>> (i + 1)) = a >>> i := by
    rw [Nat.shiftRight_succ]
    omega
  refine ⟨?_, hindex⟩
  have hle : a >>> i ≤ b >>> i := by
    rw [Nat.shiftRight_eq_div_pow, Nat.shiftRight_eq_div_pow]
    exact Nat.div_le_div_right hab
  have hright : (a >>> i + 1) * 2 ^ i ≤ (b >>> i) * 2 ^ i :=
    Nat.mul_le_mul_right _ (by omega)
  have hlast := shiftRight_mul_le b i
  rw [hindex]
  omega

end Dante.Merkle
