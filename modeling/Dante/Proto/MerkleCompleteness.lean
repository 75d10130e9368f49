import Dante.Proto.MerkleWalk

/-!
The iterative verifier accepts every proof of the recursive prover. Between the two stands the list
of sibling hashes by level, bottom up. The prover emits it, by induction on the height of the tree;
the verifier consumes it, by induction on the levels that are left.
-/

namespace Dante.Merkle

open Crypto TreeFold

variable (sha256 : Bytes → Hash)
variable {old new : List Hash}

theorem root_block (xs : List Hash) (i x : Nat) (hright : (2 * x + 1) * 2 ^ i < xs.length) :
    root sha256 (block xs (i + 1) x) =
      nodeHash sha256 (root sha256 (block xs i (2 * x)))
        (root sha256 (block xs i (2 * x + 1))) := by
  simp only [root_eq_fold]
  exact fold_block _ _ xs i x hright

/-- What level `i` adds to the proof that `leaves` extends its first `a + 1`
leaves: the left sibling, the right sibling, or nothing. -/
def siblings (leaves : List Hash) (a i : Nat) : List Hash :=
  if (a >>> i) % 2 = 1 then
    [root sha256 (block leaves i (a >>> i - 1))]
  else if a >>> i = (leaves.length - 1) >>> i then
    []
  else
    [root sha256 (block leaves i (a >>> i + 1))]

/-- The siblings of the levels `i ..< h`. -/
def levelProof (leaves : List Hash) (a i h : Nat) : List Hash :=
  (List.range' i (h - i)).flatMap (siblings sha256 leaves a)

theorem levelProof_self (leaves : List Hash) (a i : Nat) :
    levelProof sha256 leaves a i i = [] := by
  simp [levelProof]

theorem levelProof_cons (leaves : List Hash) (a i h : Nat) (hlt : i < h) :
    levelProof sha256 leaves a i h =
      siblings sha256 leaves a i ++ levelProof sha256 leaves a (i + 1) h := by
  have hcount : h - i = h - (i + 1) + 1 := by omega
  rw [levelProof, levelProof, hcount, List.range'_succ, List.flatMap_cons]

theorem levelProof_snoc (leaves : List Hash) (a i h : Nat) (hle : i ≤ h) :
    levelProof sha256 leaves a i (h + 1) =
      levelProof sha256 leaves a i h ++ siblings sha256 leaves a h := by
  have hcount : h + 1 - i = h - i + 1 := by omega
  have hlast : i + (h - i) = h := by omega
  simp [levelProof, hcount, List.range'_concat, hlast]

theorem levelProof_congr (left right : List Hash) (a a' i h : Nat)
    (heq : ∀ l, i ≤ l → l < h → siblings sha256 left a l = siblings sha256 right a' l) :
    levelProof sha256 left a i h = levelProof sha256 right a' i h := by
  unfold levelProof
  apply List.flatMap_congr
  intro l hl
  rw [List.mem_range'_1] at hl
  exact heq l hl.1 (by omega)

theorem levelProof_skip (leaves : List Hash) {a i j h : Nat} (hij : i ≤ j) (hjh : j ≤ h)
    (hskip : SkipLevels a (leaves.length - 1) i j) :
    levelProof sha256 leaves a i h = levelProof sha256 leaves a j h := by
  induction j, hij using Nat.le_induction with
  | base => rfl
  | succ j hij ih =>
    obtain ⟨heven, heq⟩ := hskip j hij (by omega)
    have hnone : siblings sha256 leaves a j = [] := by
      rw [siblings, if_neg (by omega), if_pos heq]
    rw [ih (by omega) (fun l hl hlj => hskip l hl (by omega)),
      levelProof_cons sha256 leaves a j h (by omega), hnone, List.nil_append]

theorem shiftRight_two_pow_add {h l : Nat} (hle : l ≤ h) (x : Nat) :
    (2 ^ h + x) >>> l = 2 ^ (h - l) + x >>> l := by
  have hpow : 2 ^ h = 2 ^ (h - l) * 2 ^ l := by
    rw [← Nat.pow_add]
    congr 1
    omega
  rw [Nat.shiftRight_eq_div_pow, Nat.shiftRight_eq_div_pow, hpow, Nat.add_comm,
    Nat.add_mul_div_right _ _ (Nat.two_pow_pos l), Nat.add_comm]

theorem shiftRight_lt_two_pow {x h l : Nat} (hle : l ≤ h) (hx : x < 2 ^ h) :
    x >>> l < 2 ^ (h - l) := by
  rw [Nat.shiftRight_eq_div_pow, Nat.div_lt_iff_lt_mul (Nat.two_pow_pos l), ← Nat.pow_add]
  rwa [Nat.sub_add_cancel hle]

theorem two_pow_sub_even {h l : Nat} (hlt : l < h) : 2 ^ (h - l) % 2 = 0 := by
  obtain ⟨d, hd⟩ : ∃ d, h - l = d + 1 := ⟨h - l - 1, by omega⟩
  rw [hd, Nat.pow_succ]
  omega

/-- Below the split, the left subtree has the siblings of the whole tree. -/
theorem siblings_take (leaves : List Hash) {a h l : Nat} (hl : l < h) (ha : a < 2 ^ h)
    (hlen : 2 ^ h < leaves.length) :
    siblings sha256 (leaves.take (2 ^ h)) a l = siblings sha256 leaves a l := by
  have hpow : 2 ^ (h - l) * 2 ^ l = 2 ^ h := by
    rw [← Nat.pow_add]
    congr 1
    omega
  have hpos : 0 < 2 ^ (h - l) := Nat.two_pow_pos _
  have hnode := shiftRight_lt_two_pow hl.le ha
  have heven := two_pow_sub_even hl
  have htake : (leaves.take (2 ^ h)).length - 1 = 2 ^ h - 1 := by
    rw [List.length_take, Nat.min_eq_left hlen.le]
  -- the last node of the left subtree is odd, the last node of the whole tree is
  -- to the right of it: neither meets an even node of the old tree
  have hlastTake : (2 ^ h - 1) >>> l + 1 = 2 ^ (h - l) := by
    have hlt := shiftRight_lt_two_pow hl.le (show 2 ^ h - 1 < 2 ^ h by omega)
    have hgt := lt_shiftRight_succ_mul (2 ^ h - 1) l
    have hle : 2 ^ (h - l) ≤ (2 ^ h - 1) >>> l + 1 := by
      by_contra hcon
      have := Nat.mul_le_mul_right (2 ^ l) (show (2 ^ h - 1) >>> l + 1 + 1 ≤ 2 ^ (h - l) by omega)
      rw [hpow, Nat.add_mul _ 1, Nat.one_mul] at this
      have := Nat.two_pow_pos l
      omega
    omega
  have hlast : 2 ^ (h - l) ≤ (leaves.length - 1) >>> l := by
    obtain ⟨d, hd⟩ := Nat.exists_eq_add_of_le (show 2 ^ h ≤ leaves.length - 1 by omega)
    rw [hd, shiftRight_two_pow_add hl.le]
    exact Nat.le_add_right _ _
  unfold siblings
  rw [htake]
  by_cases hodd : (a >>> l) % 2 = 1
  · have hend : (a >>> l - 1 + 1) * 2 ^ l ≤ 2 ^ h := by
      rw [← hpow]
      exact Nat.mul_le_mul_right _ (by omega)
    rw [if_pos hodd, if_pos hodd, block_take leaves (2 ^ h) l _ hend]
  · have hend : (a >>> l + 1 + 1) * 2 ^ l ≤ 2 ^ h := by
      rw [← hpow]
      exact Nat.mul_le_mul_right _ (by omega)
    rw [if_neg hodd, if_neg hodd, if_neg (by omega), if_neg (by omega),
      block_take leaves (2 ^ h) l _ hend]

/-- Below the split, the right subtree has the siblings of the whole tree. -/
theorem siblings_drop (leaves : List Hash) {a h l : Nat} (hl : l < h)
    (hlen : 2 ^ h < leaves.length) :
    siblings sha256 (leaves.drop (2 ^ h)) a l = siblings sha256 leaves (2 ^ h + a) l := by
  have heven := two_pow_sub_even hl
  have hlast : leaves.length - 1 = 2 ^ h + ((leaves.drop (2 ^ h)).length - 1) := by
    rw [List.length_drop]
    generalize 2 ^ h = k at hlen
    omega
  have hparity : (2 ^ (h - l) + a >>> l) % 2 = (a >>> l) % 2 := by
    rw [Nat.add_mod, heven, Nat.zero_add, Nat.mod_mod]
  unfold siblings
  rw [hlast, shiftRight_two_pow_add hl.le, shiftRight_two_pow_add hl.le, hparity]
  simp only [Nat.add_right_inj]
  by_cases hodd : (a >>> l) % 2 = 1
  · have hindex : 2 ^ (h - l) + a >>> l - 1 = 2 ^ (h - l) + (a >>> l - 1) := by
      generalize a >>> l = x at hodd
      exact Nat.add_sub_assoc (by omega) _
    rw [if_pos hodd, if_pos hodd, hindex, block_drop leaves h l _ hl.le]
  · rw [if_neg hodd, if_neg hodd, Nat.add_assoc, block_drop leaves h l _ hl.le]

/-- The first path element: the last full block of the old tree, which the
prover leaves out while it is still on the left border. -/
def firstElement (leaves : List Hash) (onBorder : Bool) (i q : Nat) : List Hash :=
  if onBorder && q = 0 then [] else [root sha256 (block leaves i (2 * q))]

theorem two_pow_mul_odd_eq {i q h : Nat} (heq : 2 ^ i * (2 * q + 1) = 2 ^ h) : q = 0 := by
  have hdvd : 2 * q + 1 ∣ 2 ^ h := ⟨2 ^ i, by rw [← heq, Nat.mul_comm]⟩
  have hodd : Nat.Coprime (2 * q + 1) (2 ^ h) :=
    Nat.Coprime.pow_right h (Nat.coprime_two_right.mpr ⟨q, rfl⟩)
  have := Nat.Coprime.eq_one_of_dvd hodd hdvd
  omega

/-- Subtracting the split point from an old size past it keeps the power of two
in it. -/
theorem two_pow_mul_odd_sub {m i q h : Nat} (hm : m = 2 ^ i * (2 * q + 1)) (hlow : 2 ^ h < m)
    (hhigh : m < 2 ^ (h + 1)) :
    i < h ∧ ∃ p, 2 ^ (h - i) = 2 * p ∧ 0 < p ∧ p ≤ q ∧
      m - 2 ^ h = 2 ^ i * (2 * (q - p) + 1) := by
  have hih : i < h := by
    by_contra hge
    obtain ⟨d, rfl⟩ := Nat.exists_eq_add_of_le (show h ≤ i by omega)
    rw [Nat.pow_add, Nat.mul_assoc] at hm
    rw [Nat.pow_succ, hm, Nat.mul_lt_mul_left (Nat.two_pow_pos h)] at hhigh
    nth_rewrite 1 [← Nat.mul_one (2 ^ h)] at hlow
    rw [hm, Nat.mul_lt_mul_left (Nat.two_pow_pos h)] at hlow
    omega
  obtain ⟨d, rfl⟩ := Nat.exists_eq_add_of_lt hih
  have hsplit : 2 ^ (i + d + 1) = 2 ^ i * (2 * 2 ^ d) := by ring
  have hdiff : i + d + 1 - i = d + 1 := by omega
  refine ⟨hih, 2 ^ d, by rw [hdiff, Nat.pow_succ']; , Nat.two_pow_pos d, ?_, ?_⟩
  · rw [hm, hsplit, Nat.mul_lt_mul_left (Nat.two_pow_pos i)] at hlow
    omega
  · rw [hm, hsplit, Nat.mul_lt_mul_left (Nat.two_pow_pos i)] at hlow
    rw [hm, hsplit, ← Nat.mul_sub]
    congr 1
    omega

theorem firstElement_take (leaves : List Hash) (onBorder : Bool) {h i q : Nat}
    (hend : 2 ^ i * (2 * q + 1) ≤ 2 ^ h) :
    firstElement sha256 (leaves.take (2 ^ h)) onBorder i q =
      firstElement sha256 leaves onBorder i q := by
  rw [firstElement, firstElement,
    block_take leaves (2 ^ h) i (2 * q) (by rwa [Nat.mul_comm])]

theorem firstElement_drop (leaves : List Hash) (onBorder : Bool) {h i p q : Nat}
    (hih : i ≤ h) (hp : 2 ^ (h - i) = 2 * p) (hpos : 0 < p) (hpq : p ≤ q) :
    firstElement sha256 (leaves.drop (2 ^ h)) false i (q - p) =
      firstElement sha256 leaves onBorder i q := by
  have hindex : 2 * p + 2 * (q - p) = 2 * q := by omega
  have hq : q ≠ 0 := by omega
  rw [firstElement, firstElement, block_drop leaves h i _ hih, hp, hindex]
  simp [hq]

/-- At a tree of height `h + 1` the prover opens the tree at `2 ^ h`. -/
theorem subproof_open (m h : Nat) (leaves : List Hash) (onBorder : Bool)
    (hlow : 2 ^ h < leaves.length) (hhigh : leaves.length ≤ 2 ^ (h + 1))
    (hm : m < leaves.length) :
    subproof sha256 m leaves onBorder =
      if m ≤ 2 ^ h then
        subproof sha256 m (leaves.take (2 ^ h)) onBorder ++
          [root sha256 (leaves.drop (2 ^ h))]
      else
        subproof sha256 (m - 2 ^ h) (leaves.drop (2 ^ h)) false ++
          [root sha256 (leaves.take (2 ^ h))] := by
  have hpos := Nat.two_pow_pos h
  have htwo : 2 ≤ leaves.length := by omega
  rw [subproof, if_neg (by omega), dif_neg (by omega)]
  dsimp only
  rw [split_eq_splitPoint htwo, splitPoint_eq hlow hhigh]

theorem two_pow_le_of_eq {m i q : Nat} (hm : m = 2 ^ i * (2 * q + 1)) : 2 ^ i ≤ m := by
  rw [hm]
  exact Nat.le_mul_of_pos_right _ (by omega)

theorem siblings_top_left (leaves : List Hash) {a h : Nat} (ha : a < 2 ^ h)
    (hlow : 2 ^ h < leaves.length) (hhigh : leaves.length ≤ 2 ^ (h + 1)) :
    siblings sha256 leaves a h = [root sha256 (leaves.drop (2 ^ h))] := by
  have hzero : a >>> h = 0 := by
    rw [Nat.shiftRight_eq_div_pow, Nat.div_eq_of_lt ha]
  have hone : (leaves.length - 1) >>> h = 1 := by
    rw [Nat.shiftRight_eq_div_pow]
    rw [Nat.pow_succ] at hhigh
    exact Nat.div_eq_of_lt_le (by omega) (by omega)
  have hblock : block leaves h 1 = leaves.drop (2 ^ h) := by
    rw [block, Nat.one_mul, List.take_of_length_le]
    rw [List.length_drop]
    rw [Nat.pow_succ] at hhigh
    omega
  rw [siblings, hzero, hone, if_neg (by omega), if_neg (by omega), Nat.zero_add, hblock]

theorem siblings_top_right (leaves : List Hash) {a h : Nat} (hlow : 2 ^ h ≤ a)
    (hhigh : a < 2 ^ (h + 1)) :
    siblings sha256 leaves a h = [root sha256 (leaves.take (2 ^ h))] := by
  have hone : a >>> h = 1 := by
    rw [Nat.shiftRight_eq_div_pow]
    rw [Nat.pow_succ] at hhigh
    exact Nat.div_eq_of_lt_le (by omega) (by omega)
  rw [siblings, hone, if_pos (by omega)]
  simp [block]

theorem siblings_above (leaves : List Hash) {a h : Nat} (ha : a < leaves.length)
    (hlen : leaves.length ≤ 2 ^ h) : siblings sha256 leaves a h = [] := by
  have hzero (x : Nat) (hx : x < 2 ^ h) : x >>> h = 0 := by
    rw [Nat.shiftRight_eq_div_pow, Nat.div_eq_of_lt hx]
  rw [siblings, hzero a (by omega), hzero (leaves.length - 1) (by omega), if_neg (by omega),
    if_pos rfl]

/-- By induction on the height `h` of the tree. Opening the tree at its split point
adds the sibling of level `h`; the subtree the prover goes on with has the same
siblings below. -/
theorem subproof_eq (h m i q : Nat) (leaves : List Hash) (onBorder : Bool)
    (hm : m = 2 ^ i * (2 * q + 1)) (hsize : m < leaves.length ∨ m = leaves.length ∧ q = 0)
    (hheight : leaves.length ≤ 2 ^ h) :
    subproof sha256 m leaves onBorder =
      firstElement sha256 leaves onBorder i q ++ levelProof sha256 leaves (m - 1) i h := by
  induction h generalizing m q leaves onBorder with
  | zero =>
    have hpow := two_pow_le_of_eq hm
    have hpos := Nat.two_pow_pos i
    rw [Nat.pow_zero] at hheight
    obtain ⟨hlen, rfl⟩ : m = leaves.length ∧ q = 0 := by omega
    have hi : i = 0 := by
      by_contra hne
      have := Nat.one_lt_two_pow hne
      omega
    subst hi
    rw [subproof, if_pos hlen, levelProof_self, firstElement,
      block_zero leaves 0 (by rw [Nat.pow_zero]; exact hheight)]
    simp
  | succ h ih =>
    have hpow := two_pow_le_of_eq hm
    have hpos := Nat.two_pow_pos i
    by_cases hsmall : leaves.length ≤ 2 ^ h
    · have hih : i ≤ h := (Nat.pow_le_pow_iff_right (by omega)).mp (show 2 ^ i ≤ 2 ^ h by omega)
      rw [ih m q leaves onBorder hm hsize hsmall, levelProof_snoc sha256 leaves _ i h hih,
        siblings_above sha256 leaves (by omega) hsmall, List.append_nil]
    · rcases hsize with hlt | ⟨hlen, rfl⟩
      · rw [subproof_open sha256 m h leaves onBorder (by omega) hheight hlt]
        split
        case isTrue hleft =>
          have hih : i ≤ h :=
            (Nat.pow_le_pow_iff_right (by omega)).mp (show 2 ^ i ≤ 2 ^ h by omega)
          have htake : (leaves.take (2 ^ h)).length = 2 ^ h := by
            rw [List.length_take]
            omega
          have hsize' : m < (leaves.take (2 ^ h)).length ∨
              m = (leaves.take (2 ^ h)).length ∧ q = 0 := by
            rw [htake]
            rcases Nat.lt_or_eq_of_le hleft with hmlt | hmeq
            · exact Or.inl hmlt
            · exact Or.inr ⟨hmeq, two_pow_mul_odd_eq (hm ▸ hmeq)⟩
          rw [ih m q (leaves.take (2 ^ h)) onBorder hm hsize' htake.le,
            firstElement_take sha256 leaves onBorder (hm ▸ hleft),
            levelProof_congr sha256 _ leaves (m - 1) (m - 1) i h
              (fun l _ hl => siblings_take sha256 leaves hl (by omega) (by omega)),
            levelProof_snoc sha256 leaves _ i h hih,
            siblings_top_left sha256 leaves (by omega) (by omega) hheight, List.append_assoc]
        case isFalse hright =>
          obtain ⟨hih, p, hp, hpos', hpq, hrest⟩ := two_pow_mul_odd_sub hm (show 2 ^ h < m by omega)
            (by omega)
          have hdrop : (leaves.drop (2 ^ h)).length = leaves.length - 2 ^ h := List.length_drop
          have hindex : m - 1 = 2 ^ h + (m - 2 ^ h - 1) := by omega
          rw [ih (m - 2 ^ h) (q - p) (leaves.drop (2 ^ h)) false hrest (Or.inl (by omega))
              (by rw [Nat.pow_succ] at hheight; omega),
            firstElement_drop sha256 leaves onBorder hih.le hp hpos' hpq,
            levelProof_congr sha256 _ leaves (m - 2 ^ h - 1) (m - 1) i h
              (fun l _ hl => hindex ▸ siblings_drop sha256 leaves hl (by omega)),
            levelProof_snoc sha256 leaves _ i h hih.le,
            siblings_top_right sha256 leaves (by omega) (by omega), List.append_assoc]
      · rw [Nat.mul_zero, Nat.zero_add, Nat.mul_one] at hm
        have hlow : h < i :=
          (Nat.pow_lt_pow_iff_right (by omega)).mp (show 2 ^ h < 2 ^ i by omega)
        have hhigh : i ≤ h + 1 :=
          (Nat.pow_le_pow_iff_right (by omega)).mp (show 2 ^ i ≤ 2 ^ (h + 1) by omega)
        obtain rfl : i = h + 1 := by omega
        rw [subproof, if_pos hlen, levelProof_self, firstElement, Nat.mul_zero,
          block_zero leaves (h + 1) hheight]
        simp

theorem levelProof_above (leaves : List Hash) {a i h : Nat} (ha : a < leaves.length)
    (hlen : leaves.length ≤ 2 ^ i) : levelProof sha256 leaves a i h = [] := by
  rw [levelProof, List.flatMap_eq_nil_iff]
  intro l hl
  rw [List.mem_range'_1] at hl
  exact siblings_above sha256 leaves ha
    (hlen.trans (Nat.pow_le_pow_right (by omega) hl.1))

theorem length_le_two_pow_of_shiftRight {b i : Nat} (hzero : b >>> i = 0) : b + 1 ≤ 2 ^ i := by
  rw [Nat.shiftRight_eq_div_pow, Nat.div_eq_zero_iff_lt (Nat.two_pow_pos i)] at hzero
  exact hzero

/-- The walk stands at level `i`, and its hashes are the tree hashes of the blocks
it stands at, in the old and in the new tree. -/
structure Standing (old new : List Hash) (i : Nat) (w : Walk) : Prop
    extends AtLevel (old.length - 1) (new.length - 1) i w where
  fr : w.fr = root sha256 (standing old (old.length - 1) i)
  sr : w.sr = root sha256 (standing new (old.length - 1) i)

/-- One round of the walk on the sibling that the level asks for. -/
theorem Standing.extend {i : Nat} {w : Walk} (hw : Standing sha256 old new i w) (hold : old ≠ [])
    (hle : old.length ≤ new.length) (hb : (new.length - 1) >>> i ≠ 0)
    (heven : ((old.length - 1) >>> i) % 2 = 0)
    (hne : (old.length - 1) >>> i ≠ (new.length - 1) >>> i) :
    ∃ w', verifyStep sha256 w
        (root sha256 (block new i ((old.length - 1) >>> i + 1))) = some w' ∧
      Standing sha256 old new (i + 1) w' := by
  have hpos : 0 < old.length := List.length_pos_iff.mpr hold
  refine ⟨_, verifyStep_extend sha256 hw.toAtLevel hb heven hne _, ⟨⟨rfl, rfl⟩, ?_, ?_⟩⟩
  · -- the old tree ends at this level, so its block is the block above
    rw [(standing_skip_last old (Nat.le_succ i) (SkipLevels.single heven)).1]
    exact hw.fr
  · obtain ⟨hright, hindex⟩ := standing_extend new (b := new.length - 1) (by omega)
      (by omega) heven hne
    show nodeHash sha256 w.sr _ = _
    rw [standing, root_block sha256 new i _ hright, hindex, hw.sr, standing]

theorem Standing.join {i j : Nat} {w : Walk} (hw : Standing sha256 old new i w) (hold : old ≠ [])
    (hext : old <+: new) (hb : (new.length - 1) >>> i ≠ 0) (hij : i ≤ j)
    (hskip : SkipLevels (old.length - 1) (new.length - 1) i j)
    (hodd : ((old.length - 1) >>> j) % 2 = 1) :
    ∃ w', verifyStep sha256 w
        (root sha256 (block new j ((old.length - 1) >>> j - 1))) = some w' ∧
      Standing sha256 old new (j + 1) w' := by
  have hpos : 0 < old.length := List.length_pos_iff.mpr hold
  have hle := hext.length_le
  obtain ⟨hright, hindex⟩ := standing_join old (a := old.length - 1) (by omega) hodd
  have hleft : (old.length - 1) >>> j - 1 = 2 * ((old.length - 1) >>> (j + 1)) := by
    rw [← hindex, Nat.add_sub_cancel]
  refine ⟨_, verifyStep_join sha256 hw.toAtLevel hb hij hskip hodd _, ⟨⟨rfl, rfl⟩, ?_, ?_⟩⟩
  · -- the left sibling lies inside the old tree
    have hinside : block new j ((old.length - 1) >>> j - 1) =
        block old j ((old.length - 1) >>> j - 1) := by
      have htake := block_take new old.length j ((old.length - 1) >>> j - 1)
        (by rw [hleft]; exact hright.le)
      rw [← htake, ← List.prefix_iff_eq_take.mp hext]
    show nodeHash sha256 _ w.fr = _
    rw [hinside, standing, root_block sha256 old j _ hright, hindex, hleft, hw.fr,
      ← (standing_skip_last old hij hskip.self).1, standing]
  · show nodeHash sha256 _ w.sr = _
    rw [standing, root_block sha256 new j _ (by omega), hindex, hleft, hw.sr,
      ← (standing_skip_last new hij hskip).1, standing]

/-- By induction on the levels that are left, the walk accepts the siblings and
ends with the two tree hashes. -/
theorem foldlM_levelProof (hold : old ≠ []) (hext : old <+: new) {h : Nat} (hh : new.length ≤ 2 ^ h)
    (i : Nat) (w : Walk) (hw : Standing sha256 old new i w) :
    ∃ w', (levelProof sha256 new (old.length - 1) i h).foldlM (verifyStep sha256) w = some w' ∧
      w'.fnode = 0 ∧ w'.fr = root sha256 old ∧ w'.sr = root sha256 new := by
  have hpos : 0 < old.length := List.length_pos_iff.mpr hold
  have hle := hext.length_le
  have hmono (l : Nat) : (old.length - 1) >>> l ≤ (new.length - 1) >>> l := by
    rw [Nat.shiftRight_eq_div_pow, Nat.shiftRight_eq_div_pow]
    exact Nat.div_le_div_right (by omega)
  have hbelow (l : Nat) (hl : (new.length - 1) >>> l ≠ 0) : l < h := by
    by_contra hge
    have hpow : 2 ^ h ≤ 2 ^ l := Nat.pow_le_pow_right (by omega) (by omega)
    exact hl (by rw [Nat.shiftRight_eq_div_pow]; exact Nat.div_eq_of_lt (by omega))
  induction hd : h - i using Nat.strong_induction_on generalizing i w with
  | _ d ih =>
    by_cases hb : (new.length - 1) >>> i = 0
    · have hnew := length_le_two_pow_of_shiftRight hb
      have hzero : (old.length - 1) >>> i = 0 := Nat.le_zero.mp (hb ▸ hmono i)
      refine ⟨w, ?_, hw.fnode.trans hzero, ?_, ?_⟩
      · rw [levelProof_above sha256 new (by omega) (by omega)]
        rfl
      · rw [hw.fr, standing, hzero, block_zero old i (by omega)]
      · rw [hw.sr, standing, hzero, block_zero new i (by omega)]
    · have hih := hbelow i hb
      rcases level_cases (old.length - 1) (new.length - 1) i hb with
        ⟨heven, hne⟩ | ⟨j, hij, hskip, hodd⟩
      · obtain ⟨w', hstep, hw'⟩ := hw.extend sha256 hold hle hb heven hne
        have hsib : siblings sha256 new (old.length - 1) i =
            [root sha256 (block new i ((old.length - 1) >>> i + 1))] := by
          rw [siblings, if_neg (by omega), if_neg hne]
        rw [levelProof_cons sha256 new _ i h hih, hsib, List.singleton_append,
          List.foldlM_cons, hstep]
        exact ih (h - (i + 1)) (by omega) (i + 1) w' hw' rfl
      · obtain ⟨w', hstep, hw'⟩ := hw.join sha256 hold hext hb hij hskip hodd
        have hjh : j < h := by
          refine hbelow j (fun hzero => ?_)
          have hnode : (old.length - 1) >>> j = 0 := Nat.le_zero.mp (hzero ▸ hmono j)
          rw [hnode] at hodd
          cases hodd
        have hsib : siblings sha256 new (old.length - 1) j =
            [root sha256 (block new j ((old.length - 1) >>> j - 1))] := by
          rw [siblings, if_pos hodd]
        rw [levelProof_skip sha256 new hij hjh.le hskip, levelProof_cons sha256 new _ j h hjh,
          hsib, List.singleton_append, List.foldlM_cons, hstep]
        exact ih (h - (j + 1)) (by omega) (j + 1) w' hw' rfl

theorem pred_shiftRight {m i l k : Nat} (hm : m = 2 ^ i * k) (hk : 0 < k) (hl : l ≤ i) :
    (m - 1) >>> l = 2 ^ (i - l) * k - 1 := by
  have hsplit : m = 2 ^ l * (2 ^ (i - l) * k) := by
    rw [hm, ← Nat.mul_assoc, ← Nat.pow_add]
    congr 2
    omega
  have hpos : 0 < 2 ^ l * (2 ^ (i - l) * k) := by positivity
  rw [Nat.shiftRight_eq_div_pow, hsplit]
  have hdiv := Nat.mul_sub_div 0 (2 ^ l) (2 ^ (i - l) * k) hpos
  rwa [Nat.zero_div, Nat.zero_add] at hdiv

/-- The verifier starts at the level of the power of two in the old size. -/
theorem skipOdd_start {m i q : Nat} (hm : m = 2 ^ i * (2 * q + 1)) (b : Nat) :
    (m - 1) >>> i = 2 * q ∧ skipOdd (m - 1) b = (2 * q, b >>> i) := by
  have hnode : (m - 1) >>> i = 2 * q := by
    rw [pred_shiftRight hm (by omega) le_rfl, Nat.sub_self, Nat.pow_zero]
    omega
  refine ⟨hnode, ?_⟩
  rw [← hnode]
  apply skipOdd_eq
  · rw [hnode]
    omega
  · intro l hl
    obtain ⟨d, hd⟩ : ∃ d, i - l = d + 1 := ⟨i - l - 1, by omega⟩
    have hpos : 0 < 2 ^ d * (2 * q + 1) := by positivity
    rw [pred_shiftRight hm (by omega) hl.le, hd, Nat.pow_succ', Nat.mul_assoc]
    omega

/-- With the implicit element of a power-of-two old size put back, the path
always starts with the last full block of the old tree. -/
theorem implicit_append_firstElement (leaves : List Hash) {m i q : Nat}
    (hm : m = 2 ^ i * (2 * q + 1)) :
    (if m.isPowerOfTwo then [root sha256 (leaves.take m)] else []) ++
        firstElement sha256 leaves true i q =
      [root sha256 (block leaves i (2 * q))] := by
  by_cases hq : q = 0
  · have hpow : m.isPowerOfTwo := ⟨i, by rw [hm, hq]; omega⟩
    have hm' : m = 2 ^ i := by rw [hm, hq]; omega
    rw [if_pos hpow, firstElement, hq, hm']
    simp [block]
  · have hpow : ¬ m.isPowerOfTwo := by
      rintro ⟨h, hh⟩
      exact hq (two_pow_mul_odd_eq (hm ▸ hh))
    rw [if_neg hpow, firstElement]
    simp [hq]

/-- The path of a proper extension: the first element, then the siblings. -/
theorem verifyWork_levelProof (leaves : List Hash) {m i q h : Nat}
    (hm : m = 2 ^ i * (2 * q + 1)) (hlt : m < leaves.length) (hh : leaves.length ≤ 2 ^ h) :
    verifyWork sha256 m leaves.length (root sha256 (leaves.take m)) (root sha256 leaves)
      (root sha256 (block leaves i (2 * q))) (levelProof sha256 leaves (m - 1) i h) = true := by
  have hpos : 0 < m := lt_of_lt_of_le (Nat.two_pow_pos i) (two_pow_le_of_eq hm)
  obtain ⟨hnode, hskip⟩ := skipOdd_start hm (leaves.length - 1)
  have hlen : (leaves.take m).length = m := by
    rw [List.length_take]
    omega
  have hold : leaves.take m ≠ [] := by
    intro hnil
    rw [hnil, List.length_nil] at hlen
    omega
  have hstart : Standing sha256 (leaves.take m) leaves i
      { fnode := 2 * q, snode := (leaves.length - 1) >>> i,
        fr := root sha256 (block leaves i (2 * q)),
        sr := root sha256 (block leaves i (2 * q)) } := by
    have hblock : block (leaves.take m) i (2 * q) = block leaves i (2 * q) :=
      block_take leaves m i (2 * q) (by rw [hm, Nat.mul_comm])
    refine ⟨⟨?_, rfl⟩, ?_, ?_⟩
    · rw [hlen, hnode]
    · rw [hlen, standing, hnode, hblock]
    · rw [hlen, standing, hnode]
  obtain ⟨w, hrun, hfnode, hfr, hsr⟩ :=
    foldlM_levelProof sha256 hold (List.take_prefix m leaves) hh i _ hstart
  rw [hlen] at hrun
  simp [verifyWork, hskip, hrun, hfnode, hfr, hsr]

/-- The verifier accepts every proof of the prover, for every pair of sizes. -/
theorem verifyConsistency_consistencyProof (leaves : List Hash) (m : Nat) (hpos : 1 ≤ m)
    (hle : m ≤ leaves.length) :
    ∃ proof, consistencyProof sha256 m leaves = some proof ∧
      verifyConsistency sha256 m leaves.length (root sha256 (leaves.take m))
        (root sha256 leaves) proof = true := by
  unfold consistencyProof
  rw [if_neg (by omega)]
  by_cases heq : m = leaves.length
  · refine ⟨[], if_pos heq, ?_⟩
    simp [verifyConsistency, heq]
  · refine ⟨_, if_neg heq, ?_⟩
    obtain ⟨i, k, ⟨q, rfl⟩, hm⟩ := Nat.exists_eq_two_pow_mul_odd (show m ≠ 0 by omega)
    have hh : leaves.length ≤ 2 ^ leaves.length := Nat.lt_two_pow_self.le
    rw [verifyConsistency, if_neg (by omega), if_neg heq, if_neg (by omega),
      subproof_eq sha256 leaves.length m i q leaves true hm (Or.inl (by omega)) hh]
    dsimp only
    rw [← List.append_assoc, implicit_append_firstElement sha256 leaves hm,
      List.singleton_append]
    exact verifyWork_levelProof sha256 leaves hm (by omega) hh

/-- Three leaves extended to five. -/
theorem verifyConsistency_three_of_five :
    ∃ proof, consistencyProof polynomialHash 3 (List.replicate 5 (.fill 32 7)) = some proof ∧
      verifyConsistency polynomialHash 3 5
        (root polynomialHash ((List.replicate 5 (.fill 32 7)).take 3))
        (root polynomialHash (List.replicate 5 (.fill 32 7))) proof = true :=
  verifyConsistency_consistencyProof polynomialHash (List.replicate 5 (.fill 32 7)) 3
    (by decide) (by decide)

end Dante.Merkle
