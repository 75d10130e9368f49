import Dante.Proto.MerkleCompleteness

/-!
How many elements an accepted proof has. The verifier stops when the path is used up and then asks
whether the old tree's counter has reached its root, not whether the new tree's has. The length is
right exactly if the two counters reach zero at the same level.
-/

namespace Dante.Merkle

open Crypto TreeFold

variable (sha256 : Bytes → Hash)

theorem levelProof_append (leaves : List Hash) {a i k h : Nat} (hik : i ≤ k) (hkh : k ≤ h) :
    levelProof sha256 leaves a i h =
      levelProof sha256 leaves a i k ++ levelProof sha256 leaves a k h := by
  have hcount : h - i = k - i + (h - k) := by omega
  have hmid : i + (k - i) = k := by omega
  rw [levelProof, levelProof, levelProof, hcount, ← List.range'_append_1, hmid,
    List.flatMap_append]

theorem length_siblings_extend (leaves : List Hash) {a i : Nat} (heven : (a >>> i) % 2 = 0)
    (hne : a >>> i ≠ (leaves.length - 1) >>> i) :
    (siblings sha256 leaves a i).length = 1 := by
  rw [siblings, if_neg (by omega), if_neg hne]
  rfl

theorem length_siblings_join (leaves : List Hash) {a i : Nat} (hodd : (a >>> i) % 2 = 1) :
    (siblings sha256 leaves a i).length = 1 := by
  rw [siblings, if_pos hodd]
  rfl

theorem length_levelProof_join (leaves : List Hash) {a i j h : Nat} (hij : i ≤ j) (hjh : j < h)
    (hskip : SkipLevels a (leaves.length - 1) i j) (hodd : (a >>> j) % 2 = 1) :
    (levelProof sha256 leaves a i h).length =
      (levelProof sha256 leaves a (j + 1) h).length + 1 := by
  rw [levelProof_skip sha256 leaves hij hjh.le hskip, levelProof_cons sha256 leaves a j h hjh,
    List.length_append, length_siblings_join sha256 leaves hodd, Nat.add_comm]

theorem length_levelProof_extend (leaves : List Hash) {a i h : Nat} (hih : i < h)
    (heven : (a >>> i) % 2 = 0) (hne : a >>> i ≠ (leaves.length - 1) >>> i) :
    (levelProof sha256 leaves a i h).length =
      (levelProof sha256 leaves a (i + 1) h).length + 1 := by
  rw [levelProof_cons sha256 leaves a i h hih, List.length_append,
    length_siblings_extend sha256 leaves heven hne, Nat.add_comm]

/-- By induction on the path: it has one element for each sibling of the levels that the walk
has passed. -/
theorem foldlM_length (leaves : List Hash) {a : Nat} (path : List Hash) {i : Nat} {w last : Walk}
    (hw : AtLevel a (leaves.length - 1) i w)
    (hfold : path.foldlM (verifyStep sha256) w = some last) :
    ∃ k, i ≤ k ∧ AtLevel a (leaves.length - 1) k last ∧
      path.length = (levelProof sha256 leaves a i k).length := by
  induction path generalizing i w with
  | nil =>
    obtain rfl : w = last := by simpa using hfold
    exact ⟨i, le_rfl, hw, by rw [levelProof_self]⟩
  | cons c rest ih =>
    rw [List.foldlM_cons, Option.bind_eq_bind, Option.bind_eq_some_iff] at hfold
    obtain ⟨w', hstep, hrest⟩ := hfold
    obtain ⟨-, ⟨heven, hne, hw', -, -⟩ | ⟨j, hij, hskip, hodd, hw', -, -⟩⟩ :=
      verifyStep_cases sha256 hw hstep
    · obtain ⟨k, hik, hlast, hlen⟩ := ih hw' hrest
      refine ⟨k, by omega, hlast, ?_⟩
      rw [List.length_cons, hlen, length_levelProof_extend sha256 leaves (by omega) heven hne]
    · obtain ⟨k, hjk, hlast, hlen⟩ := ih hw' hrest
      refine ⟨k, by omega, hlast, ?_⟩
      rw [List.length_cons, hlen, length_levelProof_join sha256 leaves hij (by omega) hskip hodd]

/-- The counters of the two trees reach zero at the same level. -/
def TogetherAtRoot (a b : Nat) : Prop := ∀ k, a >>> k = 0 → b >>> k = 0

/-- A walk that ends at both roots has consumed the whole path of the prover. -/
theorem foldlM_length_of_root (leaves : List Hash) {a h : Nat} (ha : a < leaves.length)
    (hh : leaves.length ≤ 2 ^ h) (htogether : TogetherAtRoot a (leaves.length - 1))
    {path : List Hash} {i : Nat} {w last : Walk} (hw : AtLevel a (leaves.length - 1) i w)
    (hfold : path.foldlM (verifyStep sha256) w = some last) (hroot : last.fnode = 0) :
    path.length = (levelProof sha256 leaves a i h).length := by
  obtain ⟨k, hik, hlast, hlen⟩ := foldlM_length sha256 leaves path hw hfold
  have hzero : (leaves.length - 1) >>> k = 0 := htogether k (hlast.fnode ▸ hroot)
  have hk : leaves.length ≤ 2 ^ k := by
    have := length_le_two_pow_of_shiftRight hzero
    omega
  rw [hlen]
  -- above the higher of `h` and `k` there is no sibling, whichever that is
  rcases Nat.le_total k h with hkh | hhk
  · rw [levelProof_append sha256 leaves hik hkh, levelProof_above sha256 leaves ha hk,
      List.append_nil]
  · rcases Nat.le_total i h with hih | hhi
    · rw [levelProof_append sha256 leaves hih hhk, levelProof_above sha256 leaves ha hh,
        List.append_nil]
    · have hempty (e : Nat) : levelProof sha256 leaves a i e = [] :=
        levelProof_above sha256 leaves ha
          (hh.trans (Nat.pow_le_pow_right (by omega) hhi))
      rw [hempty, hempty]

/-- A walk can be led to the old root while the new tree's counter is still above zero. -/
theorem exists_short_path (leaves : List Hash) {a top h : Nat} (hold : a >>> top = 0)
    (hnew : (leaves.length - 1) >>> top ≠ 0) (hh : top < h) (c : Hash) {i : Nat} (hi : i ≤ top)
    (w : Walk) (hw : AtLevel a (leaves.length - 1) i w) :
    ∃ (path : List Hash) (last : Walk),
      path.foldlM (verifyStep sha256) w = some last ∧ last.fnode = 0 ∧
      path.length < (levelProof sha256 leaves a i h).length := by
  -- below `top` the new tree's counter is not zero, and the old one's is not yet
  have habove (l : Nat) (hl : l ≤ top) : (leaves.length - 1) >>> l ≠ 0 := by
    intro hzero
    obtain ⟨d, rfl⟩ := Nat.exists_eq_add_of_le hl
    exact hnew (by rw [Nat.shiftRight_add, hzero, Nat.zero_shiftRight])
  have hbelow (l : Nat) (hl : a >>> l ≠ 0) : l < top := by
    by_contra hge
    obtain ⟨d, rfl⟩ := Nat.exists_eq_add_of_le (Nat.le_of_not_lt hge)
    exact hl (by rw [Nat.shiftRight_add, hold, Nat.zero_shiftRight])
  induction hd : top - i using Nat.strong_induction_on generalizing i w with
  | _ d ih =>
    by_cases hzero : a >>> i = 0
    · refine ⟨[], w, rfl, hw.fnode.trans hzero, ?_⟩
      have hne : a >>> i ≠ (leaves.length - 1) >>> i := by
        rw [hzero]
        exact (habove i hi).symm
      rw [length_levelProof_extend sha256 leaves (by omega) (by omega) hne]
      exact Nat.succ_pos _
    · have hlt := hbelow i hzero
      rcases level_cases a (leaves.length - 1) i (habove i hi) with
        ⟨heven, hne⟩ | ⟨j, hij, hskip, hodd⟩
      · obtain ⟨w', hstep, hw'⟩ : ∃ w', verifyStep sha256 w c = some w' ∧
            AtLevel a (leaves.length - 1) (i + 1) w' :=
          ⟨_, verifyStep_extend sha256 hw (habove i hi) heven hne c, rfl, rfl⟩
        obtain ⟨path, last, hfold, hroot, hlen⟩ :=
          ih (top - (i + 1)) (by omega) (show i + 1 ≤ top from hlt) w' hw' rfl
        refine ⟨c :: path, last, ?_, hroot, ?_⟩
        · rw [List.foldlM_cons, hstep]
          exact hfold
        · rw [List.length_cons, length_levelProof_extend sha256 leaves (by omega) heven hne]
          omega
      · have hjtop : j < top := hbelow j (by omega)
        obtain ⟨w', hstep, hw'⟩ : ∃ w', verifyStep sha256 w c = some w' ∧
            AtLevel a (leaves.length - 1) (j + 1) w' :=
          ⟨_, verifyStep_join sha256 hw (habove i hi) hij hskip hodd c, rfl, rfl⟩
        obtain ⟨path, last, hfold, hroot, hlen⟩ :=
          ih (top - (j + 1)) (by omega) (show j + 1 ≤ top from hjtop) w' hw' rfl
        refine ⟨c :: path, last, ?_, hroot, ?_⟩
        · rw [List.foldlM_cons, hstep]
          exact hfold
        · rw [List.length_cons,
            length_levelProof_join sha256 leaves hij (by omega) hskip hodd]
          omega

/-- The power of two that the new tree is split at, as a level. -/
theorem exists_split_level {n : Nat} (hn : 2 ≤ n) :
    ∃ top, split n = 2 ^ top ∧ 2 ^ top < n ∧ n ≤ 2 ^ (top + 1) := by
  have hclog : 0 < Nat.clog 2 n := Nat.clog_pos (by omega) hn
  refine ⟨Nat.clog 2 n - 1, ?_, ?_, ?_⟩
  · rw [split_eq_splitPoint hn, splitPoint]
  · have hlt := split_lt hn
    rwa [split_eq_splitPoint hn, splitPoint] at hlt
  · rw [Nat.sub_add_cancel hclog]
    exact Nat.le_pow_clog (by omega) n

theorem shiftRight_eq_zero_iff {a k : Nat} : a >>> k = 0 ↔ a < 2 ^ k := by
  rw [Nat.shiftRight_eq_div_pow, Nat.div_eq_zero_iff_lt (Nat.two_pow_pos k)]

/-- The old tree reaches past the split point: both last leaves have the same top level. -/
theorem togetherAtRoot_of_split_lt {m n : Nat} (hlt : m < n) (hsplit : split n < m) :
    TogetherAtRoot (m - 1) (n - 1) := by
  obtain ⟨top, htop, -, hhigh⟩ := exists_split_level (show 2 ≤ n by omega)
  intro k hk
  rw [shiftRight_eq_zero_iff] at hk ⊢
  have hlevel : top < k := by
    by_contra hge
    have := Nat.pow_le_pow_right (show 0 < 2 by omega) (Nat.le_of_not_lt hge)
    omega
  have hpow := Nat.pow_le_pow_right (show 0 < 2 by omega) hlevel
  omega

theorem length_consistencyProof (leaves : List Hash) {m i q : Nat}
    (hm : m = 2 ^ i * (2 * q + 1)) (hlt : m < leaves.length) :
    ∃ honest, consistencyProof sha256 m leaves = some honest ∧
      honest.length = (if q = 0 then 0 else 1) +
        (levelProof sha256 leaves (m - 1) i leaves.length).length := by
  have hpos : 0 < m := lt_of_lt_of_le (Nat.two_pow_pos i) (two_pow_le_of_eq hm)
  refine ⟨subproof sha256 m leaves true, ?_, ?_⟩
  · rw [consistencyProof, if_neg (by omega), if_neg (by omega)]
  · rw [subproof_eq sha256 leaves.length m i q leaves true hm (Or.inl hlt)
      Nat.lt_two_pow_self.le, List.length_append, firstElement]
    by_cases hq : q = 0
    · simp [hq]
    · simp [hq]

theorem isPowerOfTwo_iff {m i q : Nat} (hm : m = 2 ^ i * (2 * q + 1)) :
    m.isPowerOfTwo ↔ q = 0 := by
  constructor
  · rintro ⟨h, hh⟩
    exact two_pow_mul_odd_eq (hm ▸ hh)
  · rintro rfl
    exact ⟨i, by rw [hm]; omega⟩

/-- What an accepted proof of a proper extension looks like: a first element, which is the old
root and not part of the proof for a power of two, and a walk to the old root. -/
theorem verifyConsistency_eq_true {m n i q : Nat} (hm : m = 2 ^ i * (2 * q + 1)) (hlt : m < n)
    {oldRoot newRoot : Hash} {proof : List Hash} :
    verifyConsistency sha256 m n oldRoot newRoot proof = true ↔
      ∃ first rest last, (if q = 0 then [oldRoot] else []) ++ proof = first :: rest ∧
        rest.foldlM (verifyStep sha256)
          { fnode := 2 * q, snode := (n - 1) >>> i, fr := first, sr := first } = some last ∧
        last.fnode = 0 ∧ last.fr = oldRoot ∧ last.sr = newRoot := by
  have hpos : 0 < m := lt_of_lt_of_le (Nat.two_pow_pos i) (two_pow_le_of_eq hm)
  obtain ⟨-, hskip⟩ := skipOdd_start hm (n - 1)
  rw [verifyConsistency, if_neg (by omega), if_neg (by omega), if_neg (by omega)]
  simp only [isPowerOfTwo_iff hm]
  generalize (if q = 0 then [oldRoot] else []) ++ proof = work
  cases work with
  | nil => simp
  | cons first rest =>
    simp only [verifyWork, hskip, List.cons.injEq]
    generalize hfold : rest.foldlM (verifyStep sha256)
      { fnode := 2 * q, snode := (n - 1) >>> i, fr := first, sr := first } = result
    constructor
    · intro haccept
      cases result with
      | none => cases haccept
      | some last =>
        simp only [Bool.and_eq_true, decide_eq_true_eq] at haccept
        exact ⟨first, rest, last, ⟨rfl, rfl⟩, hfold, haccept.1.1, haccept.1.2, haccept.2⟩
    · rintro ⟨_, _, last, ⟨rfl, rfl⟩, hlast, hroot, hfr, hsr⟩
      obtain rfl : result = some last := hfold.symm.trans hlast
      simp [hroot, hfr, hsr]

/-- Every accepted proof has the length of the prover's, if and only if the old tree extends
into the right half of the new one. -/
theorem accepted_length_iff {m n : Nat} (hpos : 0 < m) (hlt : m < n) :
    (∀ (oldRoot newRoot : Hash) (proof : List Hash),
      verifyConsistency sha256 m n oldRoot newRoot proof = true →
      ∀ leaves : List Hash, leaves.length = n →
        ∃ honest, consistencyProof sha256 m leaves = some honest ∧
          proof.length = honest.length) ↔ split n < m := by
  obtain ⟨i, k, ⟨q, rfl⟩, hm⟩ := Nat.exists_eq_two_pow_mul_odd (show m ≠ 0 by omega)
  have hnode := (skipOdd_start hm (n - 1)).1
  constructor
  · intro hall
    by_contra hle
    -- a tree that ends in the left half: lead the walk to the old root and stop there
    obtain ⟨top, htop, hlow, -⟩ := exists_split_level (show 2 ≤ n by omega)
    have hi : i ≤ top := by
      have := two_pow_le_of_eq hm
      exact (Nat.pow_le_pow_iff_right (show 1 < 2 by omega)).mp (by omega)
    have hlen : (List.replicate n (ByteArr.fill 32 0 : Hash)).length = n := List.length_replicate
    have hold : (m - 1) >>> top = 0 := shiftRight_eq_zero_iff.mpr (by omega)
    have hnew : ((List.replicate n (ByteArr.fill 32 0 : Hash)).length - 1) >>> top ≠ 0 := by
      rw [hlen, Ne, shiftRight_eq_zero_iff]
      omega
    have htop : top < n := Nat.lt_two_pow_self.trans hlow
    obtain ⟨path, last, hfold, hroot, hshort⟩ := exists_short_path sha256
      (List.replicate n (.fill 32 0)) hold hnew htop (.fill 32 0) hi
      { fnode := 2 * q, snode := (n - 1) >>> i, fr := .fill 32 0, sr := .fill 32 0 }
      ⟨hnode.symm, by rw [hlen]⟩
    obtain ⟨honest, hhonest, hlength⟩ := length_consistencyProof sha256
      (List.replicate n (.fill 32 0)) hm (by rw [hlen]; exact hlt)
    rw [hlen] at hlength
    -- the old root is the first element already, or one is put in front of the path
    obtain ⟨oldRoot, newRoot, proof, haccept, hproof⟩ : ∃ oldRoot newRoot proof,
        verifyConsistency sha256 m n oldRoot newRoot proof = true ∧
        proof.length < honest.length := by
      by_cases hq : q = 0
      · refine ⟨.fill 32 0, .fill 32 0, [], ?_, ?_⟩
        · rw [verifyConsistency_eq_true sha256 hm hlt, if_pos hq]
          exact ⟨_, [], _, rfl, rfl, by rw [hq], rfl, rfl⟩
        · rw [List.length_nil]
          omega
      · refine ⟨last.fr, last.sr, .fill 32 0 :: path, ?_, ?_⟩
        · rw [verifyConsistency_eq_true sha256 hm hlt, if_neg hq]
          exact ⟨_, path, last, rfl, hfold, hroot, rfl, rfl⟩
        · rw [hlength, if_neg hq, List.length_cons]
          omega
    obtain ⟨honest', hhonest', hsame⟩ := hall oldRoot newRoot proof haccept _ hlen
    obtain rfl : honest = honest' := Option.some.inj (hhonest.symm.trans hhonest')
    omega
  · intro hsplit oldRoot newRoot proof haccept leaves hlen
    subst hlen
    obtain ⟨first, rest, last, hwork, hfold, hroot, -, -⟩ :=
      (verifyConsistency_eq_true sha256 hm hlt).mp haccept
    obtain ⟨honest, hhonest, hlength⟩ := length_consistencyProof sha256 leaves hm hlt
    refine ⟨honest, hhonest, ?_⟩
    have hrest := foldlM_length_of_root sha256 leaves (a := m - 1) (by omega)
      Nat.lt_two_pow_self.le (togetherAtRoot_of_split_lt hlt hsplit) ⟨hnode.symm, rfl⟩ hfold hroot
    have htotal := congrArg List.length hwork
    rw [List.length_append, List.length_cons] at htotal
    rw [hlength]
    by_cases hq : q = 0
    · simp only [hq, if_true, List.length_singleton] at htotal ⊢
      omega
    · simp only [hq, if_false, List.length_nil] at htotal ⊢
      omega

/-- Three leaves of four: the proof of the old size 3 has to have three elements. -/
theorem accepted_length_three_of_four :
    split 4 < 3 ∧ ∀ (oldRoot newRoot : Hash) (proof : List Hash),
      verifyConsistency polynomialHash 3 4 oldRoot newRoot proof = true →
      ∀ leaves : List Hash, leaves.length = 4 →
        ∃ honest, consistencyProof polynomialHash 3 leaves = some honest ∧
          proof.length = honest.length :=
  have hsplit : split 4 < 3 := by decide
  ⟨hsplit, (accepted_length_iff polynomialHash (by decide) (by decide)).mpr hsplit⟩

/-- The empty proof, which only shows the first leaf again, is taken for a proof about three
leaves; the prover's proof has two elements. -/
theorem truncated_proof_accepted :
    verifyConsistency polynomialHash 1 3 (.fill 32 7) (.fill 32 7) [] = true ∧
      ∃ honest, consistencyProof polynomialHash 1 (List.replicate 3 (.fill 32 7)) = some honest ∧
        honest.length = 2 := by
  refine ⟨(verifyConsistency_eq_true polynomialHash (m := 1) (n := 3) (i := 0) (q := 0) rfl
    (by decide)).mpr ⟨_, [], _, rfl, rfl, rfl, rfl, rfl⟩, ?_⟩
  obtain ⟨honest, hhonest, hlength⟩ := length_consistencyProof polynomialHash
    (List.replicate 3 (.fill 32 7)) (m := 1) (i := 0) (q := 0) rfl (by decide)
  exact ⟨honest, hhonest, by rw [hlength]; rfl⟩

end Dante.Merkle
