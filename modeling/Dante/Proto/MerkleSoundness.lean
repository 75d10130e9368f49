import Dante.Proto.MerkleCompleteness

/-!
A proof list that the verifier accepts shows that the new tree extends the old one, whatever the
list is. The final comparison is taken back down the levels: a round that ends with the tree hashes
of two blocks started with the tree hashes of their halves, as hashing is injective on its inputs.

The verifier only checks `fnode == 0` at its end, so a list that stops below the new root is refused
by the hash itself: leaf and node hashes never coincide, and the left spines have different lengths.
-/

namespace Dante.Merkle

open Crypto TreeFold

variable {sha256 : Bytes → Hash} {S : Set (Hash × Hash)}

section Inputs

variable (sha256 : Bytes → Hash)

def leafInput (entry : Bytes) : Bytes := 0x00 :: entry

def nodeInput (pair : Hash × Hash) : Bytes := 0x01 :: (pair.1.toList ++ pair.2.toList)

theorem leafHash_eq (entry : Bytes) : leafHash sha256 entry = sha256 (leafInput entry) := by
  simp [leafHash, sha256Parts, leafInput]

theorem nodeHash_eq (pair : Hash × Hash) :
    Function.uncurry (nodeHash sha256) pair = sha256 (nodeInput pair) := by
  simp [Function.uncurry, nodeHash, sha256Parts, nodeInput]

theorem nodeInput_injective {left right : Hash × Hash}
    (heq : nodeInput left = nodeInput right) : left = right := by
  obtain ⟨hfst, hrest⟩ := ByteArr.append_injective (List.cons.inj heq).2
  exact Prod.ext hfst (ByteArr.toList_injective hrest)

/-- The pairs hashed by one round of the verifier. -/
def stepPairs (w : Walk) (c : Hash) : List (Hash × Hash) :=
  if w.snode = 0 then
    []
  else if w.fnode &&& 1 = 1 ∨ w.fnode = w.snode then
    [(c, w.fr), (c, w.sr)]
  else
    [(w.sr, c)]

/-- The pairs hashed by the verifier's loop, up to the round that refuses. -/
def walkPairs : Walk → List Hash → List (Hash × Hash)
  | _, [] => []
  | w, c :: rest =>
    stepPairs w c ++
      match verifyStep sha256 w c with
      | none => []
      | some w' => walkPairs w' rest

def verifierPairs (oldSize newSize : Nat) (oldRoot : Hash) (proof : List Hash) :
    List (Hash × Hash) :=
  match (if oldSize.isPowerOfTwo then [oldRoot] else []) ++ proof with
  | [] => []
  | first :: rest =>
    let nodes := skipOdd (oldSize - 1) (newSize - 1)
    walkPairs sha256 { fnode := nodes.1, snode := nodes.2, fr := first, sr := first } rest

def rootPairs (leaves : List Hash) : List (Hash × Hash) :=
  pairs (nodeHash sha256) (emptyRoot sha256) leaves

/-- Every input that is hashed while the two trees are built over their entries
and the proof is checked. -/
def consistencyInputs (olds news : List Bytes) (proof : List Hash) : List Bytes :=
  let old := olds.map (leafHash sha256)
  let new := news.map (leafHash sha256)
  (olds ++ news).map leafInput ++
    (rootPairs sha256 old ++ rootPairs sha256 new ++
      verifierPairs sha256 old.length new.length (root sha256 old) proof).map nodeInput

end Inputs

/-- What collision freedom gives for the pairs `S` and the leaf hashes `leaf`
that occur: nodes can be opened, and no node is a leaf. -/
structure Separated (sha256 : Bytes → Hash) (S : Set (Hash × Hash)) (leaf : Set Hash) :
    Prop where
  inj : Set.InjOn (Function.uncurry (nodeHash sha256)) S
  sep : ∀ p ∈ S, Function.uncurry (nodeHash sha256) p ∉ leaf

theorem separated_of_collisionFree (sha256 : Bytes → Hash) (entries : List Bytes)
    (hashed : List (Hash × Hash))
    (hfree : CollisionFree sha256 (entries.map leafInput ++ hashed.map nodeInput)) :
    Separated sha256 {p | p ∈ hashed} {x | x ∈ entries.map (leafHash sha256)} where
  inj := by
    intro p hp q hq heq
    rw [nodeHash_eq, nodeHash_eq] at heq
    exact nodeInput_injective
      (hfree _ (List.mem_append_right _ (List.mem_map_of_mem hp)) _
        (List.mem_append_right _ (List.mem_map_of_mem hq)) heq)
  sep := by
    intro p hp hleaf
    obtain ⟨entry, hentry, heq⟩ := List.mem_map.mp hleaf
    rw [nodeHash_eq, leafHash_eq] at heq
    have hinput := hfree _ (List.mem_append_left _ (List.mem_map_of_mem hentry)) _
      (List.mem_append_right _ (List.mem_map_of_mem hp)) heq
    -- the first bytes are 0x00 and 0x01
    have hbyte := (List.cons.inj hinput).1
    exact absurd hbyte (by decide)

section Run

variable {sha256 : Bytes → Hash} {a b : Nat} {S : Set (Hash × Hash)}

/-- A run of the verifier's loop from level `i` and the hashes `fr` and `sr` to
the final state, every pair hashed on the way being in `S`. -/
inductive Run (sha256 : Bytes → Hash) (a b : Nat) (S : Set (Hash × Hash)) :
    Nat → Hash → Hash → Walk → Prop
  | done {i : Nat} {w : Walk} (hw : AtLevel a b i w) : Run sha256 a b S i w.fr w.sr w
  | extend {i : Nat} {fr sr c : Hash} {last : Walk} (heven : (a >>> i) % 2 = 0)
      (hne : a >>> i ≠ b >>> i) (hnew : (sr, c) ∈ S)
      (hrest : Run sha256 a b S (i + 1) fr (nodeHash sha256 sr c) last) :
      Run sha256 a b S i fr sr last
  | join {i j : Nat} {fr sr c : Hash} {last : Walk} (hij : i ≤ j)
      (hskip : SkipLevels a b i j) (hodd : (a >>> j) % 2 = 1) (hold : (c, fr) ∈ S)
      (hnew : (c, sr) ∈ S)
      (hrest : Run sha256 a b S (j + 1) (nodeHash sha256 c fr) (nodeHash sha256 c sr) last) :
      Run sha256 a b S i fr sr last

theorem stepPairs_extend {i : Nat} {w : Walk} (hw : AtLevel a b i w) (hb : b >>> i ≠ 0)
    (heven : (a >>> i) % 2 = 0) (hne : a >>> i ≠ b >>> i) (c : Hash) :
    stepPairs w c = [(w.sr, c)] := by
  rw [stepPairs, hw.fnode, hw.snode, if_neg hb, Nat.and_one_is_mod]
  simp [heven, hne]

theorem stepPairs_join {i j : Nat} {w : Walk} (hw : AtLevel a b i w) (hb : b >>> i ≠ 0)
    (hij : i ≤ j) (hskip : SkipLevels a b i j) (hodd : (a >>> j) % 2 = 1) (c : Hash) :
    stepPairs w c = [(c, w.fr), (c, w.sr)] := by
  rw [stepPairs, hw.fnode, hw.snode, if_neg hb, Nat.and_one_is_mod, if_pos]
  rcases Nat.eq_or_lt_of_le hij with heq | hlt
  · exact Or.inl (heq ▸ hodd)
  · exact Or.inr (hskip i le_rfl hlt).2

theorem run_of_foldlM (proof : List Hash) (i : Nat) (w last : Walk) (hw : AtLevel a b i w)
    (hpairs : ∀ p ∈ walkPairs sha256 w proof, p ∈ S)
    (hfold : proof.foldlM (verifyStep sha256) w = some last) :
    Run sha256 a b S i w.fr w.sr last := by
  induction proof generalizing i w with
  | nil =>
    cases hfold
    exact .done hw
  | cons c rest ih =>
    rw [List.foldlM_cons] at hfold
    obtain ⟨w', hstep, hrest⟩ := Option.bind_eq_some_iff.mp hfold
    rw [walkPairs, hstep] at hpairs
    have hrestPairs : ∀ p ∈ walkPairs sha256 w' rest, p ∈ S :=
      fun p hp => hpairs p (List.mem_append_right _ hp)
    obtain ⟨hb, ⟨heven, hne, hw', hfr, hsr⟩ | ⟨j, hij, hskip, hodd, hw', hfr, hsr⟩⟩ :=
      verifyStep_cases sha256 hw hstep
    · rw [stepPairs_extend hw hb heven hne] at hpairs
      have hrun := ih (i + 1) w' hw' hrestPairs hrest
      rw [hfr, hsr] at hrun
      exact .extend heven hne (hpairs _ (by simp)) hrun
    · rw [stepPairs_join hw hb hij hskip hodd] at hpairs
      have hrun := ih (j + 1) w' hw' hrestPairs hrest
      rw [hfr, hsr] at hrun
      exact .join hij hskip hodd (hpairs _ (by simp)) (hpairs _ (by simp)) hrun

end Run

/-- The pairs and the leaves of a tree are among those that occur. -/
structure Covers (sha256 : Bytes → Hash) (S : Set (Hash × Hash)) (leaf : Set Hash)
    (leaves : List Hash) : Prop where
  pairs : ∀ p ∈ rootPairs sha256 leaves, p ∈ S
  leaves : ∀ x ∈ leaves, x ∈ leaf

section Spine

variable {sha256 : Bytes → Hash} {S : Set (Hash × Hash)} {leaf : Set Hash}

theorem leftSpine_root {leaves : List Hash} (hne : leaves ≠ [])
    (hcov : Covers sha256 S leaf leaves) :
    LeftSpine (nodeHash sha256) S leaf (Nat.clog 2 leaves.length) (root sha256 leaves) := by
  rw [root_eq_fold]
  exact leftSpine_fold _ _ S leaf leaves hne hcov.leaves hcov.pairs

theorem Covers.block {leaves : List Hash} (hcov : Covers sha256 S leaf leaves) (i x : Nat)
    (hx : x * 2 ^ i < leaves.length) : Covers sha256 S leaf (block leaves i x) where
  pairs p hp := hcov.pairs p (pairs_block_subset _ _ leaves i x hx p hp)
  leaves y hy := hcov.leaves y (List.mem_of_mem_drop (List.mem_of_mem_take hy))

/-- Opening the tree hash of a block that has a right half. -/
theorem Separated.open_block (hsep : Separated sha256 S leaf) {leaves : List Hash}
    (hcov : Covers sha256 S leaf leaves) {i x : Nat} {l r : Hash}
    (hright : (2 * x + 1) * 2 ^ i < leaves.length) (hpair : (l, r) ∈ S)
    (heq : nodeHash sha256 l r = root sha256 (TreeFold.block leaves (i + 1) x)) :
    l = root sha256 (TreeFold.block leaves i (2 * x)) ∧
      r = root sha256 (TreeFold.block leaves i (2 * x + 1)) := by
  rw [root_block sha256 leaves i x hright] at heq
  have hmem := join_mem_pairs (nodeHash sha256) (emptyRoot sha256) leaves i x hright
  rw [← root_eq_fold, ← root_eq_fold] at hmem
  exact Prod.mk.inj (hsep.inj hpair (hcov.pairs _ hmem) heq)

/-- Two covered trees of one size with one tree hash have the same leaves. -/
theorem Separated.root_injective (hsep : Separated sha256 S leaf) {xs ys : List Hash}
    (hlen : xs.length = ys.length) (hxs : Covers sha256 S leaf xs)
    (hys : Covers sha256 S leaf ys) (heq : root sha256 xs = root sha256 ys) : xs = ys := by
  rw [root_eq_fold, root_eq_fold] at heq
  exact fold_injective _ _ S hsep.inj xs ys hlen hxs.pairs hys.pairs heq

theorem Separated.block_injective (hsep : Separated sha256 S leaf) {xs ys : List Hash}
    (hxs : Covers sha256 S leaf xs) (hys : Covers sha256 S leaf ys) {i x : Nat}
    (hxfull : (x + 1) * 2 ^ i ≤ xs.length) (hyfull : (x + 1) * 2 ^ i ≤ ys.length)
    (heq : root sha256 (TreeFold.block xs i x) = root sha256 (TreeFold.block ys i x)) :
    TreeFold.block xs i x = TreeFold.block ys i x := by
  have hinside : x * 2 ^ i < (x + 1) * 2 ^ i :=
    Nat.mul_lt_mul_of_pos_right (Nat.lt_succ_self x) (Nat.two_pow_pos i)
  refine hsep.root_injective ?_ (hxs.block i x (by omega)) (hys.block i x (by omega)) heq
  rw [block_length_full xs i x hxfull, block_length_full ys i x hyfull]

/-- An accepted run ends at the level to which the left spine of its new hash
reaches. Once the walk has passed the last old leaf's topmost odd node, the old
hash is the old root, and this fixes the left child of both hashes. -/
theorem Run.leftSpine (hsep : Separated sha256 S leaf) {old : List Hash} {b i : Nat}
    {fr sr : Hash} {last : Walk} (hcov : Covers sha256 S leaf old) (hold : old ≠ [])
    (hrun : Run sha256 (old.length - 1) b S i fr sr last) (hfnode : last.fnode = 0)
    (hfr : last.fr = root sha256 old)
    (hstart : (old.length - 1) >>> i = 0 → fr = root sha256 old →
      LeftSpine (nodeHash sha256) S leaf i sr) :
    ∃ e, AtLevel (old.length - 1) b e last ∧ LeftSpine (nodeHash sha256) S leaf e last.sr := by
  have hpos : 0 < old.length := List.length_pos_iff.mpr hold
  induction hrun with
  | @done i w hw => exact ⟨i, hw, hstart (hw.fnode.symm.trans hfnode) hfr⟩
  | @extend i fr sr c last heven hne hnew hrest ih =>
    refine ih hfnode hfr (fun hzero hroot => ?_)
    have hnode : (old.length - 1) >>> i = 0 := by
      rw [Nat.shiftRight_succ] at hzero
      omega
    exact .node hnew (hstart hnode hroot)
  | @join i j fr sr c last hij hskip hodd hpair hnew hrest ih =>
    refine ih hfnode hfr (fun hzero hroot => .node hnew ?_)
    obtain ⟨hright, -⟩ := standing_join old (a := old.length - 1) (by omega) hodd
    rw [hzero] at hright
    have hwhole : TreeFold.block old (j + 1) 0 = old := by
      apply block_zero
      have := length_le_two_pow_of_shiftRight hzero
      omega
    have hopen := (hsep.open_block hcov hright hpair (by rw [hwhole]; exact hroot)).1
    have hfull := block_length_full old j (2 * 0) hright.le
    have hne : TreeFold.block old j (2 * 0) ≠ [] := by
      intro hnil
      rw [hnil] at hfull
      exact absurd hfull (Nat.two_pow_pos j).ne
    have hspine := leftSpine_root hne (hcov.block j (2 * 0) (by simpa using hpos))
    rw [hfull, Nat.clog_pow 2 j (by omega), ← hopen] at hspine
    exact hspine

/-- An accepted run that reaches the new root, taken back to level `i`: its hashes
are the tree hashes of the blocks it stood at, and left of them the two trees
have the same leaves. -/
theorem Run.standing (hsep : Separated sha256 S leaf) {old new : List Hash} {i : Nat}
    {fr sr : Hash} {last : Walk} (hcovOld : Covers sha256 S leaf old)
    (hcovNew : Covers sha256 S leaf new) (hold : old ≠ []) (hle : old.length ≤ new.length)
    (hrun : Run sha256 (old.length - 1) (new.length - 1) S i fr sr last)
    (hfnode : last.fnode = 0) (hsnode : last.snode = 0)
    (hfr : last.fr = root sha256 old) (hsr : last.sr = root sha256 new) :
    fr = root sha256 (Merkle.standing old (old.length - 1) i) ∧
      sr = root sha256 (Merkle.standing new (old.length - 1) i) ∧
      old.take (((old.length - 1) >>> i) * 2 ^ i) =
        new.take (((old.length - 1) >>> i) * 2 ^ i) := by
  have hpos : 0 < old.length := List.length_pos_iff.mpr hold
  induction hrun with
  | @done i w hw =>
    have hzero := hw.fnode.symm.trans hfnode
    have hlast := length_le_two_pow_of_shiftRight (hw.snode.symm.trans hsnode)
    rw [Merkle.standing, Merkle.standing, hzero, block_zero old i (by omega),
      block_zero new i (by omega), Nat.zero_mul]
    exact ⟨hfr, hsr, rfl⟩
  | @extend i fr sr c last heven hne hnew hrest ih =>
    obtain ⟨hfr', hsr', htake⟩ := ih hfnode hsnode hfr hsr
    obtain ⟨hblock, hindex⟩ :=
      standing_skip_last old (Nat.le_succ i) (SkipLevels.single heven)
    obtain ⟨hright, hhalf⟩ := standing_extend new (b := new.length - 1) (by omega)
      (by omega) heven hne
    refine ⟨hblock ▸ hfr', ?_, hindex ▸ htake⟩
    have hopen := (hsep.open_block hcovNew hright hnew hsr').1
    rwa [hhalf] at hopen
  | @join i j fr sr c last hij hskip hodd hpair hnew hrest ih =>
    obtain ⟨hfr', hsr', htake⟩ := ih hfnode hsnode hfr hsr
    obtain ⟨hright, hhalf⟩ := standing_join old (a := old.length - 1) (by omega) hodd
    obtain ⟨hcOld, hfrOld⟩ := hsep.open_block hcovOld hright hpair hfr'
    obtain ⟨hcNew, hsrNew⟩ := hsep.open_block hcovNew (by omega) hnew hsr'
    obtain ⟨hblockOld, hindex⟩ := standing_skip_last old hij hskip.self
    obtain ⟨hblockNew, -⟩ := standing_skip_last new hij hskip
    rw [hhalf] at hfrOld hsrNew
    refine ⟨hblockOld ▸ hfrOld, hblockNew ▸ hsrNew, ?_⟩
    -- the element of the proof is the left sibling of both trees
    have hsibling := hsep.block_injective hcovOld hcovNew hright.le (hright.le.trans hle)
      (hcOld.symm.trans hcNew)
    have hlevel : (old.length - 1) >>> (j + 1) * 2 ^ (j + 1) =
        2 * ((old.length - 1) >>> (j + 1)) * 2 ^ j := by ring
    rw [hlevel] at htake
    rw [← hindex, ← hhalf, take_succ_mul, take_succ_mul, htake, hsibling]

end Spine

/-- What the verifier's loop has seen when it accepts a proper extension: it ran
from the last full block of the old tree to both roots. -/
theorem verifyWork_run {m n i q : Nat} {oldRoot newRoot first : Hash} {rest : List Hash}
    (hm : m = 2 ^ i * (2 * q + 1))
    (hpairs : ∀ p ∈ walkPairs sha256
      { fnode := 2 * q, snode := (n - 1) >>> i, fr := first, sr := first } rest, p ∈ S)
    (haccept : verifyWork sha256 m n oldRoot newRoot first rest = true) :
    ∃ last, Run sha256 (m - 1) (n - 1) S i first first last ∧ last.fnode = 0 ∧
      last.fr = oldRoot ∧ last.sr = newRoot := by
  obtain ⟨hnode, hskip⟩ := skipOdd_start hm (n - 1)
  unfold verifyWork at haccept
  simp only [hskip] at haccept
  split at haccept
  · cases haccept
  · rename_i last hfold
    simp only [Bool.and_eq_true, decide_eq_true_eq] at haccept
    obtain ⟨⟨hfnode, hfr⟩, hsr⟩ := haccept
    exact ⟨last, run_of_foldlM rest i _ last ⟨hnode.symm, rfl⟩ hpairs hfold, hfnode, hfr, hsr⟩

/-- An accepted run from the last full block of the old tree. -/
theorem Run.take_eq {leaf : Set Hash} (hsep : Separated sha256 S leaf) {old new : List Hash}
    {i q : Nat} {first : Hash} {last : Walk} (hcovOld : Covers sha256 S leaf old)
    (hcovNew : Covers sha256 S leaf new) (hm : old.length = 2 ^ i * (2 * q + 1))
    (hle : old.length ≤ new.length)
    (hrun : Run sha256 (old.length - 1) (new.length - 1) S i first first last)
    (hfnode : last.fnode = 0) (hfr : last.fr = root sha256 old) (hsr : last.sr = root sha256 new) :
    old = new.take old.length := by
  have hpos : 0 < old.length := lt_of_lt_of_le (Nat.two_pow_pos i) (two_pow_le_of_eq hm)
  have hold : old ≠ [] := List.length_pos_iff.mp hpos
  have hnode := (skipOdd_start hm 0).1
  obtain ⟨e, hlevel, hspine⟩ := hrun.leftSpine hsep hcovOld hold hfnode hfr (by
    intro hzero hroot
    have hq : q = 0 := by omega
    have hpow : old.length = 2 ^ i := by rw [hm, hq]; omega
    have hspine := leftSpine_root hold hcovOld
    rwa [hpow, Nat.clog_pow 2 i (by omega), ← hroot] at hspine)
  -- the level reached is the height of the new tree
  have hheight : e = Nat.clog 2 new.length := by
    rw [hsr] at hspine
    exact hspine.unique hsep.inj hsep.sep
      (leftSpine_root (List.length_pos_iff.mp (by omega)) hcovNew)
  have hsnode : last.snode = 0 := by
    rw [hlevel.snode, hheight, Nat.shiftRight_eq_div_pow]
    apply Nat.div_eq_of_lt
    have := Nat.le_pow_clog (b := 2) (by omega) new.length
    omega
  obtain ⟨hfirstOld, hfirstNew, htake⟩ :=
    hrun.standing hsep hcovOld hcovNew hold hle hfnode hsnode hfr hsr
  rw [Merkle.standing, hnode] at hfirstOld hfirstNew
  rw [hnode] at htake
  have hend : (2 * q + 1) * 2 ^ i = old.length := by rw [hm, Nat.mul_comm]
  have hblock := hsep.block_injective hcovOld hcovNew hend.le (hend.le.trans hle)
    (hfirstOld.symm.trans hfirstNew)
  calc
    old = old.take ((2 * q + 1) * 2 ^ i) := by rw [hend, List.take_length]
    _ = new.take ((2 * q + 1) * 2 ^ i) := by
      rw [take_succ_mul, take_succ_mul, htake, hblock]
    _ = new.take old.length := by rw [hend]

theorem eq_take_of_separated {leaf : Set Hash} (hsep : Separated sha256 S leaf)
    (old new : List Hash) (proof : List Hash) (hcovOld : Covers sha256 S leaf old)
    (hcovNew : Covers sha256 S leaf new)
    (hverifier : ∀ p ∈ verifierPairs sha256 old.length new.length (root sha256 old) proof, p ∈ S)
    (haccept : verifyConsistency sha256 old.length new.length (root sha256 old)
      (root sha256 new) proof = true) : old = new.take old.length := by
  have hgt : ¬ old.length > new.length := by
    intro hgt
    rw [verifyConsistency, if_pos hgt] at haccept
    cases haccept
  by_cases heq : old.length = new.length
  · rw [verifyConsistency, if_neg hgt, if_pos heq, Bool.and_eq_true, decide_eq_true_eq] at haccept
    rw [heq, List.take_length]
    exact hsep.root_injective heq hcovOld hcovNew haccept.2
  by_cases hzero : old.length = 0
  · rw [hzero, List.take_zero]
    exact List.length_eq_zero_iff.mp hzero
  · rw [verifyConsistency, if_neg hgt, if_neg heq, if_neg hzero] at haccept
    obtain ⟨i, k, ⟨q, rfl⟩, hm⟩ := Nat.exists_eq_two_pow_mul_odd hzero
    unfold verifierPairs at hverifier
    dsimp only at haccept
    split at haccept
    · cases haccept
    · rename_i first rest hwork
      rw [hwork] at hverifier
      simp only [(skipOdd_start hm (new.length - 1)).2] at hverifier
      obtain ⟨last, hrun, hfnode, hfr, hsr⟩ := verifyWork_run hm hverifier haccept
      exact hrun.take_eq hsep hcovOld hcovNew hm (by omega) hfnode hfr hsr

/-- Split-view soundness: whatever the proof list is, an accepted new tree starts
with the leaves of the old one. -/
theorem eq_take_of_verifyConsistency (sha256 : Bytes → Hash) (olds news : List Bytes)
    (proof : List Hash) (hfree : CollisionFree sha256 (consistencyInputs sha256 olds news proof))
    (haccept : verifyConsistency sha256 olds.length news.length
      (root sha256 (olds.map (leafHash sha256))) (root sha256 (news.map (leafHash sha256)))
      proof = true) :
    olds.map (leafHash sha256) = (news.map (leafHash sha256)).take olds.length := by
  have hsep := separated_of_collisionFree sha256 (olds ++ news) _ hfree
  have hlenOld : (olds.map (leafHash sha256)).length = olds.length := List.length_map _
  have hlenNew : (news.map (leafHash sha256)).length = news.length := List.length_map _
  rw [← hlenOld, ← hlenNew] at haccept
  have htake := eq_take_of_separated hsep _ _ proof
    ⟨fun p hp => by simp [hp], fun x hx => by simp_all⟩
    ⟨fun p hp => by simp [hp], fun x hx => by simp_all⟩
    (fun p hp => List.mem_append_right _ hp) haccept
  rwa [hlenOld] at htake

/-- Two entries extended to three, checked with the stand-in hash. -/
theorem eq_take_two_of_three :
    [[1], [2]].map (leafHash polynomialHash) =
      ([[1], [2], [3]].map (leafHash polynomialHash)).take 2 :=
  eq_take_of_verifyConsistency polynomialHash [[1], [2]] [[1], [2], [3]]
    [leafHash polynomialHash [3]] (by decide +kernel) (by decide +kernel)

end Dante.Merkle
