import Dante.Proto.MerkleSoundness

/-!
Audit paths. The prover lists the tree hashes beside the way down to a leaf, from the leaf's sibling
outward; the verifier rebuilds the tree hash from the far end and compares it. Both open a tree at
the same split point, and both directions are an induction on the size.
-/

namespace Dante.Merkle

open Crypto TreeFold

section Model

variable (sha256 : Bytes → Hash)

/-- The audit path of the leaf at `index`; `none` if the index is out of range. -/
def inclusionProof (index : Nat) (leaves : List Hash) : Option (List Hash) :=
  if _hrange : index ≥ leaves.length then
    none
  else if _hone : leaves.length = 1 then
    some []
  else
    let k := split leaves.length
    if index < k then do
      let path ← inclusionProof index (leaves.take k)
      return path ++ [root sha256 (leaves.drop k)]
    else do
      let path ← inclusionProof (index - k) (leaves.drop k)
      return path ++ [root sha256 (leaves.take k)]
termination_by leaves.length
decreasing_by
  · have hlt := split_lt (n := leaves.length) (by omega)
    simp only [List.length_take]
    omega
  · have hpos := split_pos (n := leaves.length) (by omega)
    simp only [List.length_drop]
    omega

/-- The tree hash that a leaf and its path lead to. The path is consumed from its end. -/
def rootFromInclusion (index size : Nat) (leaf : Hash) (path : List Hash) : Option Hash :=
  if _hrange : size = 0 ∨ index ≥ size then
    none
  else if _hone : size = 1 then
    if path.isEmpty then some leaf else none
  else do
    let last ← path.getLast?
    let rest := path.dropLast
    let k := split size
    if index < k then
      let left ← rootFromInclusion index k leaf rest
      return nodeHash sha256 left last
    else
      let right ← rootFromInclusion (index - k) (size - k) leaf rest
      return nodeHash sha256 last right
termination_by size
decreasing_by
  · exact split_lt (by omega)
  · have hpos := split_pos (n := size) (by omega)
    omega

def verifyInclusion (index size : Nat) (leaf : Hash) (path : List Hash) (expectedRoot : Hash) :
    Bool :=
  rootFromInclusion sha256 index size leaf path = some expectedRoot

/-- The pairs that the verifier hashes. -/
def inclusionPairs (index size : Nat) (leaf : Hash) (path : List Hash) : List (Hash × Hash) :=
  if _hrange : size = 0 ∨ index ≥ size then
    []
  else if _hone : size = 1 then
    []
  else
    match path.getLast? with
    | none => []
    | some last =>
      let rest := path.dropLast
      let k := split size
      if index < k then
        (rootFromInclusion sha256 index k leaf rest).toList.map (·, last) ++
          inclusionPairs index k leaf rest
      else
        (rootFromInclusion sha256 (index - k) (size - k) leaf rest).toList.map (last, ·) ++
          inclusionPairs (index - k) (size - k) leaf rest
termination_by size
decreasing_by
  · exact split_lt (by omega)
  · have hpos := split_pos (n := size) (by omega)
    omega

/-- Every node input that is hashed while the tree is built over its leaves and the path
is checked. -/
def inclusionInputs (index : Nat) (leaves : List Hash) (leaf : Hash) (path : List Hash) :
    List Bytes :=
  (rootPairs sha256 leaves ++ inclusionPairs sha256 index leaves.length leaf path).map nodeInput

end Model

section Steps

variable {sha256 : Bytes → Hash} {index size : Nat} {leaf : Hash} {leaves path : List Hash}

theorem root_singleton : root sha256 [leaf] = leaf := by
  rw [root_eq_fold, fold_singleton]

theorem root_split (hlen : 2 ≤ leaves.length) :
    root sha256 leaves = nodeHash sha256 (root sha256 (leaves.take (split leaves.length)))
      (root sha256 (leaves.drop (split leaves.length))) := by
  rw [root, if_neg (by omega), dif_neg (by omega)]

theorem inclusionProof_one (hlen : leaves.length = 1) (hindex : index < leaves.length) :
    inclusionProof sha256 index leaves = some [] := by
  rw [inclusionProof, dif_neg (by omega), dif_pos hlen]

theorem inclusionProof_left (hlen : 2 ≤ leaves.length) (hindex : index < split leaves.length) :
    inclusionProof sha256 index leaves =
      (inclusionProof sha256 index (leaves.take (split leaves.length))).map
        (· ++ [root sha256 (leaves.drop (split leaves.length))]) := by
  have hlt := split_lt hlen
  rw [inclusionProof, dif_neg (by omega), dif_neg (by omega)]
  simp only [if_pos hindex]
  cases inclusionProof sha256 index (leaves.take (split leaves.length)) <;> rfl

theorem inclusionProof_right (hlen : 2 ≤ leaves.length) (hindex : index < leaves.length)
    (hright : split leaves.length ≤ index) :
    inclusionProof sha256 index leaves =
      (inclusionProof sha256 (index - split leaves.length)
        (leaves.drop (split leaves.length))).map
        (· ++ [root sha256 (leaves.take (split leaves.length))]) := by
  rw [inclusionProof, dif_neg (by omega), dif_neg (by omega)]
  simp only [if_neg (Nat.not_lt.mpr hright)]
  cases inclusionProof sha256 (index - split leaves.length)
    (leaves.drop (split leaves.length)) <;> rfl

theorem rootFromInclusion_one (hindex : index < 1) {value : Hash} :
    rootFromInclusion sha256 index 1 leaf path = some value ↔ path = [] ∧ leaf = value := by
  rw [rootFromInclusion, dif_neg (by omega), dif_pos rfl]
  cases path with
  | nil => simp
  | cons first rest => simp

/-- The verifier has no answer for a larger tree without a path. -/
theorem rootFromInclusion_nil (hsize : size ≠ 1) :
    rootFromInclusion sha256 index size leaf [] = none := by
  rw [rootFromInclusion]
  split
  · rfl
  · rfl

theorem rootFromInclusion_out_of_range (hrange : size ≤ index) :
    rootFromInclusion sha256 index size leaf path = none := by
  rw [rootFromInclusion, dif_pos (Or.inr hrange)]

theorem rootFromInclusion_concat_left (hsize : 2 ≤ size) (hindex : index < split size)
    {last : Hash} :
    rootFromInclusion sha256 index size leaf (path ++ [last]) =
      (rootFromInclusion sha256 index (split size) leaf path).map (nodeHash sha256 · last) := by
  have hlt := split_lt hsize
  rw [rootFromInclusion, dif_neg (by omega), dif_neg (by omega)]
  simp only [List.getLast?_concat, Option.bind_eq_bind, Option.bind_some, if_pos hindex,
    List.dropLast_concat]
  cases rootFromInclusion sha256 index (split size) leaf path <;> rfl

theorem rootFromInclusion_concat_right (hsize : 2 ≤ size) (hindex : index < size)
    (hright : split size ≤ index) {last : Hash} :
    rootFromInclusion sha256 index size leaf (path ++ [last]) =
      (rootFromInclusion sha256 (index - split size) (size - split size) leaf path).map
        (nodeHash sha256 last ·) := by
  rw [rootFromInclusion, dif_neg (by omega), dif_neg (by omega)]
  simp only [List.getLast?_concat, Option.bind_eq_bind, Option.bind_some,
    if_neg (Nat.not_lt.mpr hright), List.dropLast_concat]
  cases rootFromInclusion sha256 (index - split size) (size - split size) leaf path <;> rfl

/-- The last element of an accepted path stands beside the left subtree. -/
theorem rootFromInclusion_left (hsize : 2 ≤ size) (hindex : index < split size) {value : Hash} :
    rootFromInclusion sha256 index size leaf path = some value ↔
      ∃ rest last left, path = rest ++ [last] ∧
        rootFromInclusion sha256 index (split size) leaf rest = some left ∧
        nodeHash sha256 left last = value := by
  rcases List.eq_nil_or_concat path with rfl | ⟨rest, last, rfl⟩
  · simp [rootFromInclusion_nil (show size ≠ 1 by omega)]
  · simp [rootFromInclusion_concat_left hsize hindex, Option.map_eq_some_iff]

/-- The last element of an accepted path stands beside the right subtree. -/
theorem rootFromInclusion_right (hsize : 2 ≤ size) (hindex : index < size)
    (hright : split size ≤ index) {value : Hash} :
    rootFromInclusion sha256 index size leaf path = some value ↔
      ∃ rest last right, path = rest ++ [last] ∧
        rootFromInclusion sha256 (index - split size) (size - split size) leaf rest =
          some right ∧
        nodeHash sha256 last right = value := by
  rcases List.eq_nil_or_concat path with rfl | ⟨rest, last, rfl⟩
  · simp [rootFromInclusion_nil (show size ≠ 1 by omega)]
  · simp [rootFromInclusion_concat_right hsize hindex hright, Option.map_eq_some_iff]

theorem inclusionPairs_left (hsize : 2 ≤ size) (hindex : index < split size) {last left : Hash}
    {rest : List Hash} (hleft : rootFromInclusion sha256 index (split size) leaf rest = some left) :
    inclusionPairs sha256 index size leaf (rest ++ [last]) =
      (left, last) :: inclusionPairs sha256 index (split size) leaf rest := by
  have hlt := split_lt hsize
  rw [inclusionPairs, dif_neg (by omega), dif_neg (by omega)]
  simp [hindex, hleft]

theorem inclusionPairs_right (hsize : 2 ≤ size) (hindex : index < size)
    (hright : split size ≤ index) {last right : Hash} {rest : List Hash}
    (hvalue : rootFromInclusion sha256 (index - split size) (size - split size) leaf rest =
      some right) :
    inclusionPairs sha256 index size leaf (rest ++ [last]) =
      (last, right) ::
        inclusionPairs sha256 (index - split size) (size - split size) leaf rest := by
  rw [inclusionPairs, dif_neg (by omega), dif_neg (by omega)]
  simp [Nat.not_lt.mpr hright, hvalue]

theorem rootPairs_split (hlen : 2 ≤ leaves.length) :
    rootPairs sha256 leaves =
      (root sha256 (leaves.take (split leaves.length)),
        root sha256 (leaves.drop (split leaves.length))) ::
      (rootPairs sha256 (leaves.take (split leaves.length)) ++
        rootPairs sha256 (leaves.drop (split leaves.length))) := by
  rw [rootPairs, pairs_split _ _ leaves hlen, split_eq_splitPoint hlen, root_eq_fold, root_eq_fold]
  rfl

end Steps

section Correctness

variable {sha256 : Bytes → Hash}

/-- The prover's path leads to the tree hash. No assumption on the hash is needed. -/
theorem rootFromInclusion_inclusionProof (leaves : List Hash) (index : Nat)
    (hindex : index < leaves.length) :
    ∃ path, inclusionProof sha256 index leaves = some path ∧
      rootFromInclusion sha256 index leaves.length leaves[index] path =
        some (root sha256 leaves) := by
  induction hn : leaves.length using Nat.strong_induction_on generalizing leaves index with
  | _ n ih =>
    subst hn
    rcases Nat.lt_or_ge leaves.length 2 with hshort | hlen
    · obtain ⟨leaf, rfl⟩ := List.length_eq_one_iff.mp (show leaves.length = 1 by omega)
      obtain rfl : index = 0 := by simpa using hindex
      refine ⟨[], inclusionProof_one rfl hindex, ?_⟩
      exact (rootFromInclusion_one (by omega)).mpr ⟨rfl, root_singleton.symm⟩
    have hlt := split_lt hlen
    have hpos := split_pos hlen
    have htake : (leaves.take (split leaves.length)).length = split leaves.length := by
      rw [List.length_take]
      omega
    have hdrop := List.length_drop (i := split leaves.length) (l := leaves)
    rcases Nat.lt_or_ge index (split leaves.length) with hleft | hright
    · obtain ⟨path, hproof, hroot⟩ := ih (split leaves.length) hlt
        (leaves.take (split leaves.length)) index (by omega) htake
      rw [List.getElem_take] at hroot
      refine ⟨path ++ [root sha256 (leaves.drop (split leaves.length))], ?_, ?_⟩
      · rw [inclusionProof_left hlen hleft, hproof]
        rfl
      · rw [rootFromInclusion_left hlen hleft]
        exact ⟨path, _, _, rfl, hroot, (root_split hlen).symm⟩
    · obtain ⟨path, hproof, hroot⟩ := ih (leaves.length - split leaves.length) (by omega)
        (leaves.drop (split leaves.length)) (index - split leaves.length) (by omega) hdrop
      have hsame : split leaves.length + (index - split leaves.length) = index := by omega
      simp only [List.getElem_drop, hsame] at hroot
      refine ⟨path ++ [root sha256 (leaves.take (split leaves.length))], ?_, ?_⟩
      · rw [inclusionProof_right hlen hindex hright, hproof]
        rfl
      · rw [rootFromInclusion_right hlen hindex hright]
        exact ⟨path, _, _, rfl, hroot, (root_split hlen).symm⟩

/-- Whatever the path is: if it leads to the tree hash, then from the leaf at that index and
as the prover's path. Each opening of the tree hash spends injectivity on one pair. -/
theorem eq_of_rootFromInclusion {S : Set (Hash × Hash)}
    (hinj : Set.InjOn (Function.uncurry (nodeHash sha256)) S) (leaves : List Hash) (index : Nat)
    (hindex : index < leaves.length) (leaf : Hash) (path : List Hash)
    (htree : ∀ p ∈ rootPairs sha256 leaves, p ∈ S)
    (hpath : ∀ p ∈ inclusionPairs sha256 index leaves.length leaf path, p ∈ S)
    (hroot : rootFromInclusion sha256 index leaves.length leaf path = some (root sha256 leaves)) :
    leaf = leaves[index] ∧ inclusionProof sha256 index leaves = some path := by
  induction hn : leaves.length using Nat.strong_induction_on generalizing leaves index path with
  | _ n ih =>
    subst hn
    rcases Nat.lt_or_ge leaves.length 2 with hshort | hlen
    · obtain ⟨only, rfl⟩ := List.length_eq_one_iff.mp (show leaves.length = 1 by omega)
      obtain rfl : index = 0 := by simpa using hindex
      obtain ⟨rfl, hleaf⟩ := (rootFromInclusion_one (by omega)).mp hroot
      exact ⟨hleaf.trans root_singleton, inclusionProof_one rfl hindex⟩
    have hlt := split_lt hlen
    have hpos := split_pos hlen
    have htake : (leaves.take (split leaves.length)).length = split leaves.length := by
      rw [List.length_take]
      omega
    have hdrop := List.length_drop (i := split leaves.length) (l := leaves)
    rw [root_split hlen] at hroot
    rw [rootPairs_split hlen] at htree
    have hnode := htree _ List.mem_cons_self
    rcases Nat.lt_or_ge index (split leaves.length) with hleft | hright
    · obtain ⟨rest, last, left, rfl, hrest, hvalue⟩ := (rootFromInclusion_left hlen hleft).mp hroot
      rw [inclusionPairs_left hlen hleft hrest] at hpath
      obtain ⟨rfl, rfl⟩ := Prod.mk.inj (hinj (hpath _ List.mem_cons_self) hnode hvalue)
      obtain ⟨hleaf, hproof⟩ := ih (split leaves.length) hlt
        (leaves.take (split leaves.length)) index (by omega) rest
        (fun p hp => htree p (List.mem_cons_of_mem _ (List.mem_append_left _ hp)))
        (fun p hp => hpath p (List.mem_cons_of_mem _ (htake ▸ hp))) (htake.symm ▸ hrest) htake
      refine ⟨by rw [hleaf, List.getElem_take], ?_⟩
      rw [inclusionProof_left hlen hleft, hproof]
      rfl
    · obtain ⟨rest, last, right, rfl, hrest, hvalue⟩ :=
        (rootFromInclusion_right hlen hindex hright).mp hroot
      rw [inclusionPairs_right hlen hindex hright hrest] at hpath
      obtain ⟨rfl, rfl⟩ := Prod.mk.inj (hinj (hpath _ List.mem_cons_self) hnode hvalue)
      obtain ⟨hleaf, hproof⟩ := ih (leaves.length - split leaves.length) (by omega)
        (leaves.drop (split leaves.length)) (index - split leaves.length) (by omega) rest
        (fun p hp => htree p (List.mem_cons_of_mem _ (List.mem_append_right _ hp)))
        (fun p hp => hpath p (List.mem_cons_of_mem _ (hdrop ▸ hp))) (hdrop.symm ▸ hrest) hdrop
      have hsame : split leaves.length + (index - split leaves.length) = index := by omega
      refine ⟨by simp only [hleaf, List.getElem_drop, hsame], ?_⟩
      rw [inclusionProof_right hlen hindex hright, hproof]
      rfl

end Correctness

/-- At every index of a tree, one leaf and one path verify: the leaf that is there, and the
prover's path. -/
theorem verifyInclusion_iff (sha256 : Bytes → Hash) (leaves : List Hash) (index : Nat)
    (hindex : index < leaves.length) (leaf : Hash) (path : List Hash)
    (hfree : CollisionFree sha256 (inclusionInputs sha256 index leaves leaf path)) :
    verifyInclusion sha256 index leaves.length leaf path (root sha256 leaves) = true ↔
      leaf = leaves[index] ∧ inclusionProof sha256 index leaves = some path := by
  rw [verifyInclusion, decide_eq_true_iff]
  constructor
  · have hsep := separated_of_collisionFree sha256 [] _ hfree
    exact eq_of_rootFromInclusion hsep.inj leaves index hindex leaf path
      (fun p hp => List.mem_append_left _ hp) (fun p hp => List.mem_append_right _ hp)
  · rintro ⟨rfl, hproof⟩
    obtain ⟨found, hfound, hroot⟩ := rootFromInclusion_inclusionProof leaves index hindex
    obtain rfl : found = path := Option.some.inj (hfound.symm.trans hproof)
    exact hroot

/-- The middle leaf of three. -/
theorem verifyInclusion_middle_of_three :
    let leaves := [[1], [2], [3]].map (leafHash polynomialHash)
    let path := [leafHash polynomialHash [1], leafHash polynomialHash [3]]
    CollisionFree polynomialHash
        (inclusionInputs polynomialHash 1 leaves (leafHash polynomialHash [2]) path) ∧
      (verifyInclusion polynomialHash 1 3 (leafHash polynomialHash [2]) path
          (root polynomialHash leaves) = true ↔
        leafHash polynomialHash [2] = leaves[1] ∧
          inclusionProof polynomialHash 1 leaves = some path) :=
  ⟨by decide +kernel, verifyInclusion_iff polynomialHash
    ([[1], [2], [3]].map (leafHash polynomialHash)) 1 (by decide) _ _ (by decide +kernel)⟩

end Dante.Merkle
