import Dante.Crypto.Hash
import Dante.Library.TreeFold

/-!
The RFC 6962 tree of `dante-proto/src/merkle.rs`: tree hash, consistency prover and consistency
verifier. Sizes and node indices are natural numbers: a slice of hashes is far shorter than
`2 ^ 63`, where `k << 1` would lose its top bit. `root` is the generic tree fold.
-/

namespace Dante.Merkle

open Crypto TreeFold

section Model

variable (sha256 : Bytes → Hash)

def emptyRoot : Hash := sha256 []

def leafHash (entry : Bytes) : Hash := sha256Parts sha256 [[0x00], entry]

def nodeHash (left right : Hash) : Hash :=
  sha256Parts sha256 [[0x01], left.toList, right.toList]

/-- The loop of `split`: `while k << 1 < n { k <<= 1 }`, with `n` rounds at hand. -/
def splitLoop (n : Nat) : Nat → Nat → Nat
  | 0, k => k
  | rounds + 1, k => if k <<< 1 < n then splitLoop n rounds (k <<< 1) else k

/-- Largest power of two strictly below `n`, for `2 ≤ n`. -/
def split (n : Nat) : Nat := splitLoop n n 1

theorem splitLoop_eq (n rounds i : Nat) (hlow : 2 ^ i < n) (hrounds : n ≤ 2 ^ (i + rounds)) :
    ∃ j, splitLoop n rounds (2 ^ i) = 2 ^ j ∧ 2 ^ j < n ∧ n ≤ 2 ^ (j + 1) := by
  induction rounds generalizing i with
  | zero => simp at hrounds; omega
  | succ rounds ih =>
    have hshift : 2 ^ i <<< 1 = 2 ^ (i + 1) := by
      rw [Nat.shiftLeft_eq, ← Nat.pow_succ]
    rw [splitLoop, hshift]
    split
    · rename_i hmore
      exact ih (i + 1) hmore (by rwa [Nat.add_right_comm])
    · rename_i hdone
      exact ⟨i, rfl, hlow, by omega⟩

theorem split_eq_splitPoint {n : Nat} (hn : 2 ≤ n) : split n = splitPoint n := by
  obtain ⟨j, hj, hlow, hhigh⟩ := splitLoop_eq n n 0 (by rw [Nat.pow_zero]; omega)
    (by simpa using Nat.lt_two_pow_self.le)
  rw [split, splitPoint_eq hlow hhigh, ← hj]
  rfl

theorem split_lt {n : Nat} (hn : 2 ≤ n) : split n < n := by
  rw [split_eq_splitPoint hn]
  exact splitPoint_lt hn

theorem split_pos {n : Nat} (hn : 2 ≤ n) : 0 < split n := by
  rw [split_eq_splitPoint hn]
  exact splitPoint_pos n

def root (leaves : List Hash) : Hash :=
  if leaves.length = 0 then
    emptyRoot sha256
  else if _h : leaves.length = 1 then
    leaves[0]
  else
    let k := split leaves.length
    nodeHash sha256 (root (leaves.take k)) (root (leaves.drop k))
termination_by leaves.length
decreasing_by
  · have hlt := split_lt (n := leaves.length) (by omega)
    simp only [List.length_take]
    omega
  · have hpos := split_pos (n := leaves.length) (by omega)
    simp only [List.length_drop]
    omega

/-- The recursive prover. Its callers keep `0 < m ≤ leaves.len()`, so that
`split` only sees two leaves or more. -/
def subproof (m : Nat) (leaves : List Hash) (onBorder : Bool) : List Hash :=
  if m = leaves.length then
    if onBorder then [] else [root sha256 leaves]
  else if _h : leaves.length < 2 then
    []
  else
    let k := split leaves.length
    if m ≤ k then
      subproof m (leaves.take k) onBorder ++ [root sha256 (leaves.drop k)]
    else
      subproof (m - k) (leaves.drop k) false ++ [root sha256 (leaves.take k)]
termination_by leaves.length
decreasing_by
  · have hlt := split_lt (n := leaves.length) (by omega)
    simp only [List.length_take]
    omega
  · have hpos := split_pos (n := leaves.length) (by omega)
    simp only [List.length_drop]
    omega

def consistencyProof (oldSize : Nat) (leaves : List Hash) : Option (List Hash) :=
  if oldSize = 0 ∨ oldSize > leaves.length then
    none
  else if oldSize = leaves.length then
    some []
  else
    some (subproof sha256 oldSize leaves true)

/-- `while fnode & 1 == 1 { fnode >>= 1; snode >>= 1 }`. -/
def skipOdd (fnode snode : Nat) : Nat × Nat :=
  if _h : fnode &&& 1 = 1 then skipOdd (fnode >>> 1) (snode >>> 1) else (fnode, snode)
termination_by fnode
decreasing_by
  rw [Nat.and_one_is_mod] at _h
  rw [Nat.shiftRight_one]
  omega

/-- The inner `loop` of the verifier: shift at least once, stop at an odd or
zero `fnode`. -/
def climb (fnode snode : Nat) : Nat × Nat :=
  let f := fnode >>> 1
  let s := snode >>> 1
  if _h : f &&& 1 = 1 ∨ f = 0 then (f, s) else climb f s
termination_by fnode
decreasing_by
  rw [Nat.shiftRight_one] at *
  omega

structure Walk where
  fnode : Nat
  snode : Nat
  fr : Hash
  sr : Hash

/-- One round of the `for` loop; `none` is `return false`. -/
def verifyStep (w : Walk) (c : Hash) : Option Walk :=
  if w.snode = 0 then
    none
  else
    let next : Walk :=
      if w.fnode &&& 1 = 1 ∨ w.fnode = w.snode then
        let nodes :=
          if w.fnode &&& 1 = 0 then climb w.fnode w.snode else (w.fnode, w.snode)
        { fnode := nodes.1, snode := nodes.2,
          fr := nodeHash sha256 c w.fr, sr := nodeHash sha256 c w.sr }
      else
        { w with sr := nodeHash sha256 w.sr c }
    some { next with fnode := next.fnode >>> 1, snode := next.snode >>> 1 }

/-- The verifier once `work` is known to start with `first`. -/
def verifyWork (oldSize newSize : Nat) (oldRoot newRoot first : Hash)
    (rest : List Hash) : Bool :=
  let nodes := skipOdd (oldSize - 1) (newSize - 1)
  let start : Walk := { fnode := nodes.1, snode := nodes.2, fr := first, sr := first }
  match rest.foldlM (verifyStep sha256) start with
  | none => false
  | some w => w.fnode = 0 && w.fr = oldRoot && w.sr = newRoot

def verifyConsistency (oldSize newSize : Nat) (oldRoot newRoot : Hash)
    (proof : List Hash) : Bool :=
  if oldSize > newSize then
    false
  else if oldSize = newSize then
    proof.isEmpty && oldRoot = newRoot
  else if oldSize = 0 then
    proof.isEmpty
  else
    -- a power-of-two old tree is a complete left subtree: its root is the
    -- implicit first element of the path
    let work := (if oldSize.isPowerOfTwo then [oldRoot] else []) ++ proof
    match work with
    | [] => false
    | first :: rest => verifyWork sha256 oldSize newSize oldRoot newRoot first rest

theorem root_eq_fold (leaves : List Hash) :
    root sha256 leaves = fold (nodeHash sha256) (emptyRoot sha256) leaves := by
  induction hn : leaves.length using Nat.strong_induction_on generalizing leaves with
  | _ n ih =>
    rw [root]
    split
    · rename_i hzero
      rw [List.length_eq_zero_iff.mp hzero, fold_nil]
    · split
      · rename_i hone
        obtain ⟨leaf, rfl⟩ := List.length_eq_one_iff.mp hone
        rw [fold_singleton]
        rfl
      · have htwo : 2 ≤ leaves.length := by omega
        have hlt := splitPoint_lt htwo
        have hpos := splitPoint_pos leaves.length
        rw [fold_split _ _ leaves htwo, split_eq_splitPoint htwo]
        dsimp only
        rw [ih (leaves.take (splitPoint leaves.length)).length
          (by rw [List.length_take]; omega) _ rfl]
        rw [ih (leaves.drop (splitPoint leaves.length)).length
          (by rw [List.length_drop]; omega) _ rfl]

end Model

end Dante.Merkle
