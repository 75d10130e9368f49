import Mathlib.Tactic

/-!
A list cut into pieces of one size, the last one perhaps shorter, or in two at a separator. The
first recursion is on a bound for the length, so that it computes.
-/

namespace List

variable {α : Type}

/-- The pieces of the first `bound` or fewer steps. -/
def chunksUpTo (size : Nat) : Nat → List α → List (List α)
  | 0, _ => []
  | _ + 1, [] => []
  | bound + 1, x :: xs =>
    (x :: xs).take size :: chunksUpTo size bound ((x :: xs).drop size)

/-- `slice::chunks` -/
def chunks (size : Nat) (xs : List α) : List (List α) := chunksUpTo size xs.length xs

theorem flatten_chunksUpTo {size : Nat} (hsize : 0 < size) {bound : Nat} {xs : List α}
    (hbound : xs.length ≤ bound) : (chunksUpTo size bound xs).flatten = xs := by
  induction bound generalizing xs with
  | zero =>
    rw [List.length_eq_zero_iff.mp (Nat.le_zero.mp hbound)]
    rfl
  | succ bound ih =>
    cases xs with
    | nil => rfl
    | cons x rest =>
      have hdrop : ((x :: rest).drop size).length ≤ bound := by
        rw [List.length_drop]
        omega
      rw [chunksUpTo, List.flatten_cons, ih hdrop, List.take_append_drop]

theorem flatten_chunks {size : Nat} (hsize : 0 < size) (xs : List α) :
    (chunks size xs).flatten = xs :=
  flatten_chunksUpTo hsize (Nat.le_refl _)

theorem length_le_of_mem_chunksUpTo {size bound : Nat} {xs piece : List α}
    (hpiece : piece ∈ chunksUpTo size bound xs) : piece.length ≤ size := by
  induction bound generalizing xs with
  | zero => cases hpiece
  | succ bound ih =>
    cases xs with
    | nil => cases hpiece
    | cons x rest =>
      rcases List.mem_cons.mp hpiece with rfl | hlater
      · exact List.length_take_le size (x :: rest)
      · exact ih hlater

/-- So many pieces of so many elements at most. -/
theorem length_le_chunks_mul {size : Nat} (hsize : 0 < size) (xs : List α) :
    xs.length ≤ (chunks size xs).length * size := by
  calc xs.length = (chunks size xs).flatten.length := by rw [flatten_chunks hsize]
    _ = ((chunks size xs).map List.length).sum := List.length_flatten
    _ ≤ ((chunks size xs).map List.length).length * size := by
      apply List.sum_le_card_nsmul
      intro n hn
      obtain ⟨piece, hpiece, rfl⟩ := List.mem_map.mp hn
      exact length_le_of_mem_chunksUpTo hpiece
    _ = (chunks size xs).length * size := by rw [List.length_map]

section Separator

variable [DecidableEq α]

/-- What stands before and after the first occurrence of `pattern`. -/
def splitOnce : (xs pattern : List α) → Option (List α × List α)
  | [], pattern => if pattern = [] then some ([], []) else none
  | x :: rest, pattern =>
    if pattern <+: x :: rest then some ([], (x :: rest).drop pattern.length)
    else (splitOnce rest pattern).map fun parts => (x :: parts.1, parts.2)

/-- What stands before and after the last occurrence of `c`. -/
def rsplitOnce (c : α) : List α → Option (List α × List α)
  | [] => none
  | x :: rest =>
    match rsplitOnce c rest with
    | some parts => some (x :: parts.1, parts.2)
    | none => if x = c then some ([], rest) else none

/-- Everything after the last `c`, or the whole list without one. -/
def afterLast (c : α) (xs : List α) : List α := ((rsplitOnce c xs).map Prod.snd).getD xs

/-- Everything before the last `c`, or the whole list without one. -/
def beforeLast (c : α) (xs : List α) : List α := ((rsplitOnce c xs).map Prod.fst).getD xs

end Separator

end List
