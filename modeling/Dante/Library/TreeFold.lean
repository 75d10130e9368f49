import Mathlib.Data.Nat.Log
import Mathlib.Data.Set.Function
import Mathlib.Tactic

/-!
Folding a list along the left-complete binary tree over it: a list of `n ≥ 2` elements splits at the
largest power of two below `n`, and the two halves are folded on their own.

The level view cuts the list into blocks of `2 ^ i` elements and joins two neighbours into one block
of the next level. A bottom-up walk over the levels is a walk over nodes of the recursive tree, and
only the last block of a level can be short.
-/

namespace TreeFold

variable {α : Type*}

/-- The split point of a list of `n` elements, a power of two for `2 ≤ n`. -/
def splitPoint (n : Nat) : Nat := 2 ^ (Nat.clog 2 n - 1)

theorem splitPoint_pos (n : Nat) : 0 < splitPoint n :=
  Nat.two_pow_pos _

theorem splitPoint_lt {n : Nat} (hn : 2 ≤ n) : splitPoint n < n :=
  Nat.pow_pred_clog_lt_self (by omega) (by omega)

theorem splitPoint_eq {n j : Nat} (hlow : 2 ^ j < n) (hhigh : n ≤ 2 ^ (j + 1)) :
    splitPoint n = 2 ^ j := by
  have hle : Nat.clog 2 n ≤ j + 1 := Nat.clog_le_of_le_pow hhigh
  have hlt : j < Nat.clog 2 n := (Nat.lt_clog_iff_pow_lt (by omega)).mpr hlow
  have hclog : Nat.clog 2 n = j + 1 := by omega
  simp [splitPoint, hclog]

/-- Fold `xs` along its tree; `empty` is the value of the empty list. -/
def fold (node : α → α → α) (empty : α) (xs : List α) : α :=
  if _h : xs.length < 2 then
    xs.headD empty
  else
    node (fold node empty (xs.take (splitPoint xs.length)))
      (fold node empty (xs.drop (splitPoint xs.length)))
termination_by xs.length
decreasing_by
  · have hlt := splitPoint_lt (n := xs.length) (by omega)
    simp only [List.length_take]
    omega
  · have hpos := splitPoint_pos xs.length
    simp only [List.length_drop]
    omega

def pairs (node : α → α → α) (empty : α) (xs : List α) : List (α × α) :=
  if _h : xs.length < 2 then
    []
  else
    (fold node empty (xs.take (splitPoint xs.length)),
      fold node empty (xs.drop (splitPoint xs.length))) ::
    (pairs node empty (xs.take (splitPoint xs.length)) ++
      pairs node empty (xs.drop (splitPoint xs.length)))
termination_by xs.length
decreasing_by
  · have hlt := splitPoint_lt (n := xs.length) (by omega)
    simp only [List.length_take]
    omega
  · have hpos := splitPoint_pos xs.length
    simp only [List.length_drop]
    omega

section Fold

variable (node : α → α → α) (empty : α)

@[simp]
theorem fold_nil : fold node empty [] = empty := by
  rw [fold]
  simp

@[simp]
theorem fold_singleton (x : α) : fold node empty [x] = x := by
  rw [fold]
  simp

theorem fold_split (xs : List α) (hlen : 2 ≤ xs.length) :
    fold node empty xs =
      node (fold node empty (xs.take (splitPoint xs.length)))
        (fold node empty (xs.drop (splitPoint xs.length))) := by
  rw [fold, dif_neg (by omega)]

theorem pairs_split (xs : List α) (hlen : 2 ≤ xs.length) :
    pairs node empty xs =
      (fold node empty (xs.take (splitPoint xs.length)),
        fold node empty (xs.drop (splitPoint xs.length))) ::
      (pairs node empty (xs.take (splitPoint xs.length)) ++
        pairs node empty (xs.drop (splitPoint xs.length))) := by
  rw [pairs, dif_neg (by omega)]

/-- A fold of known height opens at a known power of two. -/
theorem fold_open (xs : List α) (j : Nat) (hlow : 2 ^ j < xs.length)
    (hhigh : xs.length ≤ 2 ^ (j + 1)) :
    fold node empty xs =
      node (fold node empty (xs.take (2 ^ j)))
        (fold node empty (xs.drop (2 ^ j))) := by
  have hpow : 0 < 2 ^ j := Nat.two_pow_pos j
  rw [fold_split node empty xs (by omega), splitPoint_eq hlow hhigh]

theorem pairs_open (xs : List α) (j : Nat) (hlow : 2 ^ j < xs.length)
    (hhigh : xs.length ≤ 2 ^ (j + 1)) :
    pairs node empty xs =
      (fold node empty (xs.take (2 ^ j)), fold node empty (xs.drop (2 ^ j))) ::
      (pairs node empty (xs.take (2 ^ j)) ++ pairs node empty (xs.drop (2 ^ j))) := by
  have hpow : 0 < 2 ^ j := Nat.two_pow_pos j
  rw [pairs_split node empty xs (by omega), splitPoint_eq hlow hhigh]

/-- Where combining is injective on every pair combined by either fold, two
lists of one length with one fold are equal. -/
theorem fold_injective (S : Set (α × α)) (hinj : Set.InjOn (Function.uncurry node) S)
    (xs ys : List α) (hlen : xs.length = ys.length)
    (hxs : ∀ p ∈ pairs node empty xs, p ∈ S)
    (hys : ∀ p ∈ pairs node empty ys, p ∈ S)
    (hfold : fold node empty xs = fold node empty ys) : xs = ys := by
  -- induction on the common length: both trees open at the same split point
  induction hn : xs.length using Nat.strong_induction_on generalizing xs ys with
  | _ n ih =>
    by_cases hsmall : xs.length < 2
    · match xs, ys, hlen with
      | [], [], _ => rfl
      | [x], [y], _ =>
          rw [fold_singleton, fold_singleton] at hfold
          rw [hfold]
      | _ :: _ :: _, _, _ => simp at hsmall
    · have htwo : 2 ≤ xs.length := by omega
      have hlt := splitPoint_lt htwo
      have hpos := splitPoint_pos xs.length
      rw [pairs_split node empty xs htwo] at hxs
      rw [pairs_split node empty ys (by omega), ← hlen] at hys
      rw [fold_split node empty xs htwo, fold_split node empty ys (by omega),
        ← hlen] at hfold
      have hpair := hinj (hxs _ List.mem_cons_self) (hys _ List.mem_cons_self) hfold
      have hleft := ih (xs.take (splitPoint xs.length)).length
        (by simp only [List.length_take]; omega)
        (xs.take (splitPoint xs.length)) (ys.take (splitPoint xs.length))
        (by simp [hlen]) (fun p hp => hxs p (by simp [hp]))
        (fun p hp => hys p (by simp [hp])) (congrArg Prod.fst hpair) rfl
      have hright := ih (xs.drop (splitPoint xs.length)).length
        (by simp only [List.length_drop]; omega)
        (xs.drop (splitPoint xs.length)) (ys.drop (splitPoint xs.length))
        (by simp [hlen]) (fun p hp => hxs p (by simp [hp]))
        (fun p hp => hys p (by simp [hp])) (congrArg Prod.snd hpair) rfl
      rw [← List.take_append_drop (splitPoint xs.length) xs, hleft, hright,
        List.take_append_drop]

end Fold

/-- Block `x` of level `i`: the elements at `x * 2 ^ i ..< (x + 1) * 2 ^ i`. -/
def block (xs : List α) (i x : Nat) : List α :=
  (xs.drop (x * 2 ^ i)).take (2 ^ i)

theorem block_length (xs : List α) (i x : Nat) :
    (block xs i x).length = min (2 ^ i) (xs.length - x * 2 ^ i) := by
  simp [block]

theorem block_length_full (xs : List α) (i x : Nat)
    (hfull : (x + 1) * 2 ^ i ≤ xs.length) : (block xs i x).length = 2 ^ i := by
  rw [block_length, Nat.add_mul] at *
  omega

theorem block_zero (xs : List α) (i : Nat) (hlen : xs.length ≤ 2 ^ i) :
    block xs i 0 = xs := by
  simp [block, hlen]

theorem take_block (xs : List α) (i x : Nat) :
    (block xs (i + 1) x).take (2 ^ i) = block xs i (2 * x) := by
  have hindex : x * 2 ^ (i + 1) = 2 * x * 2 ^ i := by ring
  have hmin : min (2 ^ i) (2 ^ (i + 1)) = 2 ^ i := by
    rw [Nat.pow_succ]
    omega
  simp only [block, List.take_take, hindex, hmin]

theorem drop_block (xs : List α) (i x : Nat) :
    (block xs (i + 1) x).drop (2 ^ i) = block xs i (2 * x + 1) := by
  have hindex : 2 ^ i + x * 2 ^ (i + 1) = (2 * x + 1) * 2 ^ i := by ring
  have hlen : 2 ^ (i + 1) - 2 ^ i = 2 ^ i := by
    rw [Nat.pow_succ]
    omega
  simp only [block, List.drop_take, List.drop_drop, hlen]
  rw [Nat.add_comm, hindex]

/-- Without a right neighbour a block is also the block above it. -/
theorem block_lift (xs : List α) (i x : Nat) (hend : xs.length ≤ (2 * x + 1) * 2 ^ i) :
    block xs (i + 1) x = block xs i (2 * x) := by
  rw [← take_block, List.take_of_length_le]
  rw [block_length]
  have hindex : (2 * x + 1) * 2 ^ i = x * 2 ^ (i + 1) + 2 ^ i := by ring
  omega

theorem take_succ_mul (xs : List α) (i x : Nat) :
    xs.take ((x + 1) * 2 ^ i) = xs.take (x * 2 ^ i) ++ block xs i x := by
  rw [Nat.add_mul, Nat.one_mul, List.take_add, block]

/-- A list cut after its first `k` elements keeps every block before the cut. -/
theorem block_take (xs : List α) (k i x : Nat) (hend : (x + 1) * 2 ^ i ≤ k) :
    block (xs.take k) i x = block xs i x := by
  rw [Nat.add_mul, Nat.one_mul] at hend
  simp only [block, List.drop_take, List.take_take]
  congr 1
  omega

/-- A list past its first `2 ^ h` elements keeps every block after the cut. -/
theorem block_drop (xs : List α) (h i x : Nat) (hle : i ≤ h) :
    block (xs.drop (2 ^ h)) i x = block xs i (2 ^ (h - i) + x) := by
  have hpow : 2 ^ h = 2 ^ (h - i) * 2 ^ i := by
    rw [← Nat.pow_add]
    congr 1
    omega
  simp only [block, List.drop_drop]
  rw [Nat.add_mul, ← hpow]

theorem block_length_join (xs : List α) (i x : Nat)
    (hright : (2 * x + 1) * 2 ^ i < xs.length) :
    2 ^ i < (block xs (i + 1) x).length ∧
      (block xs (i + 1) x).length ≤ 2 ^ (i + 1) := by
  have hindex : (2 * x + 1) * 2 ^ i = x * 2 ^ (i + 1) + 2 ^ i := by ring
  rw [hindex] at hright
  rw [block_length]
  refine ⟨lt_min (Nat.pow_lt_pow_right (by omega) (by omega)) ?_, min_le_left _ _⟩
  exact Nat.lt_sub_of_add_lt (by rwa [Nat.add_comm])

section Blocks

variable (node : α → α → α) (empty : α)

theorem fold_block (xs : List α) (i x : Nat) (hright : (2 * x + 1) * 2 ^ i < xs.length) :
    fold node empty (block xs (i + 1) x) =
      node (fold node empty (block xs i (2 * x)))
        (fold node empty (block xs i (2 * x + 1))) := by
  obtain ⟨hlow, hhigh⟩ := block_length_join xs i x hright
  rw [fold_open node empty (block xs (i + 1) x) i hlow hhigh, take_block, drop_block]

theorem pairs_block (xs : List α) (i x : Nat) (hright : (2 * x + 1) * 2 ^ i < xs.length) :
    pairs node empty (block xs (i + 1) x) =
      (fold node empty (block xs i (2 * x)), fold node empty (block xs i (2 * x + 1))) ::
      (pairs node empty (block xs i (2 * x)) ++
        pairs node empty (block xs i (2 * x + 1))) := by
  obtain ⟨hlow, hhigh⟩ := block_length_join xs i x hright
  rw [pairs_open node empty (block xs (i + 1) x) i hlow hhigh, take_block, drop_block]

/-- Every nonempty block is a node of the tree, so the pairs below it are
pairs of the whole list. -/
theorem pairs_block_subset (xs : List α) (i x : Nat) (hx : x * 2 ^ i < xs.length)
    (p : α × α) (hp : p ∈ pairs node empty (block xs i x)) :
    p ∈ pairs node empty xs := by
  -- climb to the level whose only block is the whole list
  obtain ⟨d, hd⟩ : ∃ d, xs.length ≤ 2 ^ (i + d) :=
    ⟨xs.length, (Nat.lt_two_pow_self).le.trans
      (Nat.pow_le_pow_right (by omega) (by omega))⟩
  induction d generalizing i x with
  | zero =>
    have hzero : x = 0 := by
      by_contra hne
      have : 1 * 2 ^ i ≤ x * 2 ^ i := Nat.mul_le_mul_right _ (by omega)
      simp only [Nat.add_zero] at hd
      omega
    rw [hzero, block_zero xs i (by simpa using hd)] at hp
    exact hp
  | succ d ih =>
    have hparent : x / 2 * 2 ^ (i + 1) ≤ x * 2 ^ i := by
      have hhalf : x / 2 * 2 ≤ x := Nat.div_mul_le_self x 2
      calc
        x / 2 * 2 ^ (i + 1) = x / 2 * 2 * 2 ^ i := by ring
        _ ≤ x * 2 ^ i := Nat.mul_le_mul_right _ hhalf
    refine ih (i + 1) (x / 2) (by omega) ?_ (by rw [Nat.add_right_comm]; exact hd)
    rcases Nat.even_or_odd' x with ⟨y, hy | hy⟩
    · have hy2 : x / 2 = y := by omega
      rw [hy2]
      by_cases hright : (2 * y + 1) * 2 ^ i < xs.length
      · rw [pairs_block node empty xs i y hright, ← hy]
        simp [hp]
      · rw [block_lift xs i y (by omega), ← hy]
        exact hp
    · have hy2 : x / 2 = y := by omega
      rw [hy2, pairs_block node empty xs i y (by rw [← hy]; exact hx), ← hy]
      simp [hp]

/-- The pair joined into a block of the next level is a pair of the list. -/
theorem join_mem_pairs (xs : List α) (i x : Nat)
    (hright : (2 * x + 1) * 2 ^ i < xs.length) :
    (fold node empty (block xs i (2 * x)), fold node empty (block xs i (2 * x + 1))) ∈
      pairs node empty xs := by
  apply pairs_block_subset node empty xs (i + 1) x
  · have hindex : (2 * x + 1) * 2 ^ i = x * 2 ^ (i + 1) + 2 ^ i := by ring
    rw [hindex] at hright
    exact lt_of_le_of_lt (Nat.le_add_right _ _) hright
  · rw [pairs_block node empty xs i x hright]
    simp

end Blocks

/-- `LeftSpine node S leaf d h`: opening `h` to the left `d` times, through
pairs of `S`, ends in a leaf value. -/
inductive LeftSpine (node : α → α → α) (S : Set (α × α)) (leaf : Set α) : Nat → α → Prop
  | leaf {x : α} : x ∈ leaf → LeftSpine node S leaf 0 x
  | node {d : Nat} {l r : α} : (l, r) ∈ S → LeftSpine node S leaf d l →
      LeftSpine node S leaf (d + 1) (node l r)

/-- When leaf values are never joined values of `S`, the depth of the left
spine is determined by the value. -/
theorem LeftSpine.unique {node : α → α → α} {S : Set (α × α)} {leaf : Set α}
    (hinj : Set.InjOn (Function.uncurry node) S)
    (hsep : ∀ p ∈ S, Function.uncurry node p ∉ leaf)
    {d e : Nat} {h : α} (hd : LeftSpine node S leaf d h)
    (he : LeftSpine node S leaf e h) : d = e := by
  induction hd generalizing e with
  | leaf hleaf =>
    cases he with
    | leaf _ => rfl
    | node hpair _ => exact absurd hleaf (hsep _ hpair)
  | @node d l r hpair hl ih =>
    generalize hx : node l r = x at he
    cases he with
    | leaf hleaf =>
      rw [← hx] at hleaf
      exact absurd hleaf (hsep _ hpair)
    | @node e l' r' hpair' hl' =>
      have heq := hinj hpair hpair' hx
      have hll : l = l' := congrArg Prod.fst heq
      rw [ih (hll ▸ hl')]

/-- The left spine of a folded list is as long as the tree is high. -/
theorem leftSpine_fold (node : α → α → α) (empty : α) (S : Set (α × α)) (leaf : Set α)
    (xs : List α) (hne : xs ≠ []) (hleaf : ∀ x ∈ xs, x ∈ leaf)
    (hpairs : ∀ p ∈ pairs node empty xs, p ∈ S) :
    LeftSpine node S leaf (Nat.clog 2 xs.length) (fold node empty xs) := by
  induction hn : xs.length using Nat.strong_induction_on generalizing xs with
  | _ n ih =>
    by_cases hsmall : xs.length < 2
    · match xs, hne with
      | [x], _ =>
          subst hn
          rw [fold_singleton, List.length_singleton, Nat.clog_one_right]
          exact .leaf (hleaf x (by simp))
      | _ :: _ :: _, _ => simp at hsmall
    · have htwo : 2 ≤ xs.length := by omega
      have hlt := splitPoint_lt htwo
      have hpos := splitPoint_pos xs.length
      have htake : (xs.take (splitPoint xs.length)).length = splitPoint xs.length := by
        rw [List.length_take]
        omega
      have hheight : Nat.clog 2 (splitPoint xs.length) + 1 = Nat.clog 2 xs.length := by
        rw [splitPoint, Nat.clog_pow 2 _ (by omega)]
        have := Nat.clog_pos (b := 2) (n := xs.length) (by omega) (by omega)
        omega
      rw [pairs_split node empty xs htwo] at hpairs
      rw [← hn, ← hheight, fold_split node empty xs htwo]
      refine .node (hpairs _ (by simp)) ?_
      have hleft := ih (splitPoint xs.length) (by omega) (xs.take (splitPoint xs.length))
        (by intro hnil; simp [hnil] at htake; omega)
        (fun x hx => hleaf x (List.mem_of_mem_take hx))
        (fun p hp => hpairs p (by simp [hp])) htake
      exact hleft

end TreeFold
