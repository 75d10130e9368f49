import Mathlib.Tactic

/-!
Where the elements of a list stand after it has grown at the end or changed in
place: each element either stood there before, or is the new one.
-/

namespace Positions

variable {α : Type}

theorem getElem?_concat {l : List α} {a b : α} {i : Nat} :
    (l ++ [a])[i]? = some b ↔ l[i]? = some b ∨ i = l.length ∧ b = a := by
  rw [List.getElem?_append]
  split
  · rename_i hlt
    constructor
    · exact Or.inl
    · rintro (hold | ⟨rfl, -⟩)
      · exact hold
      · exact absurd hlt (Nat.lt_irrefl _)
  · rename_i hge
    have hnone : l[i]? = none := List.getElem?_eq_none (Nat.not_lt.mp hge)
    rw [List.getElem?_singleton, hnone]
    constructor
    · intro hsome
      split at hsome
      · cases hsome
        exact Or.inr ⟨by omega, rfl⟩
      · cases hsome
    · rintro (hold | ⟨rfl, rfl⟩)
      · cases hold
      · simp

theorem getElem?_concat_of_some {l : List α} {a b : α} {i : Nat} (hold : l[i]? = some b) :
    (l ++ [a])[i]? = some b :=
  getElem?_concat.mpr (Or.inl hold)

theorem getElem?_modify {l : List α} {f : α → α} {i j : Nat} {b : α} :
    (l.modify i f)[j]? = some b ↔
      j ≠ i ∧ l[j]? = some b ∨ j = i ∧ ∃ a, l[i]? = some a ∧ b = f a := by
  rw [List.getElem?_modify, Option.map_eq_map, Option.map_eq_some_iff]
  by_cases hij : i = j
  · subst hij
    simp [eq_comm]
  · simp [hij, Ne.symm hij]

theorem map_modify {β : Type} (l : List α) (i : Nat) {f : α → α} {view : α → β}
    (hview : ∀ a, view (f a) = view a) : (l.modify i f).map view = l.map view := by
  apply List.ext_getElem?
  intro j
  rw [List.getElem?_map, List.getElem?_map, List.getElem?_modify]
  cases l[j]? with
  | none => rfl
  | some a =>
    simp only [Option.map_eq_map, Option.map_some]
    split <;> simp [hview]

theorem filterMap_range' {β : Type} (l : List α) (f : α → β) (start count : Nat) :
    (List.range' start count).filterMap (fun i => l[i]?.map f) =
      ((l.drop start).take count).map f := by
  induction count generalizing start with
  | zero => simp
  | succ count ih =>
    rw [List.range'_succ, List.filterMap_cons, ih]
    cases hget : l[start]? with
    | none =>
      have hlen : l.length ≤ start := List.getElem?_eq_none_iff.mp hget
      simp [List.drop_eq_nil_of_le hlen, List.drop_eq_nil_of_le (Nat.le_succ_of_le hlen)]
    | some a =>
      obtain ⟨hlt, rfl⟩ := List.getElem?_eq_some_iff.mp hget
      rw [List.drop_eq_getElem_cons hlt, List.take_succ_cons, List.map_cons]
      simp only [Option.map_some]

end Positions
