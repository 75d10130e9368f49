import Mathlib.Data.List.DropRight
import Dante.Library.Run

/-!
A filter for repeated items that remembers only the last `cap` items it let pass. With unbounded
memory each item would pass once, in the order of first occurrence; the bounded filter does the same
exactly as long as every repetition comes while the item is still remembered.
-/

namespace Recent

variable {α : Type*} [DecidableEq α]
variable {arrivals : List α}

/-- The items that pass, oldest first, after one more arrival. -/
def offer (cap : Nat) (passed : List α) (x : α) : List α :=
  if x ∈ passed.rtake cap then passed else passed ++ [x]

def passed (cap : Nat) (arrivals : List α) : List α :=
  Steps.exec (offer cap) [] arrivals

/-- The items in the order of their first arrival. -/
def firstSeen (arrivals : List α) : List α :=
  Steps.exec (fun seen x => if x ∈ seen then seen else seen ++ [x]) [] arrivals

/-- Whoever arrives again is still among the last `cap` newcomers. -/
def Remembers (cap : Nat) (arrivals : List α) : Prop :=
  Steps.Along (fun before x => before ++ [x])
    (fun before x => x ∈ before → x ∈ (firstSeen before).rtake cap) [] arrivals

instance (cap : Nat) (arrivals : List α) : Decidable (Remembers cap arrivals) :=
  inferInstanceAs (Decidable (Steps.Along _ _ _ _))

omit [DecidableEq α] in
theorem rtake_concat (cap : Nat) (xs : List α) (x : α) :
    (xs ++ [x]).rtake cap = (xs.rtake cap ++ [x]).rtake cap := by
  have hfront : xs.rtake cap ++ [x] = (xs ++ [x]).drop (xs.length - cap) := by
    rw [List.rtake, List.drop_append_of_le_length (Nat.sub_le _ _)]
  rw [hfront, List.rtake, List.rtake, List.drop_drop, List.length_drop]
  congr 1
  rw [List.length_append, List.length_singleton]
  omega

omit [DecidableEq α] in
theorem length_rtake_le (cap : Nat) (xs : List α) : (xs.rtake cap).length ≤ cap := by
  rw [List.rtake, List.length_drop]
  omega

theorem passed_concat (cap : Nat) (arrivals : List α) (x : α) :
    passed cap (arrivals ++ [x]) = offer cap (passed cap arrivals) x :=
  Steps.exec_snoc _ _ _

theorem firstSeen_concat (arrivals : List α) (x : α) :
    firstSeen (arrivals ++ [x]) =
      if x ∈ firstSeen arrivals then firstSeen arrivals else firstSeen arrivals ++ [x] :=
  Steps.exec_snoc _ _ _

theorem remembers_concat {cap : Nat} {x : α} :
    Remembers cap (arrivals ++ [x]) ↔
      Remembers cap arrivals ∧ (x ∈ arrivals → x ∈ (firstSeen arrivals).rtake cap) := by
  rw [Remembers, Steps.along_append, Steps.exec_concat, List.nil_append]
  simp only [Steps.Along, and_true]
  rfl

theorem mem_firstSeen {x : α} : x ∈ firstSeen arrivals ↔ x ∈ arrivals := by
  induction arrivals using List.reverseRecOn with
  | nil => rfl
  | append_singleton arrivals y ih =>
    rw [firstSeen_concat, List.mem_append, List.mem_singleton]
    split
    · rename_i hy
      constructor
      · exact fun h => Or.inl (ih.mp h)
      · rintro (h | rfl)
        · exact ih.mpr h
        · exact hy
    · rw [List.mem_append, List.mem_singleton, ih]

theorem nodup_firstSeen (arrivals : List α) : (firstSeen arrivals).Nodup := by
  induction arrivals using List.reverseRecOn with
  | nil => exact List.nodup_nil
  | append_singleton arrivals x ih =>
    rw [firstSeen_concat]
    split
    · exact ih
    · rename_i hnew
      exact List.concat_eq_append ▸ ih.concat hnew

/-- While it remembers, the bounded filter is the unbounded one. -/
theorem passed_eq_firstSeen {cap : Nat} (h : Remembers cap arrivals) :
    passed cap arrivals = firstSeen arrivals := by
  induction arrivals using List.reverseRecOn with
  | nil => rfl
  | append_singleton arrivals x ih =>
    obtain ⟨hbefore, hlast⟩ := remembers_concat.mp h
    rw [passed_concat, firstSeen_concat, offer, ih hbefore]
    have hiff : x ∈ (firstSeen arrivals).rtake cap ↔ x ∈ firstSeen arrivals :=
      ⟨List.mem_of_mem_drop, fun hx => hlast (mem_firstSeen.mp hx)⟩
    simp only [hiff]

/-- No item passes twice exactly if the filter remembers every item that comes again. -/
theorem nodup_passed_iff {cap : Nat} : (passed cap arrivals).Nodup ↔ Remembers cap arrivals := by
  constructor
  · intro hnodup
    induction arrivals using List.reverseRecOn with
    | nil => trivial
    | append_singleton arrivals x ih =>
      rw [passed_concat, offer] at hnodup
      split at hnodup
      · rename_i hknown
        have hbefore := ih hnodup
        exact remembers_concat.mpr ⟨hbefore, fun _ => passed_eq_firstSeen hbefore ▸ hknown⟩
      · have hbefore := ih hnodup.of_append_left
        refine remembers_concat.mpr ⟨hbefore, fun hx => ?_⟩
        -- an old item that is let pass would be there twice
        have hold : x ∈ passed cap arrivals :=
          passed_eq_firstSeen hbefore ▸ mem_firstSeen.mpr hx
        exact absurd rfl ((List.nodup_append.mp hnodup).2.2 x hold x (List.mem_singleton_self x))
  · intro h
    rw [passed_eq_firstSeen h]
    exact nodup_firstSeen arrivals

theorem passed_append_new {cap : Nat} {arrivals new : List α} (hnodup : new.Nodup)
    (hnew : ∀ x ∈ new, x ∉ passed cap arrivals) :
    passed cap (arrivals ++ new) = passed cap arrivals ++ new := by
  induction new using List.reverseRecOn with
  | nil => simp
  | append_singleton new x ih =>
    have hx : x ∉ passed cap arrivals ++ new := by
      rw [List.mem_append]
      rintro (hold | hagain)
      · exact hnew x (by simp) hold
      · exact (List.nodup_append.mp hnodup).2.2 x hagain x (List.mem_singleton_self x) rfl
    have hbefore := ih hnodup.of_append_left fun y hy => hnew y (List.mem_append_left _ hy)
    rw [← List.append_assoc, passed_concat, hbefore, offer, if_neg, List.append_assoc]
    exact fun hmem => hx (List.mem_of_mem_drop hmem)

end Recent
