import Dante.Library.AssocMap
import Dante.Library.Run

/-!
A store that keeps, for each key, the newest of the items that it was offered. An item
replaces the one under its key only if its version is greater. What a run leaves behind
does not depend on the order of the offers or on how often one is repeated, as long as the
items of one key and version are equal.
-/

namespace Newest

variable {α κ ν : Type} [LinearOrder ν] (key : α → κ) (version : α → ν)

/-- The item is one of those offered under the key, and none of them is newer. -/
def IsNewest (items : List α) (k : κ) (a : α) : Prop :=
  a ∈ items ∧ key a = k ∧ ∀ other ∈ items, key other = k → version other ≤ version a

variable {key version} {items : List α} {a : α} {k : κ}

theorem IsNewest.snoc_of_le (hnewest : IsNewest key version items k a) {other : α}
    (hother : key other = k → version other ≤ version a) :
    IsNewest key version (items ++ [other]) k a := by
  obtain ⟨hmem, hkey, hle⟩ := hnewest
  refine ⟨List.mem_append_left _ hmem, hkey, ?_⟩
  intro item hitem
  rcases List.mem_append.mp hitem with hold | hlast
  · exact hle item hold
  · rw [List.mem_singleton.mp hlast]
    exact hother

theorem isNewest_snoc_self (hle : ∀ item ∈ items, key item = key a → version item ≤ version a) :
    IsNewest key version (items ++ [a]) (key a) a := by
  refine ⟨List.mem_append_right _ (List.mem_singleton_self a), rfl, ?_⟩
  intro item hitem
  rcases List.mem_append.mp hitem with hold | hlast
  · exact hle item hold
  · rw [List.mem_singleton.mp hlast]
    exact fun _ => le_refl _

/-- The same items in another order or number have the same newest ones. -/
theorem IsNewest.congr {others : List α} (hsame : ∀ item, item ∈ others ↔ item ∈ items) :
    IsNewest key version others k a ↔ IsNewest key version items k a := by
  simp only [IsNewest, hsame]

variable [DecidableEq κ] {store : AssocMap κ α} (key version)

/-- Stores the item unless one under its key is at least as new. -/
def offer (store : AssocMap κ α) (a : α) : AssocMap κ α :=
  match store.lookup (key a) with
  | some current => if version current < version a then store.insert (key a) a else store
  | none => store.insert (key a) a

/-- What the store holds under each key after the offers `items`. -/
structure Keeps (items : List α) (store : AssocMap κ α) : Prop where
  found : ∀ k a, store.lookup k = some a → IsNewest key version items k a
  absent : ∀ k, store.lookup k = none → ∀ a ∈ items, key a ≠ k

variable {key version}

theorem keeps_empty : Keeps key version [] (∅ : AssocMap κ α) where
  found _ _ hlookup := nomatch hlookup
  absent _ _ _ ha := nomatch ha

theorem Keeps.insert (hkeeps : Keeps key version items store)
    (hle : ∀ item ∈ items, key item = key a → version item ≤ version a) :
    Keeps key version (items ++ [a]) (store.insert (key a) a) where
  found k found hlookup := by
    rw [AssocMap.lookup_insert] at hlookup
    split at hlookup
    · rename_i hk
      obtain rfl := Option.some.inj hlookup
      rw [hk]
      exact isNewest_snoc_self hle
    · rename_i hk
      exact (hkeeps.found k found hlookup).snoc_of_le fun hkey => absurd hkey.symm hk
  absent k hlookup item hitem := by
    rw [AssocMap.lookup_insert] at hlookup
    split at hlookup
    · cases hlookup
    · rename_i hk
      rcases List.mem_append.mp hitem with hold | hlast
      · exact hkeeps.absent k hlookup item hold
      · rw [List.mem_singleton.mp hlast]
        exact fun hkey => hk hkey.symm

theorem Keeps.offer (hkeeps : Keeps key version items store) (a : α) :
    Keeps key version (items ++ [a]) (offer key version store a) := by
  unfold Newest.offer
  cases hcurrent : store.lookup (key a) with
  | none =>
    have habsent := hkeeps.absent (key a) hcurrent
    exact hkeeps.insert fun item hitem hkey => absurd hkey (habsent item hitem)
  | some current =>
    obtain ⟨hmem, hkey, hle⟩ := hkeeps.found (key a) current hcurrent
    dsimp only
    split
    · rename_i hlt
      exact hkeeps.insert fun item hitem hitemKey => (hle item hitem hitemKey).trans hlt.le
    · rename_i hge
      -- The item that is there is as new as the offered one.
      refine ⟨fun k found hlookup => ?_, fun k hlookup item hitem => ?_⟩
      · refine (hkeeps.found k found hlookup).snoc_of_le fun hk => ?_
        rw [← hk, hcurrent] at hlookup
        obtain rfl := Option.some.inj hlookup
        exact not_lt.mp hge
      · rcases List.mem_append.mp hitem with hold | hlast
        · exact hkeeps.absent k hlookup item hold
        · rw [List.mem_singleton.mp hlast]
          rintro rfl
          rw [hcurrent] at hlookup
          cases hlookup

theorem keeps_exec (items : List α) :
    Keeps key version items (Steps.exec (offer key version) ∅ items) := by
  induction items using List.reverseRecOn with
  | nil => exact keeps_empty
  | append_singleton items a ih =>
    rw [Steps.exec_snoc]
    exact ih.offer a

/-- If equal versions are equal items, the newest is unique. -/
theorem Keeps.lookup_eq_some_iff (hkeeps : Keeps key version items store)
    (hunique : ∀ a ∈ items, ∀ b ∈ items, key a = key b → version a = version b → a = b) :
    store.lookup k = some a ↔ IsNewest key version items k a := by
  constructor
  · exact hkeeps.found k a
  · rintro ⟨hmem, hkey, hle⟩
    cases hlookup : store.lookup k with
    | none => exact absurd hkey (hkeeps.absent k hlookup a hmem)
    | some found =>
      obtain ⟨hmem', hkey', hle'⟩ := hkeeps.found k found hlookup
      have hversion := le_antisymm (hle found hmem' hkey') (hle' a hmem hkey)
      rw [hunique found hmem' a hmem (hkey'.trans hkey.symm) hversion]

theorem Keeps.lookup_eq_none_iff (hkeeps : Keeps key version items store) :
    store.lookup k = none ↔ ∀ a ∈ items, key a ≠ k := by
  constructor
  · exact hkeeps.absent k
  · intro habsent
    cases hlookup : store.lookup k with
    | none => rfl
    | some found =>
      obtain ⟨hmem, hkey, -⟩ := hkeeps.found k found hlookup
      exact absurd hkey (habsent found hmem)

/-- More offers make nothing older. -/
theorem version_le_of_append {old : α} {first : List α}
    (hold : (Steps.exec (offer key version) ∅ first).lookup k = some old) (second : List α) :
    ∃ new, (Steps.exec (offer key version) ∅ (first ++ second)).lookup k = some new ∧
      version old ≤ version new := by
  obtain ⟨hmem, hkey, -⟩ := (keeps_exec first).found k old hold
  have hlater := List.mem_append_left second hmem
  cases hnew : (Steps.exec (offer key version) ∅ (first ++ second)).lookup k with
  | none => exact absurd hkey ((keeps_exec (first ++ second)).absent k hnew old hlater)
  | some new =>
    obtain ⟨-, -, hle⟩ := (keeps_exec (first ++ second)).found k new hnew
    exact ⟨new, rfl, hle old hlater hkey⟩

end Newest
