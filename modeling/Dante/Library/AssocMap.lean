import Dante.Library.Positions
import Mathlib.Data.List.AList

/-!
Finite maps with one value per key, and the operations on the values that an
association list does not have yet: apply a function to each value, list the
values. Lookups decide everything, so each operation has one equation for
`lookup`.
-/

abbrev AssocMap (α β : Type) := AList (fun _ : α => β)

namespace AssocMap

variable {α β : Type}
variable {m : AssocMap α β}

def mapValues (f : β → β) (m : AssocMap α β) : AssocMap α β where
  entries := m.entries.map fun entry => ⟨entry.1, f entry.2⟩
  nodupKeys := by
    have hkeys : (m.entries.map fun entry => (⟨entry.1, f entry.2⟩ : Sigma fun _ : α => β)).keys =
        m.entries.keys := by
      simp [List.keys, List.map_map, Function.comp_def]
    rw [List.NodupKeys, hkeys]
    exact m.nodupKeys

/-- Apply `f` to each value, and drop the keys it gives none for. -/
def filterMapValues (f : β → Option β) (m : AssocMap α β) : AssocMap α β where
  entries := m.entries.filterMap fun entry => (f entry.2).map fun value => ⟨entry.1, value⟩
  nodupKeys := by
    have hsub : ((m.entries.filterMap fun entry =>
        (f entry.2).map fun value => (⟨entry.1, value⟩ : Sigma fun _ : α => β)).map
          Sigma.fst).Sublist (m.entries.map Sigma.fst) := by
      induction m.entries with
      | nil => exact .refl _
      | cons entry rest ih =>
        rw [List.filterMap_cons]
        cases f entry.2 with
        | none => exact ih.cons _
        | some value => exact ih.cons_cons _
    exact List.Nodup.sublist hsub m.nodupKeys

def values (m : AssocMap α β) : List β := m.entries.map (·.2)

/-- The keys with their values, in the order of the list. -/
def pairs (m : AssocMap α β) : List (α × β) := m.entries.map fun entry => (entry.1, entry.2)

theorem nodup_fst_pairs (m : AssocMap α β) : ((pairs m).map Prod.fst).Nodup := by
  rw [pairs, List.map_map]
  exact m.nodupKeys

/-- A total over the values does not grow if no value does. -/
theorem sum_values_filterMapValues_le (weight : β → Nat) {f : β → Option β}
    (hf : ∀ value value', f value = some value' → weight value' ≤ weight value)
    (m : AssocMap α β) :
    ((values (filterMapValues f m)).map weight).sum ≤ ((values m).map weight).sum := by
  simp only [values, filterMapValues]
  induction m.entries with
  | nil => exact Nat.le_refl _
  | cons entry rest ih =>
    rw [List.filterMap_cons]
    cases hvalue : f entry.2 with
    | none => exact ih.trans (Nat.le_add_left _ _)
    | some value => exact Nat.add_le_add (hf _ _ hvalue) ih

/-- A total over the values that are kept, and one over what is dropped of each. -/
theorem sum_values_filterMapValues (weight dropped : β → Nat) {f : β → Option β}
    (hf : ∀ value, ((f value).map weight).getD 0 + dropped value = weight value)
    (m : AssocMap α β) :
    ((values (filterMapValues f m)).map weight).sum + ((values m).map dropped).sum =
      ((values m).map weight).sum := by
  simp only [values, filterMapValues]
  induction m.entries with
  | nil => rfl
  | cons entry rest ih =>
    have hvalue := hf entry.2
    rw [List.filterMap_cons]
    cases hkept : f entry.2 with
    | none =>
      rw [hkept, Option.map_none, Option.getD_none] at hvalue
      simp only [Option.map_none, List.map_cons, List.sum_cons]
      omega
    | some value =>
      rw [hkept, Option.map_some, Option.getD_some] at hvalue
      simp only [Option.map_some, List.map_cons, List.sum_cons]
      omega

variable [DecidableEq α]

theorem lookup_mapValues (f : β → β) (m : AssocMap α β) (key : α) :
    (mapValues f m).lookup key = (m.lookup key).map f := by
  apply Option.ext
  intro value
  rw [Option.map_eq_some_iff]
  constructor
  · intro hlookup
    obtain ⟨entry, hentry, heq⟩ := List.mem_map.mp (AList.mem_lookup_iff.mp hlookup)
    cases heq
    exact ⟨entry.2, AList.mem_lookup_iff.mpr hentry, rfl⟩
  · rintro ⟨old, hold, rfl⟩
    exact AList.mem_lookup_iff.mpr
      (List.mem_map.mpr ⟨⟨key, old⟩, AList.mem_lookup_iff.mp hold, rfl⟩)

theorem lookup_filterMapValues (f : β → Option β) (m : AssocMap α β) (key : α) :
    (filterMapValues f m).lookup key = (m.lookup key).bind f := by
  apply Option.ext
  intro value
  rw [Option.bind_eq_some_iff]
  constructor
  · intro hlookup
    obtain ⟨entry, hentry, heq⟩ := List.mem_filterMap.mp (AList.mem_lookup_iff.mp hlookup)
    obtain ⟨found, hfound, heq⟩ := Option.map_eq_some_iff.mp heq
    cases heq
    exact ⟨entry.2, AList.mem_lookup_iff.mpr hentry, hfound⟩
  · rintro ⟨old, hold, hvalue⟩
    refine AList.mem_lookup_iff.mpr (List.mem_filterMap.mpr
      ⟨⟨key, old⟩, AList.mem_lookup_iff.mp hold, ?_⟩)
    exact Option.map_eq_some_iff.mpr ⟨value, hvalue, rfl⟩

theorem mem_values {value : β} : value ∈ values m ↔ ∃ key, m.lookup key = some value := by
  constructor
  · intro hmem
    obtain ⟨entry, hentry, rfl⟩ := List.mem_map.mp hmem
    exact ⟨entry.1, AList.mem_lookup_iff.mpr hentry⟩
  · rintro ⟨key, hlookup⟩
    exact List.mem_map.mpr ⟨⟨key, value⟩, AList.mem_lookup_iff.mp hlookup, rfl⟩

theorem lookup_insert (m : AssocMap α β) (key : α) (value : β) (key' : α) :
    (m.insert key value).lookup key' = if key' = key then some value else m.lookup key' := by
  split
  · rename_i heq
    rw [heq, AList.lookup_insert]
  · rename_i hne
    exact AList.lookup_insert_ne hne

theorem forall_insert {P : β → Prop} {key : α} {value : β}
    (h : ∀ key value, m.lookup key = some value → P value) (hvalue : P value) :
    ∀ key' value', (m.insert key value).lookup key' = some value' → P value' := by
  intro key' value' hlookup
  rw [lookup_insert] at hlookup
  split at hlookup
  · cases hlookup
    exact hvalue
  · exact h key' value' hlookup

theorem forall_getD {P : β → Prop} {default : β}
    (h : ∀ key value, m.lookup key = some value → P value) (hdefault : P default) (key : α) :
    P ((m.lookup key).getD default) := by
  cases hlookup : m.lookup key with
  | none => exact hdefault
  | some value => exact h key value hlookup

theorem lookup_insert_of_none {key : α} (value : β) (hfresh : m.lookup key = none) {key' : α}
    {value' : β} (hlookup : m.lookup key' = some value') :
    (m.insert key value).lookup key' = some value' := by
  have hne : key' ≠ key := by
    rintro rfl
    rw [hfresh] at hlookup
    cases hlookup
  rw [lookup_insert, if_neg hne, hlookup]

/-- A total over the values: the new value comes in, the old one goes out. -/
theorem sum_values_insert (weight : β → Nat) (m : AssocMap α β) (key : α) (value : β) :
    ((values (m.insert key value)).map weight).sum + ((m.lookup key).map weight).getD 0 =
      ((values m).map weight).sum + weight value := by
  have hinsert : (m.insert key value).entries = ⟨key, value⟩ :: m.entries.kerase key := rfl
  cases hlookup : m.lookup key with
  | none =>
    have hnone : key ∉ m.entries.keys := List.dlookup_eq_none.mp hlookup
    simp [values, List.kerase_of_notMem_keys hnone, Nat.add_comm]
  | some old =>
    have hkey : key ∈ m.entries.keys := List.dlookup_isSome.mp (by
      rw [show m.entries.dlookup key = some old from hlookup]
      rfl)
    obtain ⟨found, before, after, hbefore, hentries, herase⟩ := List.exists_of_kerase hkey
    have hfound : found = old := by
      have hmem : ⟨key, found⟩ ∈ m.entries := hentries ▸ List.mem_append_right _ List.mem_cons_self
      exact Option.some.inj ((AList.mem_lookup_iff.mpr hmem).symm.trans hlookup)
    rw [values, values, hinsert, herase, hentries, hfound]
    simp only [List.map_cons, List.map_append, List.sum_cons, List.sum_append, Option.map_some,
      Option.getD_some]
    omega

theorem lookup_foldl_erase (keys : List α) (m : AssocMap α β) (key : α) :
    (keys.foldl (fun m key => m.erase key) m).lookup key =
      if key ∈ keys then none else m.lookup key := by
  induction keys generalizing m with
  | nil => simp
  | cons first rest ih =>
    rw [List.foldl_cons, ih]
    by_cases heq : key = first
    · subst heq
      simp [AList.lookup_erase]
    · simp [heq, AList.lookup_erase_ne heq]

@[simp]
theorem lookup_empty (key : α) : (∅ : AssocMap α β).lookup key = none :=
  AList.lookup_empty key

theorem mem_pairs {key : α} {value : β} : (key, value) ∈ pairs m ↔ m.lookup key = some value := by
  rw [← Option.mem_def, AList.mem_lookup_iff, pairs, List.mem_map]
  constructor
  · rintro ⟨⟨_, _⟩, hentry, heq⟩
    cases heq
    exact hentry
  · intro hentry
    exact ⟨⟨key, value⟩, hentry, rfl⟩

/-- A map from a list of keys and values; of two values for a key the later one stays. -/
def collect (xs : List (α × β)) : AssocMap α β :=
  xs.foldl (fun m x => m.insert x.1 x.2) ∅

theorem lookup_foldl_insert {xs : List (α × β)} (hnodup : (xs.map Prod.fst).Nodup)
    (m : AssocMap α β) (key : α) (value : β) :
    (xs.foldl (fun m x => m.insert x.1 x.2) m).lookup key = some value ↔
      (key, value) ∈ xs ∨ key ∉ xs.map Prod.fst ∧ m.lookup key = some value := by
  induction xs generalizing m with
  | nil => simp
  | cons x rest ih =>
    obtain ⟨hx, hrest⟩ := List.nodup_cons.mp hnodup
    rw [List.foldl_cons, ih hrest, lookup_insert]
    by_cases hkey : key = x.1
    · subst hkey
      have hmem : ∀ v, (x.1, v) ∉ rest := fun v hv =>
        hx (List.mem_map.mpr ⟨(x.1, v), hv, rfl⟩)
      have hhead : (x.1, value) = x ↔ x.2 = value := by
        rw [eq_comm, Prod.ext_iff]
        simp
      simp only [hmem, hx, if_true, List.mem_cons, List.map_cons, Option.some.injEq, hhead]
      simp
    · have hhead : (key, value) ≠ x := fun heq => hkey (congrArg Prod.fst heq)
      simp [hkey, hhead]

theorem lookup_collect_of_perm {xs : List (α × β)} (hperm : xs.Perm (pairs m)) (key : α) :
    (collect xs).lookup key = m.lookup key := by
  have hnodup : (xs.map Prod.fst).Nodup :=
    (hperm.map Prod.fst).nodup_iff.mpr (nodup_fst_pairs m)
  apply Option.ext
  intro value
  rw [collect, lookup_foldl_insert hnodup, hperm.mem_iff, mem_pairs, lookup_empty]
  simp

/-- The map sends exactly the keys of the elements of `xs` to their positions. -/
def Indexes {γ : Type} (m : AssocMap α Nat) (keyOf : γ → α) (xs : List γ) : Prop :=
  ∀ key i, m.lookup key = some i ↔ ∃ x, xs[i]? = some x ∧ keyOf x = key

theorem Indexes.nil {γ : Type} (keyOf : γ → α) : Indexes (∅ : AssocMap α Nat) keyOf [] := by
  intro key i
  simp

theorem Indexes.concat {γ : Type} {m : AssocMap α Nat} {keyOf : γ → α} {xs : List γ} {x : γ}
    (h : Indexes m keyOf xs) (hfresh : ∀ y ∈ xs, keyOf y ≠ keyOf x) :
    Indexes (m.insert (keyOf x) xs.length) keyOf (xs ++ [x]) := by
  intro key i
  rw [lookup_insert]
  split
  · rename_i hkey
    subst hkey
    constructor
    · intro hi
      cases hi
      exact ⟨x, Positions.getElem?_concat.mpr (Or.inr ⟨rfl, rfl⟩), rfl⟩
    · rintro ⟨y, hy, hsame⟩
      rcases Positions.getElem?_concat.mp hy with hold | ⟨rfl, -⟩
      · exact absurd hsame (hfresh y (List.mem_of_getElem? hold))
      · rfl
  · rename_i hkey
    rw [h key i]
    constructor
    · rintro ⟨y, hy, hsame⟩
      exact ⟨y, Positions.getElem?_concat_of_some hy, hsame⟩
    · rintro ⟨y, hy, hsame⟩
      rcases Positions.getElem?_concat.mp hy with hold | ⟨-, rfl⟩
      · exact ⟨y, hold, hsame⟩
      · exact absurd hsame.symm hkey

end AssocMap
