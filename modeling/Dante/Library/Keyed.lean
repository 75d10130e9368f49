import Mathlib.Tactic

/-!
Lists of rows with a key. A row is changed where it is found first, and a row that is not
found is put at the end. The keys stay distinct if they were.
-/

namespace Keyed

variable {α κ : Type} [DecidableEq κ] (key : α → κ)

/-- The first row with the key `k`, changed. -/
def update (k : κ) (change : α → α) : List α → List α
  | [] => []
  | row :: rest => if key row = k then change row :: rest else row :: update k change rest

/-- The first row with the key `k`, changed, or a new row at the end. -/
def upsert (k : κ) (change : α → α) (new : α) (rows : List α) : List α :=
  if k ∈ rows.map key then update key k change rows else rows ++ [new]

variable {key} {k : κ} {change : α → α} {new : α} {rows : List α}

theorem map_key_update (hkey : ∀ row, key row = k → key (change row) = k) :
    (update key k change rows).map key = rows.map key := by
  induction rows with
  | nil => rfl
  | cons row rest ih =>
    rw [update]
    split
    · rename_i hrow
      rw [List.map_cons, List.map_cons, hkey row hrow, hrow]
    · rw [List.map_cons, List.map_cons, ih]

theorem length_update : (update key k change rows).length = rows.length := by
  induction rows with
  | nil => rfl
  | cons row rest ih =>
    rw [update]
    split
    · rfl
    · rw [List.length_cons, List.length_cons, ih]

theorem mem_update {row : α} (hrow : row ∈ update key k change rows) :
    row ∈ rows ∨ ∃ old ∈ rows, key old = k ∧ row = change old := by
  induction rows with
  | nil => cases hrow
  | cons first rest ih =>
    rw [update] at hrow
    split at hrow
    · rename_i hfirst
      rcases List.mem_cons.mp hrow with rfl | hrest
      · exact .inr ⟨first, List.mem_cons_self, hfirst, rfl⟩
      · exact .inl (List.mem_cons_of_mem _ hrest)
    · rcases List.mem_cons.mp hrow with rfl | hrest
      · exact .inl List.mem_cons_self
      · rcases ih hrest with hold | ⟨old, hold, hkey, rfl⟩
        · exact .inl (List.mem_cons_of_mem _ hold)
        · exact .inr ⟨old, List.mem_cons_of_mem _ hold, hkey, rfl⟩

theorem mem_upsert {row : α} (hrow : row ∈ upsert key k change new rows) :
    row ∈ rows ∨ (∃ old ∈ rows, key old = k ∧ row = change old) ∨ row = new := by
  unfold upsert at hrow
  split at hrow
  · rcases mem_update hrow with hold | hchanged
    · exact .inl hold
    · exact .inr (.inl hchanged)
  · rcases List.mem_append.mp hrow with hold | hnew
    · exact .inl hold
    · exact .inr (.inr (List.mem_singleton.mp hnew))

section Keys

variable (hkey : ∀ row, key row = k → key (change row) = k) (hnew : key new = k)
include hkey hnew

theorem map_key_upsert : (upsert key k change new rows).map key =
    if k ∈ rows.map key then rows.map key else rows.map key ++ [k] := by
  unfold upsert
  split
  · exact map_key_update hkey
  · rw [List.map_append, List.map_singleton, hnew]

theorem nodup_map_key_upsert (hnodup : (rows.map key).Nodup) :
    ((upsert key k change new rows).map key).Nodup := by
  rw [map_key_upsert hkey hnew]
  split
  · exact hnodup
  · rename_i habsent
    exact List.nodup_append.mpr ⟨hnodup, List.nodup_singleton k, fun a ha b hb => by
      rw [List.mem_singleton.mp hb]
      exact ne_of_mem_of_not_mem ha habsent⟩

theorem mem_map_key_upsert {other : κ} :
    other ∈ (upsert key k change new rows).map key ↔ other = k ∨ other ∈ rows.map key := by
  rw [map_key_upsert hkey hnew]
  split
  · rename_i hpresent
    constructor
    · exact .inr
    · rintro (rfl | hother)
      · exact hpresent
      · exact hother
  · rw [List.mem_append, List.mem_singleton, or_comm]

end Keys

theorem length_upsert : (upsert key k change new rows).length =
    if k ∈ rows.map key then rows.length else rows.length + 1 := by
  unfold upsert
  split
  · exact length_update
  · rw [List.length_append, List.length_singleton]

/-- The same by positions. -/
theorem update_eq_modify : update key k change rows =
    match rows.findIdx? fun row => key row = k with
    | some i => rows.modify i change
    | none => rows := by
  induction rows with
  | nil => rfl
  | cons row rest ih =>
    rw [update, List.findIdx?_cons]
    by_cases hrow : key row = k
    · simp [hrow]
    · rw [if_neg hrow, decide_eq_false hrow, ih]
      cases rest.findIdx? fun row => key row = k with
      | none => rfl
      | some i => rfl

theorem upsert_eq_modify : upsert key k change new rows =
    match rows.findIdx? fun row => key row = k with
    | some i => rows.modify i change
    | none => rows ++ [new] := by
  unfold upsert
  rw [update_eq_modify]
  cases hfind : rows.findIdx? fun row => key row = k with
  | none =>
    have habsent : k ∉ rows.map key := by
      simpa [List.findIdx?_eq_none_iff] using hfind
    rw [if_neg habsent]
  | some i =>
    have hpresent : k ∈ rows.map key := by
      obtain ⟨hi, hkey, -⟩ := List.findIdx?_eq_some_iff_getElem.mp hfind
      exact List.mem_map.mpr ⟨rows[i], List.getElem_mem hi, of_decide_eq_true hkey⟩
    rw [if_pos hpresent]

theorem sum_update_le {f : α → Nat} {c : Nat} (hchange : ∀ row, f (change row) ≤ f row + c) :
    ((update key k change rows).map f).sum ≤ (rows.map f).sum + c := by
  induction rows with
  | nil => exact Nat.zero_le _
  | cons row rest ih =>
    have hrow := hchange row
    rw [update]
    split
    · rw [List.map_cons, List.map_cons, List.sum_cons, List.sum_cons]
      omega
    · rw [List.map_cons, List.map_cons, List.sum_cons, List.sum_cons]
      omega

theorem sum_upsert_le {f : α → Nat} {c : Nat} (hchange : ∀ row, f (change row) ≤ f row + c)
    (hnew : f new ≤ c) :
    ((upsert key k change new rows).map f).sum ≤ (rows.map f).sum + c := by
  unfold upsert
  split
  · exact sum_update_le hchange
  · rw [List.map_append, List.map_singleton, List.sum_append, List.sum_singleton]
    omega

theorem sum_filter_le (f : α → Nat) (p : α → Bool) (rows : List α) :
    ((rows.filter p).map f).sum ≤ (rows.map f).sum :=
  (List.filter_sublist.map f).sum_le_sum fun _ _ => Nat.zero_le _

end Keyed
