import Dante.Library.AssocMap

/-!
Maps of maps: a value for each pair of keys. The inner map of a key is made when the first
value is put into it. `find` decides everything, and listing the values, in whatever order,
and putting them into an empty map again gives a map that answers alike.
-/

namespace NestedMap

variable {α β γ δ ε : Type} {m m' : AssocMap α (AssocMap β γ)}

def cells (m : AssocMap α (AssocMap β γ)) : List (α × β × γ) :=
  (AssocMap.pairs m).flatMap fun row => (AssocMap.pairs row.2).map fun cell => (row.1, cell)

def report (f : γ → Option δ) (m : AssocMap α (AssocMap β γ)) : List (α × β × δ) :=
  (cells m).filterMap fun cell => (f cell.2.2).map fun value => (cell.1, cell.2.1, value)

variable [DecidableEq α] [DecidableEq β]

def find (m : AssocMap α (AssocMap β γ)) (a : α) (b : β) : Option γ :=
  (m.lookup a).bind fun row => row.lookup b

def put (m : AssocMap α (AssocMap β γ)) (a : α) (b : β) (value : γ) : AssocMap α (AssocMap β γ) :=
  m.insert a (((m.lookup a).getD ∅).insert b value)

/-- The map of a list; of two values for the same keys the later one stays. -/
def collect (xs : List (α × β × γ)) : AssocMap α (AssocMap β γ) :=
  xs.foldl (fun m x => put m x.1 x.2.1 x.2.2) ∅

theorem mem_cells {a : α} {b : β} {value : γ} :
    (a, b, value) ∈ cells m ↔ find m a b = some value := by
  rw [cells, List.mem_flatMap, find, Option.bind_eq_some_iff]
  constructor
  · rintro ⟨⟨a', row⟩, hrow, hcell⟩
    obtain ⟨⟨b', value'⟩, hvalue, heq⟩ := List.mem_map.mp hcell
    cases heq
    exact ⟨row, AssocMap.mem_pairs.mp hrow, AssocMap.mem_pairs.mp hvalue⟩
  · rintro ⟨row, hrow, hvalue⟩
    exact ⟨(a, row), AssocMap.mem_pairs.mpr hrow,
      List.mem_map.mpr ⟨(b, value), AssocMap.mem_pairs.mpr hvalue, rfl⟩⟩

theorem mem_report {f : γ → Option δ} {a : α} {b : β} {value : δ} :
    (a, b, value) ∈ report f m ↔ (find m a b).bind f = some value := by
  rw [report, List.mem_filterMap, Option.bind_eq_some_iff]
  constructor
  · rintro ⟨⟨a', b', old⟩, hcell, hsome⟩
    obtain ⟨value', hvalue, heq⟩ := Option.map_eq_some_iff.mp hsome
    cases heq
    exact ⟨old, mem_cells.mp hcell, hvalue⟩
  · rintro ⟨old, hold, hvalue⟩
    exact ⟨(a, b, old), mem_cells.mpr hold, Option.map_eq_some_iff.mpr ⟨value, hvalue, rfl⟩⟩

/-- Two reports have the same lines exactly if `f` says the same under all keys. -/
theorem report_same_iff {f : γ → Option δ} {line : α × β × δ → ε} (hline : line.Injective) :
    (∀ x, x ∈ (report f m').map line ↔ x ∈ (report f m).map line) ↔
      ∀ a b, (find m' a b).bind f = (find m a b).bind f := by
  constructor
  · intro hsame a b
    apply Option.ext
    intro value
    have hvalue := hsame (line (a, b, value))
    rwa [List.mem_map_of_injective hline, List.mem_map_of_injective hline, mem_report, mem_report]
      at hvalue
  · intro hsame x
    rw [List.mem_map, List.mem_map]
    apply exists_congr
    rintro ⟨a, b, value⟩
    rw [mem_report, mem_report, hsame]

@[simp]
theorem find_empty (a : α) (b : β) : find (∅ : AssocMap α (AssocMap β γ)) a b = none := by
  simp [find]

theorem find_put (m : AssocMap α (AssocMap β γ)) (a a' : α) (b b' : β) (value : γ) :
    find (put m a b value) a' b' = if a' = a ∧ b' = b then some value else find m a' b' := by
  rw [find, put, AssocMap.lookup_insert]
  by_cases ha : a' = a
  · subst ha
    rw [if_pos rfl, Option.bind_some, AssocMap.lookup_insert, find]
    simp only [true_and]
    split
    · rfl
    · cases m.lookup a' with
      | none => exact AssocMap.lookup_empty _
      | some row => rfl
  · simp [ha, find]

/-- The map has what the list has, if the list has one value for each pair of keys. -/
theorem find_collect {xs : List (α × β × γ)}
    (hone : ∀ a b value value', (a, b, value) ∈ xs → (a, b, value') ∈ xs → value = value')
    (a : α) (b : β) (value : γ) : find (collect xs) a b = some value ↔ (a, b, value) ∈ xs := by
  -- from the back, since the later values stay
  induction xs using List.reverseRecOn generalizing a b value with
  | nil => simp [collect]
  | append_singleton xs x ih =>
    have hxs : ∀ a b value value', (a, b, value) ∈ xs → (a, b, value') ∈ xs → value = value' :=
      fun a b value value' h h' =>
        hone a b value value' (List.mem_append_left _ h) (List.mem_append_left _ h')
    have hlast : collect (xs ++ [x]) = put (collect xs) x.1 x.2.1 x.2.2 := by
      rw [collect, List.foldl_append]
      rfl
    rw [hlast, find_put, List.mem_append, List.mem_singleton]
    split
    · rename_i hkeys
      obtain ⟨rfl, rfl⟩ := hkeys
      constructor
      · intro hvalue
        cases hvalue
        exact Or.inr rfl
      · rintro (hold | heq)
        · exact congrArg some (hone _ _ _ _ (List.mem_append_right _ List.mem_cons_self)
            (List.mem_append_left _ hold))
        · exact congrArg (fun cell : α × β × γ => some cell.2.2) heq.symm
    · rename_i hkeys
      rw [ih hxs]
      constructor
      · exact Or.inl
      · rintro (hold | rfl)
        · exact hold
        · exact absurd ⟨rfl, rfl⟩ hkeys

/-- What `f` has listed, put into an empty map. -/
theorem find_collect_report (f : γ → Option δ) (g : δ → ε) (m : AssocMap α (AssocMap β γ)) (a : α)
    (b : β) :
    find (collect ((report f m).map fun cell => (cell.1, cell.2.1, g cell.2.2))) a b =
      ((find m a b).bind f).map g := by
  have hreport : (report f m).map (fun cell => (cell.1, cell.2.1, g cell.2.2)) =
      report (fun value => (f value).map g) m := by
    simp only [report, List.map_filterMap, Option.map_map]
    rfl
  have hone : ∀ a b value value', (a, b, value) ∈ report (fun value => (f value).map g) m →
      (a, b, value') ∈ report (fun value => (f value).map g) m → value = value' := by
    intro a b value value' h h'
    rw [mem_report] at h h'
    exact Option.some.inj (h.symm.trans h')
  apply Option.ext
  intro value
  rw [hreport, find_collect hone, mem_report, Option.map_bind]
  rfl

end NestedMap
