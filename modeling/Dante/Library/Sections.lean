import Dante.Library.Codec

/-!
A format that grows at its end. Each section is a list, and is read only while there is
input left, so that an input that was written before a section was introduced still
parses, with that section empty. The sections are a family `Item` of types, and a value
is what each of them holds.
-/

namespace Parser

variable {β ε ι α : Type} [DecidableEq ι] {Item : ι → Type}

/-- The parser, or nothing at the end of the input. -/
def whileLeft (parser : Parser β ε (List α)) : Parser β ε (List α) := do
  if (← get).length > 0 then
    parser
  else
    return []

theorem run_whileLeft_nil (parser : Parser β ε (List α)) :
    (whileLeft parser).run [] = .ok ([], []) := rfl

theorem run_whileLeft (parser : Parser β ε (List α)) {input : List β} (hne : input ≠ []) :
    (whileLeft parser).run input = parser.run input := by
  have hget : (get : Parser β ε (List β)).run input = .ok (input, input) := rfl
  rw [whileLeft, run_bind_of_ok hget, if_pos (List.length_pos_iff.mpr hne)]

def sections (parser : (i : ι) → Parser β ε (List (Item i))) :
    List ι → Parser β ε ((i : ι) → List (Item i))
  | [] => return fun _ => []
  | i :: order => do
    let items ← whileLeft (parser i)
    let others ← sections parser order
    return Function.update others i items

section Sections

variable {parser : (i : ι) → Parser β ε (List (Item i))} {written : ι → List β}
  {values : (i : ι) → List (Item i)} {order : List ι}

/-- An input that ends after the first `k` sections; behind the last one anything may follow. -/
theorem run_sections (hne : ∀ i, written i ≠ [])
    (hreads : ∀ i ∈ order, Reads (parser i) (written i) (values i)) (k : Nat) {rest : List β}
    (hrest : k < order.length → rest = []) :
    (sections parser order).run (((order.map written).take k).flatten ++ rest) =
      .ok (fun i => if i ∈ order.take k then values i else [], rest) := by
  induction order generalizing k with
  | nil =>
    simp only [List.map_nil, List.take_nil, List.flatten_nil, List.nil_append, List.not_mem_nil,
      if_false]
    rfl
  | cons i order ih =>
    have hreads' := fun j hj => hreads j (List.mem_cons_of_mem _ hj)
    cases k with
    | zero =>
      obtain rfl := hrest (Nat.succ_pos _)
      have hothers := ih hreads' 0 fun _ => rfl
      simp only [List.take_zero, List.flatten_nil, List.nil_append, List.not_mem_nil, if_false]
        at hothers ⊢
      rw [sections, run_bind_of_ok (run_whileLeft_nil _), run_bind_of_ok hothers]
      have hvalues : Function.update (fun j => ([] : List (Item j))) i [] = fun _ => [] :=
        Function.update_eq_self i _
      rw [hvalues]
      rfl
    | succ k =>
      have hothers := ih hreads' k fun hlt => hrest (Nat.succ_lt_succ hlt)
      rw [List.map_cons, List.take_succ_cons, List.flatten_cons, List.append_assoc, sections,
        run_bind_of_ok ((run_whileLeft _ (List.append_ne_nil_of_left_ne_nil (hne i) _)).trans
          (hreads i List.mem_cons_self _)), run_bind_of_ok hothers]
      have hvalues : Function.update (fun j => if j ∈ order.take k then values j else []) i
          (values i) = fun j => if j ∈ i :: order.take k then values j else [] := by
        funext j
        by_cases hj : j = i
        · subst hj
          simp
        · simp [hj]
      rw [hvalues]
      rfl

theorem run_all_sections (hne : ∀ i, written i ≠ [])
    (hreads : ∀ i ∈ order, Reads (parser i) (written i) (values i)) (hall : ∀ i, i ∈ order)
    (rest : List β) :
    (sections parser order).run ((order.map written).flatten ++ rest) = .ok (values, rest) := by
  have hrun := run_sections hne hreads order.length fun h =>
    absurd (b := rest = []) h (lt_irrefl _)
  simpa only [← List.map_take, List.take_length, hall, if_true] using hrun

/-- What holds for every section that is read, and for an empty one, holds for all. -/
theorem forall_of_sections {Q : (i : ι) → List (Item i) → Prop}
    (hsection : ∀ i input rest items, (parser i).run input = .ok (items, rest) → Q i items)
    (hnil : ∀ i, Q i []) {input rest : List β} {found : (i : ι) → List (Item i)}
    (hok : (sections parser order).run input = .ok (found, rest)) (i : ι) : Q i (found i) := by
  induction order generalizing input found with
  | nil =>
    cases hok
    exact hnil i
  | cons j order ih =>
    obtain ⟨items, mid, hitems, hok⟩ := run_bind_ok hok
    obtain ⟨others, last, hothers, hok⟩ := run_bind_ok hok
    cases hok
    by_cases hi : i = j
    · subst hi
      rw [Function.update_self]
      by_cases hinput : input = []
      · subst hinput
        cases hitems
        exact hnil i
      · rw [run_whileLeft _ hinput] at hitems
        exact hsection i _ _ _ hitems
    · rw [Function.update_of_ne hi]
      exact ih hothers

end Sections

end Parser
