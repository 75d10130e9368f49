import Mathlib.Tactic

/-!
Methods that change a state and may fail. Unlike a computation in
`Except ε (α × σ)`, a failed call still has a state: whatever was written before the
failure stays. `call` runs a method on a state, and the equations here evaluate a
call step by step.
-/

abbrev Method (σ ε α : Type) := ExceptT ε (StateM σ) α

namespace Method

variable {σ ε α β : Type}
variable {next : α → Method σ ε β} {method : Method σ ε α}

/-- The result of the call, and the state it leaves behind. -/
def call (method : Method σ ε α) (s : σ) : Except ε α × σ :=
  Id.run (StateT.run (ExceptT.run method) s)

/-- `?` on a pure result. -/
def lift (result : Except ε α) : Method σ ε α := ExceptT.mk (pure result)

@[simp]
theorem call_pure (a : α) (s : σ) : call (pure a : Method σ ε α) s = (.ok a, s) := rfl

@[simp]
theorem call_throw (e : ε) (s : σ) : call (throw e : Method σ ε α) s = (.error e, s) := rfl

@[simp]
theorem call_lift (result : Except ε α) (s : σ) :
    call (lift result : Method σ ε α) s = (result, s) := rfl

@[simp]
theorem call_get (s : σ) : call (get : Method σ ε σ) s = (.ok s, s) := rfl

@[simp]
theorem call_set (s s' : σ) : call (set s' : Method σ ε PUnit) s = (.ok ⟨⟩, s') := rfl

@[simp]
theorem call_modify (f : σ → σ) (s : σ) :
    call (modify f : Method σ ε PUnit) s = (.ok ⟨⟩, f s) := rfl

theorem call_bind (method : Method σ ε α) (next : α → Method σ ε β) (s : σ) :
    call (method >>= next) s =
      match call method s with
      | (.ok a, s') => call (next a) s'
      | (.error e, s') => (.error e, s') := by
  simp only [call, ExceptT.run_bind, StateT.run_bind]
  rcases h : StateT.run (ExceptT.run method) s with ⟨result, s'⟩
  cases result <;> rfl

theorem call_eq_of_fst {s : σ} {result : Except ε α} (h : (call method s).1 = result) :
    call method s = (result, (call method s).2) := by
  rw [← h]

theorem call_bind_ok {s s' : σ} {a : α} (hok : call method s = (.ok a, s')) :
    call (method >>= next) s = call (next a) s' := by
  rw [call_bind, hok]

theorem call_bind_error {s s' : σ} {e : ε} (herror : call method s = (.error e, s')) :
    call (method >>= next) s = (.error e, s') := by
  rw [call_bind, herror]

/-- A call that succeeds is a first step that succeeds and a second one from there. -/
theorem call_bind_eq_ok {s s' : σ} {b : β} :
    call (method >>= next) s = (.ok b, s') ↔
      ∃ a s₁, call method s = (.ok a, s₁) ∧ call (next a) s₁ = (.ok b, s') := by
  rw [call_bind]
  rcases call method s with ⟨result, s₁⟩
  cases result with
  | error e => simp
  | ok a => simp

/-- What holds of the state that the first step leaves behind, and of the state after the
second step if there is one, holds after the sequence. -/
theorem call_bind_state {s : σ} {motive : σ → Prop} (hfirst : motive (call method s).2)
    (hnext : ∀ a s₁, call method s = (.ok a, s₁) → motive (call (next a) s₁).2) :
    motive (call (method >>= next) s).2 := by
  rw [call_bind]
  rcases hcall : call method s with ⟨result, s₁⟩
  rw [hcall] at hfirst
  cases result with
  | error e => exact hfirst
  | ok a => exact hnext a s₁ hcall

theorem call_bind_lift_state {result : Except ε α} {s : σ} {motive : σ → Prop} (hstart : motive s)
    (hnext : ∀ a, motive (call (next a) s).2) : motive (call (lift result >>= next) s).2 := by
  apply call_bind_state hstart
  intro a s₁ hcall
  obtain rfl : s = s₁ := (Prod.mk.inj hcall).2
  exact hnext a

/-- A method that first validates against the state changes nothing until the
validation succeeds. -/
theorem call_validated (check : σ → Except ε α) (next : σ → α → Method σ ε β) (s : σ) :
    call (do let s ← get; let a ← lift (check s); next s a) s =
      match check s with
      | .ok a => call (next s a) s
      | .error e => (.error e, s) := by
  rw [call_bind_ok (call_get s), call_bind, call_lift]
  cases check s with
  | error e => rfl
  | ok a => rfl

section Projects

variable {τ : Type} {view : σ → τ}

/-- `smaller` does on the view of a state what `method` does on the state. -/
def Projects (view : σ → τ) (method : Method σ ε α) (smaller : Method τ ε α) : Prop :=
  ∀ s, call smaller (view s) = ((call method s).1, view (call method s).2)

theorem projects_pure (a : α) : Projects view (pure a : Method σ ε α) (pure a) := fun _ => rfl

theorem projects_throw (e : ε) : Projects view (throw e : Method σ ε α) (throw e) := fun _ => rfl

theorem projects_lift (result : Except ε α) :
    Projects view (lift result : Method σ ε α) (lift result) := fun _ => rfl

theorem Projects.bind {method : Method σ ε α} {smaller : Method τ ε α}
    {next : α → Method σ ε β} {next' : α → Method τ ε β} (h : Projects view method smaller)
    (hnext : ∀ a, Projects view (next a) (next' a)) :
    Projects view (method >>= next) (smaller >>= next') := by
  intro s
  rw [call_bind, call_bind, h s]
  rcases call method s with ⟨result, s'⟩
  cases result with
  | error e => rfl
  | ok a => exact hnext a s'

end Projects

end Method

namespace Except

variable {ε ε' α β : Type}
variable {result : Except ε α}

/-- An early return with an error. -/
def refuseIf (p : Prop) [Decidable p] (e : ε) : Except ε Unit :=
  if p then .error e else .ok ()

/-- `Option::ok_or`. -/
def okOr (value : Option α) (e : ε) : Except ε α :=
  match value with
  | some a => .ok a
  | none => .error e

theorem bind_eq_ok {next : α → Except ε β} {b : β} :
    (result >>= next) = .ok b ↔ ∃ a, result = .ok a ∧ next a = .ok b := by
  cases result with
  | error e =>
    constructor
    · intro h
      cases h
    · rintro ⟨a, ha, -⟩
      cases ha
  | ok a =>
    constructor
    · intro h
      exact ⟨a, rfl, h⟩
    · rintro ⟨a', ha, h⟩
      cases ha
      exact h

theorem bind_eq_error {next : α → Except ε β} {e : ε} :
    (result >>= next) = .error e ↔
      result = .error e ∨ ∃ a, result = .ok a ∧ next a = .error e := by
  cases result with
  | error e' =>
    constructor
    · intro h
      cases h
      exact Or.inl rfl
    · rintro (h | ⟨a, ha, -⟩)
      · cases h
        rfl
      · cases ha
  | ok a =>
    constructor
    · intro h
      exact Or.inr ⟨a, rfl, h⟩
    · rintro (h | ⟨a', ha, h⟩)
      · cases h
      · cases ha
        exact h

@[simp]
theorem mapError_eq_error {wrap : ε → ε'} {e : ε'} :
    result.mapError wrap = .error e ↔ ∃ inner, result = .error inner ∧ wrap inner = e := by
  cases result with
  | error inner => simp [Except.mapError]
  | ok a => simp [Except.mapError]

@[simp]
theorem refuseIf_eq_error {p : Prop} [Decidable p] {e e' : ε} :
    refuseIf p e = .error e' ↔ p ∧ e = e' := by
  by_cases hp : p <;> simp [refuseIf, hp]

@[simp]
theorem mapError_ok (a : α) (wrap : ε → ε') : (ok a : Except ε α).mapError wrap = ok a := rfl

@[simp]
theorem mapError_eq_ok {wrap : ε → ε'} {a : α} : result.mapError wrap = .ok a ↔ result = .ok a := by
  cases result with
  | error e => simp [Except.mapError]
  | ok a' => simp [Except.mapError]

@[simp]
theorem refuseIf_eq_ok {p : Prop} [Decidable p] {e : ε} {u : Unit} :
    refuseIf p e = .ok u ↔ ¬ p := by
  by_cases hp : p <;> simp [refuseIf, hp]

@[simp]
theorem okOr_eq_ok {value : Option α} {e : ε} {a : α} :
    okOr value e = .ok a ↔ value = some a := by
  cases value <;> simp [okOr]

theorem toOption_eq_some {a : α} : result.toOption = some a ↔ result = .ok a := by
  cases result <;> simp [Except.toOption]

/-- A loop of checks passes if each of them does. -/
theorem forM_eq_ok {xs : List α} {check : α → Except ε Unit} :
    xs.forM check = .ok () ↔ ∀ x ∈ xs, check x = .ok () := by
  induction xs with
  | nil => exact iff_of_true rfl (List.forall_mem_nil _)
  | cons x rest ih =>
    have hcons : (x :: rest).forM check = (do check x; rest.forM check) := rfl
    rw [hcons, bind_eq_ok, List.forall_mem_cons]
    constructor
    · rintro ⟨⟨⟩, hx, hrest⟩
      exact ⟨hx, ih.mp hrest⟩
    · rintro ⟨hx, hrest⟩
      exact ⟨(), hx, ih.mpr hrest⟩

@[simp]
theorem pure_eq_ok {a b : α} : (pure a : Except ε α) = .ok b ↔ a = b :=
  Except.ok.injEq a b ▸ Iff.rfl

end Except
