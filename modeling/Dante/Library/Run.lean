import Mathlib.Tactic

/-!
Runs of a deterministic system: a step function and a list of operations. A side
condition on each step is checked in the state before the step. The one
induction that every invariant needs is done here.
-/

namespace Steps

variable {σ ο : Type*} (step : σ → ο → σ)
variable {ops : List ο} {ok ok' : σ → ο → Prop} {s : σ}

def exec (s : σ) (ops : List ο) : σ := ops.foldl step s

/-- Every step of the run meets `ok` in the state before it. -/
def Along (ok : σ → ο → Prop) : σ → List ο → Prop
  | _, [] => True
  | s, op :: rest => ok s op ∧ Along ok (step s op) rest

instance (ok : σ → ο → Prop) [∀ s op, Decidable (ok s op)] (s : σ) (ops : List ο) :
    Decidable (Along step ok s ops) :=
  match ops with
  | [] => isTrue trivial
  | op :: rest =>
    have := instDecidableAlong ok (step s op) rest
    inferInstanceAs (Decidable (_ ∧ _))

variable {step}

theorem exec_append (s : σ) (first second : List ο) :
    exec step s (first ++ second) = exec step (exec step s first) second :=
  List.foldl_append

theorem exec_cons (s : σ) (op : ο) (ops : List ο) :
    exec step s (op :: ops) = exec step (step s op) ops := rfl

theorem exec_snoc (s : σ) (ops : List ο) (op : ο) :
    exec step s (ops ++ [op]) = step (exec step s ops) op :=
  exec_append s ops [op]

theorem exec_concat (before ops : List ο) :
    exec (fun before op => before ++ [op]) before ops = before ++ ops := by
  induction ops generalizing before with
  | nil => exact (List.append_nil before).symm
  | cons op rest ih => exact (ih _).trans (List.append_assoc before [op] rest)

theorem along_append {ok : σ → ο → Prop} {first second : List ο} :
    Along step ok s (first ++ second) ↔
      Along step ok s first ∧ Along step ok (exec step s first) second := by
  induction first generalizing s with
  | nil => exact ⟨fun h => ⟨trivial, h⟩, fun h => h.2⟩
  | cons op rest ih =>
    rw [List.cons_append, Along, Along, ih, and_assoc]
    rfl

theorem along_of_forall {p : ο → Prop} (h : ∀ op ∈ ops, p op) :
    Along step (fun _ op => p op) s ops := by
  induction ops generalizing s with
  | nil => trivial
  | cons op rest ih =>
    exact ⟨h op List.mem_cons_self, ih fun other hother => h other (List.mem_cons_of_mem _ hother)⟩

theorem along_congr (h : ∀ s op, ok s op ↔ ok' s op) :
    Along step ok s ops ↔ Along step ok' s ops := by
  obtain rfl : ok = ok' := funext fun s => funext fun op => propext (h s op)
  exact Iff.rfl

theorem along_and (h : Along step ok s ops) (h' : Along step ok' s ops) :
    Along step (fun s op => ok s op ∧ ok' s op) s ops := by
  induction ops generalizing s with
  | nil => trivial
  | cons op rest ih => exact ⟨⟨h.1, h'.1⟩, ih h.2 h'.2⟩

/-- What no step changes, a run does not change. -/
theorem foldl_keeps {γ : Type*} (part : σ → γ) (hstep : ∀ s op, part (step s op) = part s) (s : σ)
    (ops : List ο) : part (ops.foldl step s) = part s := by
  induction ops generalizing s with
  | nil => rfl
  | cons op rest ih => exact (ih _).trans (hstep s op)

theorem exec_invariant {ok : σ → ο → Prop} (inv : σ → Prop)
    (hstep : ∀ s op, inv s → ok s op → inv (step s op)) (hinit : inv s) (hrun : Along step ok s ops) :
    inv (exec step s ops) := by
  induction ops generalizing s with
  | nil => exact hinit
  | cons op rest ih => exact ih (hstep s op hinit hrun.1) hrun.2

/-- What an invariant says of every step, each in the state before it. -/
theorem along_invariant (inv : σ → Prop) (hstep : ∀ s op, inv s → ok s op → inv (step s op))
    (hok : ∀ s op, inv s → ok s op → ok' s op) (hinit : inv s) (hrun : Along step ok s ops) :
    Along step ok' s ops := by
  induction ops generalizing s with
  | nil => trivial
  | cons op rest ih =>
    exact ⟨hok s op hinit hrun.1, ih (hstep s op hinit hrun.1) hrun.2⟩

/-- The operations of a run that `p` holds of in the state before them. -/
def marked (step : σ → ο → σ) (p : σ → ο → Bool) : σ → List ο → List ο
  | _, [] => []
  | s, op :: rest => (if p s op then [op] else []) ++ marked step p (step s op) rest

theorem mem_marked_cons {p : σ → ο → Bool} {op other : ο} {rest : List ο} :
    other ∈ marked step p s (op :: rest) ↔
      p s op = true ∧ other = op ∨ other ∈ marked step p (step s op) rest := by
  rw [marked, List.mem_append]
  by_cases hp : p s op = true
  · simp [hp]
  · simp [hp]

/-- What an invariant says of the marked operations, each in the state before it. -/
theorem forall_marked {p : σ → ο → Bool} {q : ο → Prop} (inv : σ → Prop)
    (hstep : ∀ s op, inv s → inv (step s op)) (hmarked : ∀ s op, inv s → p s op = true → q op)
    (hinit : inv s) : ∀ op ∈ marked step p s ops, q op := by
  induction ops generalizing s with
  | nil => exact fun op hop => by cases hop
  | cons first rest ih =>
    intro op hop
    rcases mem_marked_cons.mp hop with ⟨hp, rfl⟩ | hlater
    · exact hmarked s op hinit hp
    · exact ih (hstep s first hinit) op hlater

end Steps
