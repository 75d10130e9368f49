import Dante.Library.Codec
import Dante.Library.Method

/-!
What holds of every error that a computation can end with. The rules follow the ways in which
computations are put together, so that a fact about the errors of a long computation comes down
to one about each error that it names.
-/

namespace Except

variable {ε ε' α β : Type} {P : ε → Prop}
variable {result : Except ε α}

/-- If the result is an error, `P` holds for it. -/
def FailsIn (P : ε → Prop) (result : Except ε α) : Prop := ∀ e, result = .error e → P e

theorem failsIn_ok (a : α) : FailsIn P (.ok a : Except ε α) := by
  rintro e ⟨⟩

theorem failsIn_error {e : ε} (h : P e) : FailsIn P (.error e : Except ε α) := by
  rintro e' ⟨⟩
  exact h

/-- The rest of a computation knows what came before it. -/
theorem FailsIn.bind_ok {next : α → Except ε β} (h : FailsIn P result)
    (hnext : ∀ a, result = .ok a → FailsIn P (next a)) : FailsIn P (result >>= next) := by
  intro e herror
  rcases bind_eq_error.mp herror with hfirst | ⟨a, hok, hrest⟩
  · exact h e hfirst
  · exact hnext a hok e hrest

theorem FailsIn.bind {next : α → Except ε β} (h : FailsIn P result)
    (hnext : ∀ a, FailsIn P (next a)) : FailsIn P (result >>= next) :=
  h.bind_ok fun a _ => hnext a

theorem failsIn_refuseIf {p : Prop} [Decidable p] {e : ε} (h : P e) :
    FailsIn P (refuseIf p e) := by
  intro e' herror
  exact (refuseIf_eq_error.mp herror).2 ▸ h

theorem failsIn_refuse {p : Prop} [Decidable p] {e : ε} {rest : Except ε β} (h : P e)
    (hrest : FailsIn P rest) : FailsIn P (refuseIf p e >>= fun _ => rest) :=
  (failsIn_refuseIf h).bind fun _ => hrest

theorem failsIn_okOr {value : Option α} {e : ε} (h : P e) : FailsIn P (okOr value e) := by
  cases value with
  | none => exact failsIn_error h
  | some a => exact failsIn_ok a

theorem FailsIn.exists_ok (h : FailsIn (fun _ => False) result) : ∃ a, result = .ok a := by
  cases result with
  | error e => exact (h e rfl).elim
  | ok a => exact ⟨a, rfl⟩

theorem FailsIn.mapError {Q : ε' → Prop} {wrap : ε → ε'} (h : FailsIn P result)
    (hwrap : ∀ e, P e → Q (wrap e)) : FailsIn Q (result.mapError wrap) := by
  intro e herror
  obtain ⟨inner, hinner, rfl⟩ := mapError_eq_error.mp herror
  exact hwrap inner (h inner hinner)

/-- An error that hides the one it stands for. -/
theorem failsIn_mapError_const {result : Except ε' α} {e : ε} (h : P e) :
    FailsIn P (result.mapError fun _ => e) := by
  intro e' herror
  obtain ⟨-, -, rfl⟩ := mapError_eq_error.mp herror
  exact h

end Except

namespace Parser

open Except

variable {β ε α γ : Type} {P : ε → Prop}
variable {parser : Parser β ε α}

/-- Whatever the input, an error of the parser satisfies `P`. -/
def FailsIn (P : ε → Prop) (parser : Parser β ε α) : Prop :=
  ∀ input, Except.FailsIn P (parser.run input)

theorem failsIn_pure (a : α) : FailsIn P (pure a : Parser β ε α) := fun _ => failsIn_ok _

theorem failsIn_throw {e : ε} (h : P e) : FailsIn P (throw e : Parser β ε α) :=
  fun _ => failsIn_error h

theorem failsIn_get : FailsIn P (get : Parser β ε (List β)) := fun _ => failsIn_ok _

theorem FailsIn.bind {next : α → Parser β ε γ} (h : FailsIn P parser)
    (hnext : ∀ a, FailsIn P (next a)) : FailsIn P (parser >>= next) := by
  intro input
  rw [StateT.run_bind]
  exact (h input).bind fun result => hnext result.1 result.2

theorem FailsIn.map (h : FailsIn P parser) (f : α → γ) :
    FailsIn P (do return f (← parser)) := h.bind fun _ => failsIn_pure _

theorem FailsIn.times (h : FailsIn P parser) (n : Nat) : FailsIn P (Parser.times parser n) := by
  induction n with
  | zero => exact failsIn_pure _
  | succ n ih => exact h.bind fun _ => ih.bind fun _ => failsIn_pure _

end Parser
