import Mathlib.Data.List.Sort
import Mathlib.Data.List.Destutter

/-!
Lists that are sorted and then thinned out: of neighbours that agree, only the first is
kept. What neighbours satisfy then, all pairs satisfy.
-/

namespace Sorted

variable {α : Type} {R S T : α → α → Prop} {l : List α}

/-- A list that is sorted by `R` and has neighbours in `S`, when both together are a transitive
relation. -/
theorem pairwise_of_isChain [IsTrans α T] (hboth : ∀ a b, R a b → S a b → T a b)
    (hsorted : l.Pairwise R) (hchain : l.IsChain S) : l.Pairwise T := by
  induction l with
  | nil => exact List.Pairwise.nil
  | cons first rest ih =>
    obtain ⟨hfirst, hrest⟩ := List.pairwise_cons.mp hsorted
    have htail := ih hrest hchain.tail
    apply List.pairwise_cons.mpr ⟨_, htail⟩
    intro other hother
    cases rest with
    | nil => cases hother
    | cons second others =>
      have hsecond := hboth _ _ (hfirst second List.mem_cons_self)
        (List.isChain_cons_cons.mp hchain).1
      rcases List.mem_cons.mp hother with rfl | hother
      · exact hsecond
      · exact Trans.trans hsecond ((List.pairwise_cons.mp htail).1 other hother)

variable [DecidableRel R] [DecidableRel S]

theorem pairwise_destutter [Std.Total R] [IsTrans α R] [IsTrans α T]
    (hboth : ∀ a b, R a b → S a b → T a b) (l : List α) :
    ((l.insertionSort R).destutter S).Pairwise T :=
  pairwise_of_isChain hboth
    ((List.pairwise_insertionSort R l).sublist (List.destutter_sublist S _))
    (List.isChain_destutter S _)

theorem mem_of_mem_destutter {a : α} (h : a ∈ (l.insertionSort R).destutter S) : a ∈ l :=
  (List.mem_insertionSort R).mp ((List.destutter_sublist S _).mem h)

end Sorted
