import Dante.Bytes
import Dante.Library.Recent

/-!
The filter for envelopes that a client has seen before: a set of tags, and a queue
that holds the same tags in the order in which they came. When the queue grows beyond
its bound, the oldest tag is forgotten.
-/

namespace Dante.Core

def seenCap : Nat := 5000

structure SeenEnvelopes where
  seen : Finset Hash
  order : List Hash
  deriving DecidableEq

namespace SeenEnvelopes

def new : SeenEnvelopes where
  seen := ∅
  order := []

/-- `record_seen_envelope`: whether the tag is new, and the filter that knows it. -/
def record (filter : SeenEnvelopes) (tag : Hash) (cap : Nat) : Bool × SeenEnvelopes :=
  if tag ∈ filter.seen then
    (false, filter)
  else
    let seen := insert tag filter.seen
    let order := filter.order ++ [tag]
    if order.length > cap then
      match order with
      | [] => (true, { seen := seen, order := order })
      | oldest :: rest => (true, { seen := seen.erase oldest, order := rest })
    else
      (true, { seen := seen, order := order })

/-- What a client has after a restart. Only the queue is stored. -/
def restore (stored : List Hash) : SeenEnvelopes where
  seen := stored.toFinset
  order := stored

def recordAll (cap : Nat) (tags : List Hash) : SeenEnvelopes :=
  Steps.exec (fun filter tag => (filter.record tag cap).2) new tags

def newlyRecorded (cap : Nat) (tags : List Hash) : List Hash :=
  Steps.marked (fun filter tag => (filter.record tag cap).2)
    (fun filter tag => (filter.record tag cap).1) new tags

/-- The filter has let `passed` through and knows the last `cap` of them. -/
structure Tracks (cap : Nat) (passed : List Hash) (filter : SeenEnvelopes) : Prop where
  order : filter.order = passed.rtake cap
  seen : filter.seen = filter.order.toFinset
  nodup : filter.order.Nodup

variable {cap : Nat} {passed : List Hash} {filter : SeenEnvelopes}

theorem tracks_new (cap : Nat) : Tracks cap [] new where
  order := by simp [new, List.rtake]
  seen := rfl
  nodup := List.nodup_nil

theorem Tracks.mem_seen (h : Tracks cap passed filter) (tag : Hash) :
    tag ∈ filter.seen ↔ tag ∈ passed.rtake cap := by
  rw [h.seen, List.mem_toFinset, h.order]

theorem record_of_mem {tag : Hash} (hmem : tag ∈ filter.seen) :
    filter.record tag cap = (false, filter) :=
  if_pos hmem

theorem Tracks.record_new (h : Tracks cap passed filter) {tag : Hash} (hnew : tag ∉ filter.seen) :
    (filter.record tag cap).1 = true ∧
      Tracks cap (passed ++ [tag]) (filter.record tag cap).2 := by
  have hnotin : tag ∉ filter.order := fun hmem => hnew (h.seen ▸ List.mem_toFinset.mpr hmem)
  have hnodup : (filter.order ++ [tag]).Nodup := List.concat_eq_append ▸ h.nodup.concat hnotin
  have hwindow : (passed ++ [tag]).rtake cap =
      (filter.order ++ [tag]).drop ((filter.order ++ [tag]).length - cap) := by
    rw [Recent.rtake_concat, ← h.order]
    rfl
  have hlen : filter.order.length ≤ cap := h.order ▸ Recent.length_rtake_le cap passed
  have hseen : insert tag filter.seen = (filter.order ++ [tag]).toFinset := by
    rw [h.seen, List.toFinset_append, Finset.union_comm]
    rfl
  rw [record, if_neg hnew]
  dsimp only
  by_cases hfull : (filter.order ++ [tag]).length > cap
  · rw [if_pos hfull, hseen]
    have hdrop : (filter.order ++ [tag]).length - cap = 1 := by
      rw [List.length_append, List.length_singleton] at hfull ⊢
      omega
    rw [hdrop] at hwindow
    -- the queue is not empty, so its oldest tag goes
    cases horder : filter.order ++ [tag] with
    | nil => simp at horder
    | cons oldest rest =>
      rw [horder] at hwindow hnodup
      obtain ⟨hfresh, hrest⟩ := List.nodup_cons.mp hnodup
      refine ⟨rfl, ⟨hwindow.symm, ?_, hrest⟩⟩
      rw [List.toFinset_cons]
      exact Finset.erase_insert fun hmem => hfresh (List.mem_toFinset.mp hmem)
  · rw [if_neg hfull]
    have hdrop : (filter.order ++ [tag]).length - cap = 0 := by omega
    rw [hdrop] at hwindow
    exact ⟨rfl, ⟨hwindow.symm, hseen, hnodup⟩⟩

theorem Tracks.record (h : Tracks cap passed filter) (tag : Hash) :
    (filter.record tag cap).1 = decide (tag ∉ passed.rtake cap) ∧
      Tracks cap (Recent.offer cap passed tag) (filter.record tag cap).2 := by
  rw [Recent.offer]
  by_cases hmem : tag ∈ filter.seen
  · have hknown := (h.mem_seen tag).mp hmem
    rw [record_of_mem hmem, if_pos hknown]
    exact ⟨by simp [hknown], h⟩
  · have hunknown : tag ∉ passed.rtake cap := fun hknown => hmem ((h.mem_seen tag).mpr hknown)
    rw [if_neg hunknown, decide_eq_true hunknown]
    exact h.record_new hmem

theorem Tracks.recordAll (h : Tracks cap passed filter) (tags : List Hash) :
    Tracks cap
      (passed ++ Steps.marked (fun filter tag => (filter.record tag cap).2)
        (fun filter tag => (filter.record tag cap).1) filter tags)
      (Steps.exec (fun filter tag => (filter.record tag cap).2) filter tags) := by
  induction tags generalizing passed filter with
  | nil =>
    rw [Steps.marked, List.append_nil]
    exact h
  | cons tag rest ih =>
    rw [Steps.marked, Steps.exec_cons]
    by_cases hmem : tag ∈ filter.seen
    · rw [record_of_mem hmem]
      exact ih h
    · obtain ⟨hnew, hnext⟩ := h.record_new hmem
      rw [hnew, if_pos rfl, ← List.append_assoc]
      exact ih hnext

/-- The filter is a window over the tags that were new when they came: it knows the last `cap` of
them, in the order in which they came, and no others. A restart changes nothing about it. -/
theorem recordAll_window (cap : Nat) (tags : List Hash) :
    let filter := recordAll cap tags
    filter.order.Nodup ∧ filter.seen = filter.order.toFinset ∧ filter.order.length ≤ cap ∧
      filter.order = (newlyRecorded cap tags).rtake cap ∧
      (∀ tag, (filter.record tag cap).1 = false ↔ tag ∈ filter.order) ∧
      restore filter.order = filter := by
  intro filter
  have h : Tracks cap (newlyRecorded cap tags) filter := (tracks_new cap).recordAll tags
  refine ⟨h.nodup, h.seen, h.order ▸ Recent.length_rtake_le cap _, h.order, ?_, ?_⟩
  · intro tag
    rw [(h.record tag).1, h.order]
    simp
  · rw [restore, ← h.seen]

end SeenEnvelopes

end Dante.Core
