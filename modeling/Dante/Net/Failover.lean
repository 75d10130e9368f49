import Dante.Crypto.Suite
import Dante.Proto.Enc

/-!
The libp2p client's choice among several relays, which are tried in an order, healthiest first or by
rendezvous hash. A relay that answers ends the request, also with an error of its own; any other
failure counts against its health and the next one is tried.

`one` turns the failure to reach a relay into `NetError::Peer`, which stands for a relay's own
answer, so that the loop ends there.
-/

namespace Dante.Net

open Crypto Enc

inductive RequestError where
  | closed
  | peer (message : String)
  | decode (error : WireError)
  deriving DecidableEq

/-- The highest score, of a relay that is taken for dead. -/
def maxScore : Nat := 20

/-- A candidate relay. A higher score is less healthy. -/
structure Cand where
  peer : Bytes
  score : Nat
  score_le : score ≤ maxScore
  deriving DecidableEq

namespace Cand

def new (peer : Bytes) : Cand where
  peer := peer
  score := 0
  score_le := Nat.zero_le _

def bump (cand : Cand) : Cand where
  peer := cand.peer
  score := min (cand.score + 2) maxScore
  score_le := Nat.min_le_right _ _

def heal (cand : Cand) : Cand where
  peer := cand.peer
  score := cand.score - 1
  score_le := (Nat.sub_le _ _).trans cand.score_le

end Cand

/-- What comes back from a relay; `R` is the type of the responses other than errors. -/
inductive RelayReply (R : Type) where
  | unreachable (reason : String)
  | garbled (error : WireError)
  | refused (message : String)
  | response (value : R)

/-- `P2pBackend::one` -/
def RelayReply.one {R : Type} : RelayReply R → Except RequestError R
  | unreachable reason => .error (.peer reason)
  | garbled error => .error (.decode error)
  | refused message => .error (.peer message)
  | response value => .ok value

/-- The classes of requests that go to one relay at a time. -/
inductive FanOut where
  | channel (channelId : ByteArr 32)
  | one

section Order

variable (S : Suite) (candidates : List Cand)

/-- Rendezvous-hash weight of a relay for a channel. -/
def hrw (peer : Bytes) (channelId : ByteArr 32) : Hash := S.sha256 (peer ++ channelId.toList)

def scoreOf (i : Nat) : Nat := (candidates[i]?.map Cand.score).getD 0

def order : List Nat :=
  (List.range candidates.length).insertionSort fun i j => scoreOf candidates i ≤ scoreOf candidates j

/-- What a channel's relays are sorted by: the dead ones last, then by weight. -/
def channelKey (channelId : ByteArr 32) (i : Nat) : Bytes :=
  (if scoreOf candidates i ≥ maxScore then 1 else 0) ::
    (hrw S ((candidates[i]?.map Cand.peer).getD []) channelId).toList

def channelOrder (channelId : ByteArr 32) : List Nat :=
  (List.range candidates.length).insertionSort fun i j =>
    channelKey S candidates channelId i ≤ channelKey S candidates channelId j

def tryOrder (fanOut : FanOut) : List Nat :=
  match fanOut with
  | .one => order candidates
  | .channel channelId => channelOrder S candidates channelId

end Order

section Requests

variable {R : Type} (reply : Nat → RelayReply R)
variable {candidates : List Cand} {indices : List Nat}

/-- The loop over the candidates in the order `indices`; `last` is the error to return if there
is none left. -/
def tryEach : List Nat → RequestError → List Cand → Except RequestError R × List Cand
  | [], last, candidates => (.error last, candidates)
  | i :: rest, _, candidates =>
    match (reply i).one with
    | .ok value => (.ok value, candidates.modify i Cand.heal)
    | .error (.peer message) => (.error (.peer message), candidates)
    | .error e => tryEach rest e (candidates.modify i Cand.bump)

/-- `P2pBackend::request` for the classes `One` and `Channel`. -/
def request (S : Suite) (candidates : List Cand) (fanOut : FanOut) :
    Except RequestError R × List Cand :=
  tryEach reply (tryOrder S candidates fanOut) .closed candidates

/-- The answer of a relay that answers at all. -/
def RelayReply.answer : RelayReply R → Option (Except RequestError R)
  | unreachable _ | garbled _ => none
  | refused message => some (.error (.peer message))
  | response value => some (.ok value)

/-- The answer of the first relay in the order that answers. -/
def firstAnswer (indices : List Nat) : Option (Except RequestError R) :=
  indices.findSome? fun i => (reply i).answer

def silent (indices : List Nat) : List Nat :=
  indices.takeWhile fun i => (reply i).answer.isNone

/-- What failing over means for a request that tries the relays in the order `indices`: the
first answer is returned, an error if there is none, and the relays that failed on the way
have got a worse score or the worst. -/
structure FailsOver (indices : List Nat) (candidates : List Cand)
    (outcome : Except RequestError R × List Cand) : Prop where
  answered : ∀ answer, firstAnswer reply indices = some answer → outcome.1 = answer
  unanswered : firstAnswer reply indices = none → ∃ e, outcome.1 = .error e
  worse : ∀ i ∈ silent reply indices,
    scoreOf candidates i < scoreOf outcome.2 i ∨ scoreOf outcome.2 i = maxScore

/-- No relay that is tried before the first answer is unreachable; or nothing shows it, as all
silent relays from there on have the worst score already and the first answer is a refusal in
the very words of the transport error. -/
def Tolerates (candidates : List Cand) : List Nat → Prop
  | [] => True
  | i :: rest =>
    match reply i with
    | .unreachable reason =>
      (∀ j ∈ silent reply (i :: rest), scoreOf candidates j = maxScore) ∧
        ∀ answer, firstAnswer reply rest = some answer → answer = .error (.peer reason)
    | .garbled _ => Tolerates candidates rest
    | .refused _ | .response _ => True

variable {reply}

theorem firstAnswer_cons_of_none {i : Nat} (rest : List Nat) (h : (reply i).answer = none) :
    firstAnswer reply (i :: rest) = firstAnswer reply rest := by
  rw [firstAnswer, List.findSome?_cons, h]
  rfl

theorem silent_cons_of_none {i : Nat} (rest : List Nat) (h : (reply i).answer = none) :
    silent reply (i :: rest) = i :: silent reply rest := by
  rw [silent, List.takeWhile_cons, h]
  rfl

theorem scoreOf_modify_ne (candidates : List Cand) (change : Cand → Cand) {i j : Nat}
    (hne : i ≠ j) : scoreOf (candidates.modify i change) j = scoreOf candidates j := by
  simp [scoreOf, hne]

theorem scoreOf_bump {i : Nat} (hi : i < candidates.length) :
    scoreOf candidates i < scoreOf (candidates.modify i Cand.bump) i ∨
      scoreOf (candidates.modify i Cand.bump) i = maxScore := by
  have hscore := candidates[i].score_le
  simp only [scoreOf, List.getElem?_modify, List.getElem?_eq_getElem hi, Option.map_eq_map,
    Option.map_some, Option.getD_some, if_true, Cand.bump]
  omega

/-- The loop touches the relays of its list only. -/
theorem scoreOf_tryEach {last : RequestError} {j : Nat} (hj : j ∉ indices) :
    scoreOf (tryEach reply indices last candidates).2 j = scoreOf candidates j := by
  induction indices generalizing last candidates with
  | nil => rfl
  | cons i rest ih =>
    rw [List.mem_cons, not_or] at hj
    rw [tryEach]
    split
    · exact scoreOf_modify_ne candidates Cand.heal (Ne.symm hj.1)
    · rfl
    · rw [ih hj.2, scoreOf_modify_ne candidates Cand.bump (Ne.symm hj.1)]

/-- The condition reads the scores of the relays of the list only. -/
theorem tolerates_congr {before after : List Cand}
    (hsame : ∀ j ∈ indices, scoreOf before j = scoreOf after j) :
    Tolerates reply before indices ↔ Tolerates reply after indices := by
  induction indices with
  | nil => exact Iff.rfl
  | cons i rest ih =>
    rw [Tolerates, Tolerates]
    cases reply i with
    | unreachable reason =>
      refine and_congr ?_ Iff.rfl
      refine forall_congr' fun j => imp_congr_right fun hj => ?_
      rw [hsame j ((List.takeWhile_prefix _).mem hj)]
    | garbled error => exact ih fun j hj => hsame j (List.mem_cons_of_mem _ hj)
    | refused message => exact Iff.rfl
    | response value => exact Iff.rfl

theorem failsOver_of_answer {i : Nat} (rest : List Nat) {answer : Except RequestError R}
    (hanswer : (reply i).answer = some answer) {candidates after : List Cand} :
    FailsOver reply (i :: rest) candidates (answer, after) := by
  have hfirst : firstAnswer reply (i :: rest) = some answer := by
    rw [firstAnswer, List.findSome?_cons, hanswer]
  refine ⟨fun other hother => ?_, fun hnone => ?_, fun j hj => ?_⟩
  · exact Option.some.inj (hfirst.symm.trans hother)
  · rw [hfirst] at hnone
    cases hnone
  · rw [silent, List.takeWhile_cons, hanswer] at hj
    cases hj

/-- By induction on the relays that are left. A garbled reply sends the loop on with a worse
score for that relay; an unreachable relay ends it. -/
theorem tryEach_failsOver_iff (hnodup : indices.Nodup) {last : RequestError}
    (hbounds : ∀ i ∈ indices, i < candidates.length) :
    FailsOver reply indices candidates (tryEach reply indices last candidates) ↔
      Tolerates reply candidates indices := by
  induction indices generalizing last candidates with
  | nil =>
    refine iff_of_true ⟨?_, ?_, ?_⟩ trivial
    · intro answer hanswer
      cases hanswer
    · exact fun _ => ⟨last, rfl⟩
    · intro i hi
      cases hi
  | cons i rest ih =>
    obtain ⟨hi, hrest⟩ := List.nodup_cons.mp hnodup
    rw [tryEach, Tolerates]
    cases hreply : reply i with
    | unreachable reason =>
      have hnone : (reply i).answer = none := by rw [hreply]; rfl
      simp only [RelayReply.one]
      constructor
      · intro h
        refine ⟨fun j hj => ?_, fun answer hanswer => ?_⟩
        · exact (h.worse j hj).resolve_left (Nat.lt_irrefl _)
        · exact (h.answered answer (by rw [firstAnswer_cons_of_none rest hnone, hanswer])).symm
      · rintro ⟨hscores, hanswer⟩
        refine ⟨fun answer hfirst => ?_, fun _ => ⟨_, rfl⟩, fun j hj => Or.inr (hscores j hj)⟩
        rw [firstAnswer_cons_of_none rest hnone] at hfirst
        exact (hanswer answer hfirst).symm
    | garbled error =>
      have hnone : (reply i).answer = none := by rw [hreply]; rfl
      have hothers : ∀ j ∈ rest,
          scoreOf candidates j = scoreOf (candidates.modify i Cand.bump) j := by
        intro j hj
        have hne : i ≠ j := by
          rintro rfl
          exact hi hj
        rw [scoreOf_modify_ne candidates Cand.bump hne]
      have hih : FailsOver reply rest (candidates.modify i Cand.bump)
          (tryEach reply rest (.decode error) (candidates.modify i Cand.bump)) ↔
            Tolerates reply (candidates.modify i Cand.bump) rest := by
        apply ih hrest
        intro j hj
        rw [List.length_modify]
        exact hbounds j (List.mem_cons_of_mem _ hj)
      simp only [RelayReply.one]
      rw [tolerates_congr hothers, ← hih]
      constructor
      · intro h
        refine ⟨fun answer hfirst => ?_, fun hfirst => ?_, fun j hj => ?_⟩
        · exact h.answered answer (by rw [firstAnswer_cons_of_none rest hnone, hfirst])
        · exact h.unanswered (by rw [firstAnswer_cons_of_none rest hnone, hfirst])
        · rw [← hothers j ((List.takeWhile_prefix _).mem hj)]
          exact h.worse j (by rw [silent_cons_of_none rest hnone]; exact List.mem_cons_of_mem _ hj)
      · intro h
        refine ⟨fun answer hfirst => ?_, fun hfirst => ?_, fun j hj => ?_⟩
        · exact h.answered answer (by rw [← firstAnswer_cons_of_none rest hnone, hfirst])
        · exact h.unanswered (by rw [← firstAnswer_cons_of_none rest hnone, hfirst])
        · rw [silent_cons_of_none rest hnone, List.mem_cons] at hj
          rcases hj with rfl | hj
          · -- the loop does not come back to the relay it has left
            rw [scoreOf_tryEach hi]
            exact scoreOf_bump (hbounds j List.mem_cons_self)
          · rw [hothers j ((List.takeWhile_prefix _).mem hj)]
            exact h.worse j hj
    | refused message | response value =>
      exact iff_of_true (failsOver_of_answer rest (by rw [hreply]; rfl)) trivial

theorem tryOrder_perm (S : Suite) (candidates : List Cand) (fanOut : FanOut) :
    (tryOrder S candidates fanOut).Perm (List.range candidates.length) := by
  cases fanOut with
  | one | channel channelId => exact List.perm_insertionSort _ _

/-- A request fails over exactly if no relay in front of the first answer is unreachable, apart
from the case that nothing shows it. -/
theorem request_failsOver_iff (S : Suite) (reply : Nat → RelayReply R) (candidates : List Cand)
    (fanOut : FanOut) :
    FailsOver reply (tryOrder S candidates fanOut) candidates
        (request reply S candidates fanOut) ↔
      Tolerates reply candidates (tryOrder S candidates fanOut) := by
  have hperm := tryOrder_perm S candidates fanOut
  apply tryEach_failsOver_iff
  · exact hperm.nodup_iff.mpr List.nodup_range
  · intro i hi
    exact List.mem_range.mp (hperm.mem_iff.mp hi)

/-- A dead relay stands in front of a live one: the request fails, and the dead relay keeps its
score and its place. -/
theorem dead_relay_not_skipped :
    let reply : Nat → RelayReply String := fun i =>
      if i = 0 then .unreachable "dial failed" else .response "pong"
    firstAnswer reply (tryOrder sampleSuite [.new [1], .new [2]] .one) = some (.ok "pong") ∧
      request reply sampleSuite [.new [1], .new [2]] .one =
        (.error (.peer "dial failed"), [.new [1], .new [2]]) := by
  decide

end Requests

end Dante.Net
