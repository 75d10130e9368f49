import Dante.Relay.Accounting

/-!
Mail arrives at a relay more than once: a sender writes to every relay, and every relay passes
on what it took. Only what other relays pass on is compared with the hashes of what was stored,
and the set of these hashes is emptied when it grows too long.
-/

namespace Dante.Net.Mailbox

variable {mailbox : Mailbox} {env : Envelope}

private theorem count_eq_sum (a : Envelope) (envs : List Envelope) :
    envs.count a = (envs.map fun env => if env = a then 1 else 0).sum := by
  induction envs with
  | nil => rfl
  | cons env rest ih =>
    rw [List.count_cons, List.map_cons, List.sum_cons, ih, beq_eq_decide]
    simp only [decide_eq_true_eq]
    omega

theorem envelopes_stored_perm (mailbox : Mailbox) (env : Envelope) :
    (mailbox.stored env).envelopes.Perm (env :: mailbox.envelopes) := by
  refine List.perm_iff_count.mpr fun a => ?_
  rw [count_eq_sum, sum_envelopes_stored, count_eq_sum, List.map_cons, List.sum_cons]
  exact Nat.add_comm _ _

theorem count_envelopes_gc_le (a : Envelope) (mailbox : Mailbox) (nowMs : UInt64) :
    (mailbox.gc nowMs).2.envelopes.count a ≤ mailbox.envelopes.count a := by
  rw [count_eq_sum, count_eq_sum,
    ← sum_envelopes_gc (fun env => if env = a then 1 else 0) mailbox nowMs]
  exact Nat.le_add_right _ _

end Dante.Net.Mailbox

namespace Dante.Relay.Stores

open Crypto Net

variable {S : Suite} {stores : Stores}

def held (stores : Stores) : List Bytes := stores.mailbox.envelopes.map Envelope.encode

/-- The set of hashes is not about to be emptied, and a client sends nothing that is held. -/
def SentOnce (stores : Stores) : StoreOp → Prop
  | .deposit blob limited _ =>
    limited = true ∨ blob ∉ stores.held ∧ stores.mboxSeen.card ≤ 16384
  | .gossip _ _ => stores.mboxSeen.card ≤ 16384
  | .putBlob _ _ _ | .maintain _ => True

instance (stores : Stores) : (op : StoreOp) → Decidable (stores.SentOnce op)
  | .deposit blob limited _ =>
    inferInstanceAs (Decidable (limited = true ∨ blob ∉ stores.held ∧ _ ≤ 16384))
  | .gossip _ _ => inferInstanceAs (Decidable (_ ≤ 16384))
  | .putBlob _ _ _ | .maintain _ => inferInstanceAs (Decidable True)

/-- Every envelope is held once and has its hash in the set. -/
structure Single (S : Suite) (stores : Stores) : Prop where
  once : stores.mailbox.envelopes.Nodup
  decoded : ∀ env ∈ stores.mailbox.envelopes, Envelope.decode env.encode = .ok env
  seen : ∀ env ∈ stores.mailbox.envelopes, S.sha256 env.encode ∈ stores.mboxSeen

theorem single_new (S : Suite) : Single S new where
  once := List.nodup_nil
  decoded _ hmem := nomatch hmem
  seen _ hmem := nomatch hmem

/-- Encodings of decoded envelopes differ if the envelopes do. -/
theorem Single.nodup_held (h : stores.Single S) : stores.held.Nodup := by
  refine h.once.map_on fun a ha b hb heq => ?_
  have hdecode := h.decoded a ha
  rw [heq, h.decoded b hb] at hdecode
  cases hdecode
  rfl

theorem Single.maintain (h : stores.Single S) (now : UInt64) : (stores.maintain now).Single S := by
  have hmem {env : Envelope} (henv : env ∈ (stores.maintain now).mailbox.envelopes) :
      env ∈ stores.mailbox.envelopes := by
    rw [← List.count_pos_iff] at henv ⊢
    exact henv.trans_le (Mailbox.count_envelopes_gc_le env stores.mailbox now)
  constructor
  case once =>
    rw [List.nodup_iff_count_le_one]
    intro env
    exact (Mailbox.count_envelopes_gc_le env stores.mailbox now).trans
      (List.nodup_iff_count_le_one.mp h.once env)
  case decoded => exact fun env henv => h.decoded env (hmem henv)
  case seen => exact fun env henv => h.seen env (hmem henv)

theorem Single.taken (h : stores.Single S) {blob : Bytes} {env : Envelope}
    (hdecode : Envelope.decode blob = .ok env) (hnew : blob ∉ stores.held)
    (hroom : stores.mboxSeen.card ≤ 16384) : (stores.taken S blob env).Single S := by
  obtain rfl := Envelope.encode_of_decode hdecode
  have hseen : (stores.taken S env.encode env).mboxSeen =
      insert (S.sha256 env.encode) stores.mboxSeen := by
    rw [Stores.taken, noteEnvelope, if_neg hroom.not_gt]
  have hperm : (stores.taken S env.encode env).mailbox.envelopes.Perm
      (env :: stores.mailbox.envelopes) :=
    Mailbox.envelopes_stored_perm stores.mailbox env
  constructor
  case once =>
    refine hperm.nodup_iff.mpr (List.nodup_cons.mpr ⟨?_, h.once⟩)
    exact fun hmem => hnew (List.mem_map_of_mem hmem)
  case decoded =>
    intro other hother
    rcases List.mem_cons.mp (hperm.mem_iff.mp hother) with rfl | hold
    · exact hdecode
    · exact h.decoded other hold
  case seen =>
    intro other hother
    rw [hseen]
    rcases List.mem_cons.mp (hperm.mem_iff.mp hother) with rfl | hold
    · exact Finset.mem_insert_self _ _
    · exact Finset.mem_insert_of_mem (h.seen other hold)

/-- What is held has been seen, so that a gossiped copy of it is dropped. -/
theorem Single.not_held (h : stores.Single S) {blob : Bytes} (hunseen : S.sha256 blob ∉ stores.mboxSeen) :
    blob ∉ stores.held := by
  rintro hmem
  obtain ⟨env, henv, rfl⟩ := List.mem_map.mp hmem
  exact hunseen (h.seen env henv)

theorem Single.step (h : stores.Single S) {op : StoreOp} (honce : stores.SentOnce op) :
    (stores.step S op).Single S := by
  cases op with
  | deposit blob limited now =>
    rcases honce with rfl | ⟨hnew, hroom⟩
    · rw [Stores.step, Stores.deposit]
      split
      · exact h
      · exact h
    · rcases deposit_cases S stores blob limited now with ⟨e, hsame⟩ | ⟨env, hdecode, -, htaken⟩
      · rw [Stores.step, hsame]
        exact h
      · rw [Stores.step, htaken]
        exact h.taken hdecode hnew hroom
  | gossip blob now =>
    rcases gossip_cases S stores blob now with hsame | ⟨env, hdecode, -, hunseen, htaken⟩
    · rw [Stores.step, hsame]
      exact h
    · rw [Stores.step, htaken]
      exact h.taken hdecode (h.not_held hunseen) honce
  | putBlob bytes limited now => exact ⟨h.once, h.decoded, h.seen⟩
  | maintain now => exact h.maintain now

/-- No two envelopes of the mailbox have the same bytes, in every state of a run in which no
client sends what is held and the set of hashes is not emptied. -/
theorem nodup_held_exec (S : Suite) (ops : List StoreOp)
    (honce : Steps.Along (step S) SentOnce new ops) :
    (Steps.exec (step S) new ops).held.Nodup :=
  (Steps.exec_invariant (Single S) (fun _ _ h hop => h.step hop) (single_new S) honce).nodup_held

/-- A client's envelope comes back from two relays and is stored once. -/
theorem nodup_held_sample :
    let ops : List StoreOp := [.deposit sampleEnvelope.encode false 1000,
      .gossip sampleEnvelope.encode 1001, .maintain 2000, .gossip sampleEnvelope.encode 2001]
    (Steps.exec (step sampleSuite) new ops).held = [sampleEnvelope.encode] ∧
      (Steps.exec (step sampleSuite) new ops).held.Nodup := by
  intro ops
  exact ⟨by decide +kernel, nodup_held_exec sampleSuite ops (by decide +kernel)⟩

/-- Another relay's copy arrives first, and the sender's own write stores a second one. -/
theorem held_twice :
    (Steps.exec (step sampleSuite) new [.gossip sampleEnvelope.encode 1000,
      .deposit sampleEnvelope.encode false 1001]).held =
      [sampleEnvelope.encode, sampleEnvelope.encode] := by
  decide +kernel

end Dante.Relay.Stores
