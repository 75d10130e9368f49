import Dante.Dm.RatchetSpec
import Dante.Library.Run

/-!
Two ratchets and the network between them, which delivers the messages in flight in any order, each
at most once.

The ratchet secrets of a session form one sequence, in which the parties alternate. A party that
holds secret `j` sends on chain `j` and receives on chain `j - 1`, and the two are always one secret
apart. Message `n` of chain `c` is still to be delivered in one of three ways: chain `c` is yet to
be opened, the receiving chain has not reached `n`, or the key has been stored.
-/

namespace Dante.Dm

open Crypto Ratchet

inductive Party where
  | alice
  | bob
  deriving DecidableEq, Repr

def Party.other : Party → Party
  | alice => bob
  | bob => alice

@[simp]
theorem Party.other_other (p : Party) : p.other.other = p := by
  cases p <;> rfl

theorem Party.other_ne (p : Party) : p.other ≠ p := by
  cases p <;> decide

theorem Party.eq_or_other (p q : Party) : q = p ∨ q = p.other := by
  cases p <;> cases q <;> decide

structure Message where
  recipient : Party
  header : Header
  ct : Bytes
  plaintext : Bytes
  deriving DecidableEq

/-- Both ratchets, the messages in flight, the ratchet public keys drawn so far,
and for every `decrypt` call the plaintext that was encrypted and the result. -/
structure World where
  ratchet : Party → Ratchet
  inFlight : List Message
  drawn : List Key
  calls : List (Bytes × Except DmError Bytes)

inductive Op where
  | send (sender : Party) (plaintext : Bytes)
  /-- Deliver a message in flight; `fresh` is what `generate` returns if it is
  called. -/
  | deliver (index : Nat) (fresh : Key)

section Network

variable (P : Primitives) (ad : Bytes)

/-- The pair `(init_alice(sk, spk_pub), init_bob(sk, spk))`. -/
def World.start (sk spk aliceSecret : Key) : Except DmError World := do
  let alice ← initAlice P sk (P.x25519Public spk) aliceSecret
  pure
    { ratchet := fun
        | .alice => alice
        | .bob => initBob sk spk
      inFlight := []
      drawn := [P.x25519Public spk, P.x25519Public aliceSecret]
      calls := [] }

def World.initial (sk spk aliceSecret : Key) : World :=
  { ratchet := fun
      | .alice => initiator P sk spk aliceSecret
      | .bob => initBob sk spk
    inFlight := []
    drawn := [P.x25519Public spk, P.x25519Public aliceSecret]
    calls := [] }

theorem World.start_eq {P : Primitives} (hP : Honest P) (sk spk aliceSecret : Key) :
    World.start P sk spk aliceSecret = .ok (World.initial P sk spk aliceSecret) := by
  rw [World.start, initAlice_eq hP]
  rfl

/-- `decrypt` takes a Diffie-Hellman step for this header. -/
def drawsKey (r : Ratchet) (header : Header) : Prop :=
  r.skipped.lookup (header.dh, header.n) = none ∧ r.dhr ≠ some header.dh

instance (r : Ratchet) (header : Header) : Decidable (drawsKey r header) :=
  inferInstanceAs (Decidable (_ ∧ _))

def World.step (w : World) : Op → World
  | .send sender plaintext =>
    match (encrypt P plaintext ad).call (w.ratchet sender) with
    | (.ok (header, ct), r) =>
      { w with
        ratchet := Function.update w.ratchet sender r
        inFlight := w.inFlight ++
          [{ recipient := sender.other, header := header, ct := ct, plaintext := plaintext }] }
    | (.error _, r) => { w with ratchet := Function.update w.ratchet sender r }
  | .deliver index fresh =>
    match w.inFlight[index]? with
    | none => w
    | some m =>
      let (result, r) := (decrypt P fresh m.header m.ct ad).call (w.ratchet m.recipient)
      { ratchet := Function.update w.ratchet m.recipient r
        inFlight := w.inFlight.eraseIdx index
        drawn :=
          if drawsKey (w.ratchet m.recipient) m.header then
            P.x25519Public fresh :: w.drawn
          else
            w.drawn
        calls := (m.plaintext, result) :: w.calls }

variable {P ad}

theorem World.step_send {w : World} {sender : Party} {plaintext ct : Bytes} {header : Header}
    {r : Ratchet}
    (hcall : (encrypt P plaintext ad).call (w.ratchet sender) = (.ok (header, ct), r)) :
    w.step P ad (.send sender plaintext) =
      { w with
        ratchet := Function.update w.ratchet sender r
        inFlight := w.inFlight ++
          [{ recipient := sender.other, header := header, ct := ct,
             plaintext := plaintext }] } := by
  simp only [World.step, hcall]

theorem World.step_deliver_none {w : World} {index : Nat} {fresh : Key}
    (hnone : w.inFlight[index]? = none) : w.step P ad (.deliver index fresh) = w := by
  simp only [World.step, hnone]

theorem World.step_deliver {w : World} {index : Nat} {fresh : Key} {m : Message}
    {result : Except DmError Bytes} {r : Ratchet} (hm : w.inFlight[index]? = some m)
    (hcall : (decrypt P fresh m.header m.ct ad).call (w.ratchet m.recipient) = (result, r)) :
    w.step P ad (.deliver index fresh) =
      { ratchet := Function.update w.ratchet m.recipient r
        inFlight := w.inFlight.eraseIdx index
        drawn :=
          if drawsKey (w.ratchet m.recipient) m.header then
            P.x25519Public fresh :: w.drawn
          else
            w.drawn
        calls := (m.plaintext, result) :: w.calls } := by
  simp only [World.step, hm, hcall]

variable (P)

/-- The header is at most `MAX_SKIP` ahead of the receiver's counters: in the
current chain, or in the previous and the new one. -/
def WithinSkip (r : Ratchet) (header : Header) : Prop :=
  r.skipped.lookup (header.dh, header.n) ≠ none ∨
    if r.dhr = some header.dh then
      header.n.toNat ≤ r.nr.toNat + maxSkip.toNat
    else
      header.pn.toNat ≤ r.nr.toNat + maxSkip.toNat ∧ header.n.toNat ≤ maxSkip.toNat

instance (r : Ratchet) (header : Header) : Decidable (WithinSkip r header) :=
  inferInstanceAs (Decidable (_ ∨ _))

/-- The runs in question: a party sends once it can, the network keeps to the skip
window, and fresh ratchet keys are distinct. -/
def World.Allowed (w : World) : Op → Prop
  | .send sender _ => (w.ratchet sender).cks ≠ none
  | .deliver index fresh =>
    ∀ m ∈ w.inFlight[index]?,
      WithinSkip (w.ratchet m.recipient) m.header ∧ P.x25519Public fresh ∉ w.drawn

instance (w : World) (op : Op) : Decidable (w.Allowed P op) :=
  match op with
  | .send _ _ => inferInstanceAs (Decidable (_ ≠ _))
  | .deliver index _ => inferInstanceAs (Decidable (∀ m ∈ w.inFlight[index]?, _ ∧ _))

/-- No `u32` counter overflows in the step: not `ns += 1`, and not
`nr + MAX_SKIP` where it is computed. -/
def World.CountersFit (w : World) : Op → Prop
  | .send sender _ => (w.ratchet sender).ns.toNat + 1 < 2 ^ 32
  | .deliver index _ =>
    ∀ m ∈ w.inFlight[index]?,
      (w.ratchet m.recipient).skipped.lookup (m.header.dh, m.header.n) ≠ none ∨
        (w.ratchet m.recipient).nr.toNat + maxSkip.toNat < 2 ^ 32

instance (w : World) (op : Op) : Decidable (w.CountersFit op) :=
  match op with
  | .send _ _ => inferInstanceAs (Decidable (_ < _))
  | .deliver index _ => inferInstanceAs (Decidable (∀ m ∈ w.inFlight[index]?, _ ∨ _))

end Network

end Dante.Dm
