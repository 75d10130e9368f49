import Dante.Ledger.Resolution
import Dante.Core.SealedSender

/-!
Whom an inbound message is attributed to. The engine hashes the key that the sender has signed with,
the ledger the first key of the chain of that key. Whatever is decided by the engine's id, like the
check of the blocked senders, follows the key and not the identity.
-/

namespace Dante.Core

open Crypto Identity Ledger

variable {S : Suite} {L L' : Ledger} {record : Record}

/-- Every key of a chain is a key. -/
def KeysValid (S : Suite) (L : Ledger) : Prop :=
  ∀ (idk : Key) (i : Nat), L.idkToChain.lookup idk = some i → S.validKey idk = true

/-- A key that is added next to the old ones has signed the record that brought it. -/
theorem KeysValid.insert (h : KeysValid S L) {chainId : Nat}
    (hidk : L'.idkToChain = L.idkToChain.insert record.author chainId)
    (hsig : record.verifySignature S = .ok ()) : KeysValid S L' := by
  intro idk i hlookup
  rw [hidk, AssocMap.lookup_insert] at hlookup
  split at hlookup
  · rename_i heq
    exact heq ▸ (Record.verifies_of_verifySignature hsig).1
  · exact h idk i hlookup

theorem keysValid_accepted (hstep : Accepted S L record L') (h : KeysValid S L) :
    KeysValid S L' := by
  cases hstep with
  | announce body hfresh hkind hdecode hsig => exact h.insert rfl hsig
  | rotation body chainId htip hfresh hauthor hkind hdecode hsig => exact h.insert rfl hsig
  | liveness => exact h
  | revoke => exact h
  | profile => exact h
  | serverRegister => exact h
  | serverDelist => exact h
  | tombstone => exact h

theorem keysValid_run (S : Suite) (params : LedgerParams) (ops : List Ledger.Op) :
    KeysValid S (Ledger.run S params ops) :=
  run_induction (KeysValid S) params ops (by simp [KeysValid, Ledger.new])
    fun hstep _ h => keysValid_accepted hstep h

/-- In every reachable ledger, the engine attributes a key to the identity that the ledger
knows it by exactly if it is the first key of its chain. -/
theorem idkToId_eq_identityId_iff (S : Suite) (params : LedgerParams) (ops : List Ledger.Op)
    (idk : Key) (chain : Chain) (hchain : (Ledger.run S params ops).chainOf idk = some chain)
    (hfree : CollisionFree S.sha256 [idk.toList, chain.rootIdk.toList]) :
    (Ledger.run S params ops).identityId S idk = some (idkToId S idk) ↔ idk = chain.rootIdk := by
  have hL := keysIndexed_run S params ops
  have hvalid := keysValid_run S params ops
  obtain ⟨i, hlookup, hget⟩ := hL.chainOf_eq_some.mp hchain
  have hkey : S.validKey idk = true := hvalid idk i hlookup
  have hroot : S.validKey chain.rootIdk = true := hvalid chain.rootIdk i (hL.root hget)
  have hidentity : (Ledger.run S params ops).identityId S idk =
      some (S.sha256 chain.rootIdk.toList) := by
    simp [identityId, hchain, hroot]
  rw [hidentity, idkToId, if_pos hkey, Option.some.injEq]
  constructor
  · intro hhash
    exact (ByteArr.toList_injective (hfree _ (by simp) _ (by simp) hhash)).symm
  · rintro rfl
    rfl

/-- The key of an announcement. -/
theorem idkToId_eq_identityId_announced :
    (Ledger.run sampleSuite sampleParams
        [.append (sampleAnnounce (sampleKey 1) 1000) 1000]).identityId sampleSuite (sampleKey 1) =
      some (idkToId sampleSuite (sampleKey 1)) :=
  (idkToId_eq_identityId_iff sampleSuite sampleParams _ (sampleKey 1)
    (sampleChain (sampleKey 1) 1000) (by decide +kernel) (by decide +kernel)).mpr rfl

/-- After one rotation the ledger knows the new key by the old identity, and the engine by
another one: to block the identity does not block its new key. -/
theorem idkToId_differs_after_rotation :
    let L := Ledger.run sampleSuite sampleParams
      [.append (sampleAnnounce (sampleKey 1) 1000) 1000,
        .append (sampleRotation (sampleKey 1) (sampleKey 2) 2000) 2000]
    L.identityId sampleSuite (sampleKey 2) = some (idkToId sampleSuite (sampleKey 1)) ∧
      idkToId sampleSuite (sampleKey 2) ≠ idkToId sampleSuite (sampleKey 1) := by
  decide +kernel

end Dante.Core
