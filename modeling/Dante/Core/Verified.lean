import Dante.Ledger.Index

/-!
The mark of a peer whose safety number was compared. It is kept with the key that the peer had then,
and counts as long as the ledger resolves the peer to that key.
-/

namespace Dante

open Crypto Ledger

namespace Ledger

variable {S : Suite} {L L' : Ledger} {record : Record} {i : Nat} {chain : Chain} {idk : Key}
  {id : Hash}

/-- A chain goes on with its key or with one that nobody has had. -/
theorem Accepted.tip (hstep : Accepted S L record L') (hchain : L.chains[i]? = some chain) :
    ∃ chain', L'.chains[i]? = some chain' ∧
      (chain'.tipIdk = chain.tipIdk ∨ L.idkToChain.lookup chain'.tipIdk = none) := by
  cases hstep <;> simp [List.getElem?_modify, hchain]
  all_goals grind [Chain.refreshed, Chain.rotated, Chain.revokedAt, Chain.profiled,
    Chain.evaporated]

theorem Reaches.tip_ne (hreach : Reaches S L L') (hL : KeysIndexed L)
    (hbound : (L.idkToChain.lookup idk).isSome) (hchain : L.chains[i]? = some chain)
    (hne : chain.tipIdk ≠ idk) : ∃ chain', L'.chains[i]? = some chain' ∧ chain'.tipIdk ≠ idk := by
  induction hreach with
  | refl => exact ⟨chain, hchain, hne⟩
  | tail hreach hlast ih =>
    obtain ⟨record, haccepted⟩ := hlast
    obtain ⟨before, hbefore, hne⟩ := ih
    obtain ⟨after, hafter, hsame | hnew⟩ := haccepted.tip hbefore
    · exact ⟨after, hafter, hsame ▸ hne⟩
    · refine ⟨after, hafter, ?_⟩
      rintro rfl
      obtain ⟨j, hj⟩ := Option.isSome_iff_exists.mp hbound
      simp [(Reaches.later hreach hL).key hj] at hnew

theorem Later.root (hlater : Later L L') {root : Key} (hroot : L.roots[i]? = some root) :
    L'.roots[i]? = some root := by
  obtain ⟨chain, hchain, rfl⟩ : ∃ chain, L.chains[i]? = some chain ∧ chain.rootIdk = root := by
    simpa [roots] using hroot
  obtain ⟨chain', hchain', hgrown⟩ := hlater.chain hchain
  simp [roots, hchain', hgrown.root]

theorem Later.collisionFree (hlater : Later L L')
    (hfree : CollisionFree S.sha256 (L'.roots.map fun root => root.toList)) :
    CollisionFree S.sha256 (L.roots.map fun root => root.toList) := by
  apply hfree.subset
  intro input hinput
  obtain ⟨root, hroot, rfl⟩ := List.mem_map.mp hinput
  obtain ⟨i, hi⟩ := List.mem_iff_getElem?.mp hroot
  exact List.mem_map_of_mem (List.mem_of_getElem? (hlater.root hi))

theorem Later.lookup_id (hlater : Later L L') (hroots : RootsIndexed S L)
    (hroots' : RootsIndexed S L')
    (hfree : CollisionFree S.sha256 (L'.roots.map fun root => root.toList))
    (hlookup : L.idToChain.lookup id = some i) : L'.idToChain.lookup id = some i := by
  obtain ⟨root, hroot, hid⟩ := (hroots (hlater.collisionFree hfree) _ i).mp hlookup
  exact (hroots' hfree _ i).mpr ⟨root, hlater.root hroot, hid⟩

theorem reaches_append (params : LedgerParams) (ops more : List Op) :
    Reaches S (run S params ops) (run S params (ops ++ more)) := by
  rw [run, run, Steps.exec_append]
  exact reaches_exec (keysIndexed_run S params ops) more

theorem idkForId_of_lookup (hlookup : L.idToChain.lookup id = some i)
    (hchain : L.chains[i]? = some chain) :
    L.idkForId id = if chain.usable then some chain.tipIdk else none := by
  simp [idkForId, hlookup, hchain]

end Ledger

namespace Core

/-- `none` is the error for an unknown peer. -/
def setVerified (L : Ledger) (verifiedPeers : AssocMap Hash Key) (peerId : Hash)
    (verified : Bool) : Option (AssocMap Hash Key) :=
  if verified then (L.idkForId peerId).map fun idk => verifiedPeers.insert peerId idk
  else some (verifiedPeers.erase peerId)

def isVerified (L : Ledger) (verifiedPeers : AssocMap Hash Key) (peerId : Hash) : Bool :=
  match verifiedPeers.lookup peerId, L.idkForId peerId with
  | some pinned, some current => pinned = current
  | _, _ => false

/-- A mark that the ledger has overtaken does not come back by itself: if it counts now, it has
counted ever since it was set. -/
theorem isVerified_run (S : Suite) (params : LedgerParams) (ops more later : List Ledger.Op)
    (peers : AssocMap Hash Key) {peers' : AssocMap Hash Key} {peerId : Hash}
    (hfree : CollisionFree S.sha256
      ((run S params (ops ++ more ++ later)).roots.map fun root => root.toList))
    (hset : setVerified (run S params ops) peers peerId true = some peers')
    (hnow : isVerified (run S params (ops ++ more ++ later)) peers' peerId = true) :
    isVerified (run S params (ops ++ more)) peers' peerId = true := by
  have hL := keysIndexed_run S params (ops ++ more)
  have hroots := rootsIndexed_run S params ops
  have hroots' := rootsIndexed_run S params (ops ++ more)
  have hreach' := reaches_append (S := S) params (ops ++ more) later
  have hlater := (reaches_append (S := S) params ops more).later (keysIndexed_run S params ops)
  have hlater' := hreach'.later hL
  have hfree' := hlater'.collisionFree hfree
  obtain ⟨idk, hid, rfl⟩ := Option.map_eq_some_iff.mp hset
  obtain ⟨i, hlookup, -⟩ := Option.bind_eq_some_iff.mp hid
  have hlookup' := hlater.lookup_id hroots hroots' hfree' hlookup
  have hlookup'' := hlater'.lookup_id hroots' (rootsIndexed_run S params _) hfree hlookup'
  obtain ⟨root, hroot, -⟩ := (hroots (hlater.collisionFree hfree') _ i).mp hlookup
  obtain ⟨chain, hchain, -⟩ : ∃ chain, (run S params ops).chains[i]? = some chain ∧
      chain.rootIdk = root := by simpa [roots] using hroot
  obtain ⟨chain', hchain', -⟩ := hlater.chain hchain
  obtain ⟨chain'', hchain'', hgrown⟩ := hlater'.chain hchain'
  simp only [isVerified, AList.lookup_insert, idkForId_of_lookup hlookup' hchain',
    idkForId_of_lookup hlookup'' hchain''] at hnow ⊢
  have husable : chain'.usable = true := by
    by_contra hdead
    simp [hgrown.not_usable (by simpa using hdead)] at hnow
  have htip : chain'.tipIdk = idk := by
    by_contra hne
    have hbound : (run S params (ops ++ more)).idkToChain.lookup idk = some i := by
      rw [idkForId_of_lookup hlookup hchain] at hid
      obtain ⟨-, rfl⟩ : chain.usable = true ∧ chain.tipIdk = idk := by simpa using hid
      exact hlater.key ((keysIndexed_run S params ops).tip hchain)
    obtain ⟨_, hlast, hne⟩ := hreach'.tip_ne hL (by simp [hbound]) hchain' hne
    grind
  simp [husable, htip]

/-- Two other identities are announced after the peer was marked. -/
theorem isVerified_announced :
    let announce (n : UInt8) : Ledger.Op := .append (sampleAnnounce (sampleKey n) 1000) 1000
    let peerId := sampleSuite.sha256 (sampleKey 1).toList
    isVerified (run sampleSuite sampleParams [announce 1, announce 2])
      (AList.insert peerId (sampleKey 1) ∅) peerId = true := by
  intro announce peerId
  have hid : (run sampleSuite sampleParams [announce 1]).idkForId peerId = some (sampleKey 1) := by
    decide +kernel
  apply isVerified_run sampleSuite sampleParams [announce 1] [announce 2] [announce 3] ∅
  · decide +kernel
  · simp [setVerified, hid]
  · decide +kernel

end Core

end Dante
