import Dante.Ledger.Index

/-!
Resolving a key or an identity over time. A key belongs to one chain for ever, the
chain's id never changes, and a chain that is revoked or evaporated takes no
further records.
-/

namespace Dante.Ledger

open Crypto Identity

variable {S : Suite} {L L' : Ledger} {record : Record} {idk : Key} {chain : Chain}

theorem KeysIndexed.chainOf_eq_some (hL : KeysIndexed L) :
    L.chainOf idk = some chain ↔
      ∃ i, L.idkToChain.lookup idk = some i ∧ L.chains[i]? = some chain := by
  unfold chainOf
  rw [Option.map_eq_some_iff]
  constructor
  · rintro ⟨i, hlookup, hget⟩
    obtain ⟨found, hfound, hget'⟩ := hL.exists_chain hlookup
    exact ⟨i, hlookup, hfound.trans (congrArg some (hget'.symm.trans hget))⟩
  · rintro ⟨i, hlookup, hchain⟩
    obtain ⟨found, hfound, hget⟩ := hL.exists_chain hlookup
    rw [hfound] at hchain
    exact ⟨i, hlookup, hget.trans (Option.some.inj hchain)⟩

theorem Later.chainOf (hlater : Later L L') (hL : KeysIndexed L) (hL' : KeysIndexed L')
    (hchain : L.chainOf idk = some chain) :
    ∃ chain', L'.chainOf idk = some chain' ∧ chain.Later chain' := by
  obtain ⟨i, hlookup, hget⟩ := hL.chainOf_eq_some.mp hchain
  obtain ⟨chain', hget', hgrown⟩ := hlater.chain hget
  exact ⟨chain', hL'.chainOf_eq_some.mpr ⟨i, hlater.key hlookup, hget'⟩, hgrown⟩

/-- A record that must be signed by a chain's tip speaks for that tip. -/
theorem TipOf.usable_chainOf {key : Key} {createdMs : UInt64} {newest : Chain → UInt64}
    {chainId : Nat} (htip : L.TipOf key createdMs newest chainId) (hL : KeysIndexed L)
    (hchain : L.chainOf key = some chain) : chain.usable = true := by
  obtain ⟨old, hold, husable, -⟩ := htip.exists_chain hL
  have hsame := hL.chainOf_eq_some.mpr ⟨chainId, htip.lookup, hold⟩
  rw [hchain] at hsame
  exact Option.some.inj hsame ▸ husable

/-- The record is for the key: the key signed it, or it is rotated away. -/
def IsFor (record : Record) (idk : Key) : Prop :=
  record.author = idk ∨
    record.kind = .keyRotation ∧
      ∃ body, KeyRotation.decode record.body = .ok body ∧ body.prevIdk = idk

/-- The kinds of record that continue a chain. -/
def continuesChain (kind : RecordKind) : Bool :=
  match kind with
  | .livenessProof | .keyRotation | .identityRevoke | .identityProfile => true
  | _ => false

/-- A chain that is not usable takes no further record. -/
theorem Accepted.usable_of_isFor (hstep : Accepted S L record L') (hL : KeysIndexed L)
    (hkind : continuesChain record.kind = true) (hfor : IsFor record idk)
    (hchain : L.chainOf idk = some chain) : chain.usable = true := by
  cases hstep with
  | announce body hfresh hannounce => simp [hannounce, continuesChain] at hkind
  | liveness body chainId htip hliveness =>
    rcases hfor with rfl | ⟨hrotation, -⟩
    · exact htip.usable_chainOf hL hchain
    · simp [hliveness] at hrotation
  | rotation body chainId htip hfresh hauthor hrotation hdecode =>
    rcases hfor with rfl | ⟨-, body', hdecode', rfl⟩
    · obtain ⟨i, hlookup, -⟩ := hL.chainOf_eq_some.mp hchain
      rw [hfresh] at hlookup
      cases hlookup
    · rw [hdecode] at hdecode'
      cases hdecode'
      exact htip.usable_chainOf hL hchain
  | revoke body chainId htip hrevoke =>
    rcases hfor with rfl | ⟨hrotation, -⟩
    · exact htip.usable_chainOf hL hchain
    · simp [hrevoke] at hrotation
  | profile body chainId htip hprofile =>
    rcases hfor with rfl | ⟨hrotation, -⟩
    · exact htip.usable_chainOf hL hchain
    · simp [hprofile] at hrotation
  | serverRegister body hroot hnewer hregister => simp [hregister, continuesChain] at hkind
  | serverDelist body state hstate hnewer hdelist => simp [hdelist, continuesChain] at hkind
  | tombstone chain chainId nowMs hchain hlookup halive hdue hrecord =>
    simp [hrecord, Tombstone.toRecord, continuesChain] at hkind

/-- A key that belongs to a chain is not announced again. -/
theorem Accepted.author_fresh (hstep : Accepted S L record L')
    (hkind : record.kind = .identityAnnounce) : L.idkToChain.lookup record.author = none := by
  cases hstep with
  | announce body hfresh => exact hfresh
  | tombstone chain chainId nowMs hchain hlookup halive hdue hrecord =>
    simp [hrecord, Tombstone.toRecord] at hkind
  | _ => simp_all

theorem append_ne_ok {nowMs : UInt64} {id : RecordId}
    (hrefused : ∀ L', ¬ Accepted S L record L') :
    ((append S record nowMs).call L).1 ≠ .ok id := by
  intro hok
  cases hcall : (append S record nowMs).call L with
  | mk result L' =>
    rw [hcall] at hok
    dsimp only at hok
    subst hok
    exact hrefused L' (accepted_of_append hcall)

theorem identityId_congr {chain' : Chain} (hchain : L.chainOf idk = some chain)
    (hchain' : L'.chainOf idk = some chain') (hroot : chain'.rootIdk = chain.rootIdk) :
    L'.identityId S idk = L.identityId S idk := by
  simp [identityId, hchain, hchain', hroot]

/-- An identity id leads to its own chain only. -/
theorem idkForId_eq_none (hL : KeysIndexed L) (hroots : RootsIndexed S L)
    (hfree : CollisionFree S.sha256 (L.roots.map fun root => root.toList))
    (hchain : L.chainOf idk = some chain) (hdead : chain.usable = false) :
    L.idkForId (S.sha256 chain.rootIdk.toList) = none := by
  obtain ⟨i, -, hget⟩ := hL.chainOf_eq_some.mp hchain
  have hroot : L.roots[i]? = some chain.rootIdk := by
    simp [roots, hget]
  have hlookup := (hroots hfree _ i).mpr ⟨chain.rootIdk, hroot, rfl⟩
  simp [idkForId, hlookup, hget, hdead]

/-- Once a key belongs to a chain, its identity and the growth of the chain's times
are settled for every later state; a revoked or evaporated chain takes no further
record; and a revoked chain resolves to nothing and is not announced again. -/
theorem resolution_run (S : Suite) (params : LedgerParams) (before after : List Op) (idk : Key)
    (chain : Chain) (hchain : (run S params before).chainOf idk = some chain) :
    (run S params (before ++ after)).identityId S idk = (run S params before).identityId S idk ∧
      (∃ chain', (run S params (before ++ after)).chainOf idk = some chain' ∧
        chain.lastActivityMs ≤ chain'.lastActivityMs ∧ chain.profileMs ≤ chain'.profileMs) ∧
      (chain.usable = false → ∀ record nowMs id, continuesChain record.kind = true →
        IsFor record idk →
        ((append S record nowMs).call (run S params (before ++ after))).1 ≠ .ok id) ∧
      (chain.revoked = true →
        (run S params (before ++ after)).isLive idk = false ∧
        (run S params (before ++ after)).tipKey idk = none ∧
        (run S params (before ++ after)).agreementKey idk = none ∧
        (CollisionFree S.sha256
            ((run S params (before ++ after)).roots.map fun root => root.toList) →
          (run S params (before ++ after)).idkForId (S.sha256 chain.rootIdk.toList) = none) ∧
        ∀ record nowMs id, record.kind = .identityAnnounce → record.author = idk →
          ((append S record nowMs).call (run S params (before ++ after))).1 ≠ .ok id) := by
  have hL := keysIndexed_run S params before
  have hL' := keysIndexed_run S params (before ++ after)
  have hroots := rootsIndexed_run S params (before ++ after)
  have hlater : Later (run S params before) (run S params (before ++ after)) := by
    rw [run, run, Steps.exec_append]
    exact (reaches_exec hL after).later hL
  obtain ⟨chain', hchain', hgrown⟩ := hlater.chainOf hL hL' hchain
  refine ⟨identityId_congr hchain hchain' hgrown.root,
    ⟨chain', hchain', hgrown.activity, hgrown.profile⟩, ?_, ?_⟩
  · intro hdead record nowMs id hkind hfor
    apply append_ne_ok
    intro L'' hstep
    have husable := hstep.usable_of_isFor hL' hkind hfor hchain'
    rw [hgrown.not_usable hdead] at husable
    cases husable
  · intro hrevoked
    have hdead : chain'.usable = false := by simp [Chain.usable, hgrown.revoked hrevoked]
    refine ⟨?_, ?_, ?_, ?_, ?_⟩
    · simp [isLive, hchain', hdead]
    · simp [tipKey, hchain', hdead]
    · simp [agreementKey, hchain', hdead]
    · intro hfree
      rw [← hgrown.root]
      exact idkForId_eq_none hL' hroots hfree hchain' hdead
    · rintro record nowMs id hkind rfl
      apply append_ne_ok
      intro L'' hstep
      obtain ⟨i, hlookup, -⟩ := hL'.chainOf_eq_some.mp hchain'
      rw [hstep.author_fresh hkind] at hlookup
      cases hlookup

/-- An identity that revokes itself and is evaporated later. -/
theorem resolution_after_revocation :
    (run sampleSuite sampleParams
        [.append (sampleAnnounce (sampleKey 1) 1000) 1000,
          .append (sampleRevoke (sampleKey 1) 2000) 2000, .evaporate 20000]).isLive
      (sampleKey 1) = false :=
  ((resolution_run sampleSuite sampleParams
    [.append (sampleAnnounce (sampleKey 1) 1000) 1000,
      .append (sampleRevoke (sampleKey 1) 2000) 2000] [.evaporate 20000] (sampleKey 1)
    { rootIdk := sampleKey 1, tipIdk := sampleKey 1, tipIk := sampleKey 1, lastActivityMs := 2000
      tombstoned := false, revoked := true, displayHint := "", avatarHash := none, status := none
      profileMs := 0 } (by decide +kernel)).2.2.2 rfl).1

end Dante.Ledger
