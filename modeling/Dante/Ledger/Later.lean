import Dante.Ledger.Reach

/-!
What a ledger never takes back. `Later` orders the states of one ledger: keys stay
bound to their chain, a chain keeps its first key, its times only grow, and its
two end states are final. Every accepted record moves up in this order.
-/

namespace Dante.Ledger

open Crypto Identity

variable {S : Suite} {L L' L'' : Ledger} {record : Record}

structure Chain.Later (chain chain' : Chain) : Prop where
  root : chain'.rootIdk = chain.rootIdk
  activity : chain.lastActivityMs ≤ chain'.lastActivityMs
  profile : chain.profileMs ≤ chain'.profileMs
  revoked : chain.revoked = true → chain'.revoked = true
  tombstoned : chain.tombstoned = true → chain'.tombstoned = true

theorem Chain.Later.refl (chain : Chain) : chain.Later chain :=
  ⟨rfl, UInt64.le_refl _, UInt64.le_refl _, fun h => h, fun h => h⟩

theorem Chain.Later.trans {first second third : Chain} (h : first.Later second)
    (h' : second.Later third) : first.Later third where
  root := h'.root.trans h.root
  activity := UInt64.le_trans h.activity h'.activity
  profile := UInt64.le_trans h.profile h'.profile
  revoked hrevoked := h'.revoked (h.revoked hrevoked)
  tombstoned htombstoned := h'.tombstoned (h.tombstoned htombstoned)

theorem Chain.Later.not_usable {chain chain' : Chain} (h : chain.Later chain')
    (hdead : chain.usable = false) : chain'.usable = false := by
  have hrevoked := h.revoked
  have htombstoned := h.tombstoned
  simp_all only [Chain.usable, Bool.and_eq_false_iff, Bool.not_eq_false']
  tauto

structure Later (L L' : Ledger) : Prop where
  key : ∀ {idk : Key} {i : Nat}, L.idkToChain.lookup idk = some i →
    L'.idkToChain.lookup idk = some i
  chain : ∀ {i : Nat} {chain : Chain}, L.chains[i]? = some chain →
    ∃ chain', L'.chains[i]? = some chain' ∧ chain.Later chain'
  server : ∀ {serverRoot : Key} {state : ServerState}, L.servers.lookup serverRoot = some state →
    ∃ state', L'.servers.lookup serverRoot = some state' ∧ state.lastMs ≤ state'.lastMs
  store : L.store <+: L'.store

namespace Later

theorem refl (L : Ledger) : Later L L where
  key h := h
  chain h := ⟨_, h, .refl _⟩
  server h := ⟨_, h, UInt64.le_refl _⟩
  store := List.prefix_rfl

theorem trans (h : Later L L') (h' : Later L' L'') : Later L L'' where
  key hkey := h'.key (h.key hkey)
  chain hchain := by
    obtain ⟨chain', hchain', hlater⟩ := h.chain hchain
    obtain ⟨chain'', hchain'', hlater'⟩ := h'.chain hchain'
    exact ⟨chain'', hchain'', hlater.trans hlater'⟩
  server hserver := by
    obtain ⟨state', hstate', hle⟩ := h.server hserver
    obtain ⟨state'', hstate'', hle'⟩ := h'.server hstate'
    exact ⟨state'', hstate'', UInt64.le_trans hle hle'⟩
  store := h.store.trans h'.store

theorem pushed (S : Suite) (L : Ledger) (record : Record) : Later L (L.pushed S record) :=
  { refl L with store := List.prefix_append _ _ }

theorem updateChain {chainId : Nat} {f : Chain → Chain} {old : Chain}
    (hold : L.chains[chainId]? = some old) (hlater : old.Later (f old)) :
    Later L (L.updateChain chainId f) :=
  { refl L with
    chain := by
      intro i chain hchain
      by_cases hi : i = chainId
      · subst hi
        rw [hold] at hchain
        cases hchain
        exact ⟨f old, Positions.getElem?_modify.mpr (Or.inr ⟨rfl, old, hold, rfl⟩), hlater⟩
      · exact ⟨chain, Positions.getElem?_modify.mpr (Or.inl ⟨hi, hchain⟩), .refl chain⟩ }

theorem addChain (S : Suite) (chain : Chain)
    (hfresh : L.idkToChain.lookup chain.rootIdk = none) : Later L (L.addChain S chain) :=
  { refl L with
    key := AssocMap.lookup_insert_of_none _ hfresh
    chain := fun hchain => ⟨_, Positions.getElem?_concat_of_some hchain, .refl _⟩ }

theorem bindKey {idk : Key} (chainId : Nat) (hfresh : L.idkToChain.lookup idk = none) :
    Later L (L.bindKey idk chainId) :=
  { refl L with key := AssocMap.lookup_insert_of_none _ hfresh }

theorem putServer {serverRoot : Key} {state : ServerState}
    (hnewer : ∀ old, L.servers.lookup serverRoot = some old → old.lastMs ≤ state.lastMs) :
    Later L (L.putServer serverRoot state) :=
  { refl L with
    server := by
      intro other old hold
      rw [putServer_servers, AssocMap.lookup_insert]
      split
      · rename_i hsame
        subst hsame
        exact ⟨state, rfl, hnewer old hold⟩
      · exact ⟨old, hold, UInt64.le_refl _⟩ }

theorem delistOwned (L : Ledger) (chainId : Nat) : Later L (L.delistOwned chainId) :=
  { refl L with
    server := by
      intro serverRoot state hstate
      rw [delistOwned_servers, AssocMap.lookup_mapValues, hstate]
      refine ⟨_, rfl, ?_⟩
      dsimp only
      split <;> exact UInt64.le_refl _ }

end Later

theorem Accepted.later (hstep : Accepted S L record L') (hL : KeysIndexed L) : Later L L' := by
  cases hstep with
  | announce body hfresh => exact (Later.addChain S _ hfresh).trans (.pushed S _ record)
  | liveness body chainId htip =>
    obtain ⟨old, hold, -, -, hnewer⟩ := htip.exists_chain hL
    have hlater : old.Later (old.refreshed record.createdMs) :=
      { Chain.Later.refl old with activity := UInt64.le_of_lt hnewer }
    exact (Later.updateChain hold hlater).trans (.pushed S _ record)
  | rotation body chainId htip hfresh =>
    obtain ⟨old, hold, -, -, hnewer⟩ := htip.exists_chain hL
    have hlater : old.Later (old.rotated body record.createdMs) :=
      { Chain.Later.refl old with activity := UInt64.le_of_lt hnewer }
    exact ((Later.updateChain hold hlater).trans (.bindKey chainId hfresh)).trans
      (.pushed S _ record)
  | revoke body chainId htip =>
    obtain ⟨old, hold, -, -, hnewer⟩ := htip.exists_chain hL
    have hlater : old.Later (old.revokedAt record.createdMs) :=
      { Chain.Later.refl old with activity := UInt64.le_of_lt hnewer, revoked := fun _ => rfl }
    exact ((Later.updateChain hold hlater).trans (.delistOwned _ chainId)).trans
      (.pushed S _ record)
  | profile body chainId htip =>
    obtain ⟨old, hold, -, -, hnewer⟩ := htip.exists_chain hL
    have hlater : old.Later (old.profiled body record.createdMs) :=
      { Chain.Later.refl old with profile := UInt64.le_of_lt hnewer }
    exact (Later.updateChain hold hlater).trans (.pushed S _ record)
  | serverRegister body hroot hnewer =>
    refine (Later.putServer fun old hold => ?_).trans (.pushed S _ record)
    exact UInt64.le_of_lt (hnewer old hold)
  | serverDelist body state hstate hnewer =>
    refine (Later.putServer fun old hold => ?_).trans (.pushed S _ record)
    rw [hstate] at hold
    cases hold
    exact UInt64.le_of_lt hnewer
  | tombstone chain chainId nowMs hchain =>
    have hlater : chain.Later chain.evaporated :=
      { Chain.Later.refl chain with tombstoned := fun _ => rfl }
    exact ((Later.updateChain hchain hlater).trans (.delistOwned _ chainId)).trans
      (.pushed S _ record)

theorem Reaches.later (hreach : Reaches S L L') (hL : KeysIndexed L) : Later L L' := by
  induction hreach with
  | refl => exact .refl L
  | tail hreach hstep ih =>
    obtain ⟨record, haccepted⟩ := hstep
    exact ih.trans (haccepted.later (Reaches.keysIndexed hreach hL))

end Dante.Ledger
