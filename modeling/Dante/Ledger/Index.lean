import Dante.Ledger.Later

/-!
The indexes agree with the log. No operation looks for a duplicate of the record it accepts; that
the stored records are different rests on a rule of each kind. `Absorbed` states what a stored
record of each kind has left behind, and an absorbed record is never accepted again.
-/

namespace Dante.Ledger

open Crypto Identity

variable {S : Suite} {L L' : Ledger} {record : Record}
variable {p : Chain → Prop}

/-- The key belongs to a chain with the property `p`. -/
def HasChain (L : Ledger) (key : Key) (p : Chain → Prop) : Prop :=
  ∃ i chain, L.idkToChain.lookup key = some i ∧ L.chains[i]? = some chain ∧ p chain

theorem HasChain.later {key : Key} (h : L.HasChain key p) (hlater : Later L L')
    (hp : ∀ chain chain', chain.Later chain' → p chain → p chain') : L'.HasChain key p := by
  obtain ⟨i, chain, hlookup, hchain, hold⟩ := h
  obtain ⟨chain', hchain', hgrown⟩ := hlater.chain hchain
  exact ⟨i, chain', hlater.key hlookup, hchain', hp chain chain' hgrown hold⟩

/-- The chain of a changed entry, seen through a key that still points to it. -/
theorem HasChain.updateChain {key : Key} {chainId : Nat} {f : Chain → Chain} {old : Chain}
    (hlookup : L.idkToChain.lookup key = some chainId) (hold : L.chains[chainId]? = some old)
    (hp : p (f old)) : (L.updateChain chainId f).HasChain key p :=
  ⟨chainId, f old, hlookup, Positions.getElem?_modify.mpr (Or.inr ⟨rfl, old, hold, rfl⟩), hp⟩

theorem HasChain.of_lookup {key : Key} {chainId : Nat} {chain : Chain} (h : L.HasChain key p)
    (hlookup : L.idkToChain.lookup key = some chainId) (hchain : L.chains[chainId]? = some chain) :
    p chain := by
  obtain ⟨i, found, hlookup', hchain', hp⟩ := h
  rw [hlookup] at hlookup'
  cases hlookup'
  rw [hchain] at hchain'
  cases hchain'
  exact hp

/-- What a record of the log has left behind in the indexes. -/
def Absorbed (L : Ledger) (record : Record) : Prop :=
  match record.kind with
  | .identityAnnounce | .keyRotation => ∃ i, L.idkToChain.lookup record.author = some i
  | .livenessProof => L.HasChain record.author (record.createdMs ≤ ·.lastActivityMs)
  | .identityRevoke => L.HasChain record.author (·.revoked = true)
  | .identityProfile => L.HasChain record.author (record.createdMs ≤ ·.profileMs)
  | .serverRegister | .serverDelist =>
    ∃ state, L.servers.lookup record.author = some state ∧ record.createdMs ≤ state.lastMs
  | .tombstone => ∀ body : Tombstone, record = body.toRecord →
    L.HasChain body.subject (·.tombstoned = true)

theorem Absorbed.later (h : L.Absorbed record) (hlater : Later L L') : L'.Absorbed record := by
  unfold Absorbed at h ⊢
  cases hkind : record.kind with
  | identityAnnounce | keyRotation =>
    simp only [hkind] at h ⊢
    obtain ⟨i, hlookup⟩ := h
    exact ⟨i, hlater.key hlookup⟩
  | livenessProof =>
    simp only [hkind] at h ⊢
    exact h.later hlater fun _ _ hgrown hle => UInt64.le_trans hle hgrown.activity
  | identityRevoke =>
    simp only [hkind] at h ⊢
    exact h.later hlater fun _ _ hgrown => hgrown.revoked
  | identityProfile =>
    simp only [hkind] at h ⊢
    exact h.later hlater fun _ _ hgrown hle => UInt64.le_trans hle hgrown.profile
  | serverRegister | serverDelist =>
    simp only [hkind] at h ⊢
    obtain ⟨state, hstate, hle⟩ := h
    obtain ⟨state', hstate', hle'⟩ := hlater.server hstate
    exact ⟨state', hstate', UInt64.le_trans hle hle'⟩
  | tombstone =>
    simp only [hkind] at h ⊢
    exact fun body hbody => (h body hbody).later hlater fun _ _ hgrown => hgrown.tombstoned

theorem Accepted.absorbed (hstep : Accepted S L record L') (hL : KeysIndexed L) :
    L'.Absorbed record := by
  unfold Absorbed
  cases hstep with
  | announce body hfresh hkind =>
    simp only [hkind]
    exact ⟨_, AList.lookup_insert _⟩
  | liveness body chainId htip hkind =>
    obtain ⟨old, hold, -⟩ := htip.exists_chain hL
    simp only [hkind]
    exact HasChain.updateChain htip.lookup hold (UInt64.le_refl _)
  | rotation body chainId htip hfresh hauthor hkind =>
    simp only [hkind]
    exact ⟨_, AList.lookup_insert _⟩
  | revoke body chainId htip hkind =>
    obtain ⟨old, hold, -⟩ := htip.exists_chain hL
    simp only [hkind]
    exact HasChain.updateChain htip.lookup hold rfl
  | profile body chainId htip hkind =>
    obtain ⟨old, hold, -⟩ := htip.exists_chain hL
    simp only [hkind]
    exact HasChain.updateChain htip.lookup hold (UInt64.le_refl _)
  | serverRegister body hroot hnewer hkind | serverDelist body state hstate hnewer hkind =>
    simp only [hkind]
    exact ⟨_, AList.lookup_insert _, UInt64.le_refl _⟩
  | tombstone chain chainId nowMs hchain hlookup halive hdue hrecord =>
    have hkind : record.kind = .tombstone := hrecord ▸ rfl
    simp only [hkind]
    intro body hbody
    rw [← Tombstone.toRecord_injective (hrecord.symm.trans hbody)]
    exact HasChain.updateChain hlookup hchain rfl

theorem Accepted.not_absorbed (hstep : Accepted S L record L') (hL : KeysIndexed L) :
    ¬ L.Absorbed record := by
  unfold Absorbed
  cases hstep with
  | announce body hfresh hkind =>
    simp [hkind, hfresh]
  | liveness body chainId htip hkind =>
    obtain ⟨old, hold, -, -, hnewer⟩ := htip.exists_chain hL
    simp only [hkind]
    intro habsorbed
    exact UInt64.not_le.mpr hnewer (habsorbed.of_lookup htip.lookup hold)
  | rotation body chainId htip hfresh hauthor hkind =>
    simp [hkind, hfresh]
  | revoke body chainId htip hkind =>
    obtain ⟨old, hold, husable, -⟩ := htip.exists_chain hL
    simp only [hkind]
    intro habsorbed
    have hrevoked : old.revoked = true := habsorbed.of_lookup htip.lookup hold
    simp [Chain.usable, hrevoked] at husable
  | profile body chainId htip hkind =>
    obtain ⟨old, hold, -, -, hnewer⟩ := htip.exists_chain hL
    simp only [hkind]
    intro habsorbed
    exact UInt64.not_le.mpr hnewer (habsorbed.of_lookup htip.lookup hold)
  | serverRegister body hroot hnewer hkind =>
    simp only [hkind]
    rintro ⟨state, hstate, hle⟩
    exact UInt64.not_le.mpr (hnewer state hstate) hle
  | serverDelist body state hstate hnewer hkind =>
    simp only [hkind]
    rintro ⟨found, hfound, hle⟩
    rw [hstate] at hfound
    cases hfound
    exact UInt64.not_le.mpr hnewer hle
  | tombstone chain chainId nowMs hchain hlookup halive hdue hrecord =>
    have hkind : record.kind = .tombstone := hrecord ▸ rfl
    simp only [hkind]
    intro habsorbed
    have htombstoned : chain.tombstoned = true :=
      (habsorbed _ hrecord).of_lookup hlookup hchain
    rw [halive] at htombstoned
    cases htombstoned

def roots (L : Ledger) : List Key := L.chains.map Chain.rootIdk

/-- An accepted record either starts a chain and indexes it, or leaves the first keys
as they are. -/
theorem Accepted.roots (hstep : Accepted S L record L') :
    (L'.roots = L.roots ∧ L'.idToChain = L.idToChain) ∨
      (L'.roots = L.roots ++ [record.author] ∧
        L'.idToChain = L.idToChain.insert (S.sha256 record.author.toList) L.roots.length ∧
        L.idkToChain.lookup record.author = none) := by
  unfold Ledger.roots
  cases hstep with
  | announce body hfresh =>
    refine Or.inr ⟨?_, ?_, hfresh⟩
    · simp
    · simp
  | liveness body chainId | rotation body chainId | revoke body chainId | profile body chainId =>
    exact Or.inl ⟨Positions.map_modify _ _ fun _ => rfl, rfl⟩
  | serverRegister body => exact Or.inl ⟨rfl, rfl⟩
  | serverDelist body state => exact Or.inl ⟨rfl, rfl⟩
  | tombstone chain chainId => exact Or.inl ⟨Positions.map_modify _ _ fun _ => rfl, rfl⟩

/-- The entry of a server points to a registration of that server. -/
def PointsToRegister (L : Ledger) (serverRoot : Key) (state : ServerState) : Prop :=
  ∃ record body, L.store[state.recordIndex]? = some record ∧ record.kind = .serverRegister ∧
    ServerRegister.decode record.body = .ok body ∧ body.serverRoot = serverRoot

/-- The part of the invariant that does not depend on the hash function. -/
structure Logged (S : Suite) (L : Ledger) : Prop where
  leaves : L.leaves = L.store.map fun record => Merkle.leafHash S.sha256 record.encode
  absorbed : ∀ record ∈ L.store, L.Absorbed record
  distinct : L.store.Nodup
  servers : ∀ {serverRoot : Key} {state : ServerState},
    L.servers.lookup serverRoot = some state → L.PointsToRegister serverRoot state

theorem PointsToRegister.pushed {serverRoot : Key} {state : ServerState}
    (h : L.PointsToRegister serverRoot state) (hstore : L'.store = L.store ++ [record]) :
    L'.PointsToRegister serverRoot state := by
  obtain ⟨found, body, hfound, hrest⟩ := h
  refine ⟨found, body, ?_, hrest⟩
  rw [hstore]
  exact Positions.getElem?_concat_of_some hfound

theorem Accepted.pointsToRegister (hstep : Accepted S L record L') (hlogged : Logged S L)
    {serverRoot : Key} {state : ServerState}
    (hstate : L'.servers.lookup serverRoot = some state) :
    L'.PointsToRegister serverRoot state := by
  -- entries that were there before still point to their registration
  have hkept {old : ServerState} (hold : L.servers.lookup serverRoot = some old)
      (hindex : state.recordIndex = old.recordIndex) : L'.PointsToRegister serverRoot state := by
    obtain ⟨found, body, hfound, hrest⟩ := (hlogged.servers hold).pushed hstep.log.1
    exact ⟨found, body, hindex ▸ hfound, hrest⟩
  have hdelisted {chainId : Nat} {M : Ledger} (hservers : M.servers = L.servers)
      (hlookup : (M.delistOwned chainId).servers.lookup serverRoot = some state) :
      L'.PointsToRegister serverRoot state := by
    rw [delistOwned_servers, AssocMap.lookup_mapValues, hservers, Option.map_eq_some_iff] at hlookup
    obtain ⟨old, hold, rfl⟩ := hlookup
    apply hkept hold
    split <;> rfl
  cases hstep with
  | announce body => exact hkept hstate rfl
  | liveness body chainId => exact hkept hstate rfl
  | rotation body chainId => exact hkept hstate rfl
  | revoke body chainId => exact hdelisted rfl hstate
  | profile body chainId => exact hkept hstate rfl
  | serverRegister body hroot hnewer hkind hdecode =>
    rw [pushed_servers, putServer_servers, AssocMap.lookup_insert] at hstate
    split at hstate
    · rename_i hsame
      cases hstate
      refine ⟨record, body, ?_, hkind, hdecode, hroot.trans hsame.symm⟩
      exact Positions.getElem?_concat.mpr (Or.inr ⟨rfl, rfl⟩)
    · exact hkept hstate rfl
  | serverDelist body old hold =>
    rw [pushed_servers, putServer_servers, AssocMap.lookup_insert] at hstate
    split at hstate
    · rename_i hsame
      cases hstate
      subst hsame
      exact hkept hold rfl
    · exact hkept hstate rfl
  | tombstone chain chainId => exact hdelisted rfl hstate

theorem Accepted.logged (hstep : Accepted S L record L') (hL : KeysIndexed L)
    (hlogged : Logged S L) : Logged S L' := by
  obtain ⟨hstore, hleaves, -⟩ := hstep.log
  have hnew : record ∉ L.store := fun hmem =>
    hstep.not_absorbed hL (hlogged.absorbed record hmem)
  refine ⟨?_, ?_, ?_, hstep.pointsToRegister hlogged⟩
  · simp [hstore, hleaves, hlogged.leaves]
  · intro found hfound
    rw [hstore, List.mem_append, List.mem_singleton] at hfound
    rcases hfound with hold | rfl
    · exact (hlogged.absorbed found hold).later (hstep.later hL)
    · exact hstep.absorbed hL
  · rw [hstore, List.nodup_append]
    refine ⟨hlogged.distinct, List.nodup_singleton _, ?_⟩
    rintro old hold _ hlast rfl
    rw [List.mem_singleton] at hlast
    exact hnew (hlast ▸ hold)

theorem Logged.new (S : Suite) (params : LedgerParams) : Logged S (new params) where
  leaves := rfl
  absorbed := by simp [Ledger.new]
  distinct := List.nodup_nil
  servers := by simp [Ledger.new]

theorem Reaches.logged (hreach : Reaches S L L') (hL : KeysIndexed L) (hlogged : Logged S L) :
    Logged S L' := by
  induction hreach with
  | refl => exact hlogged
  | tail hreach hlast ih =>
    obtain ⟨record, haccepted⟩ := hlast
    exact haccepted.logged (Reaches.keysIndexed hreach hL) ih

theorem logged_run (S : Suite) (params : LedgerParams) (ops : List Op) :
    Logged S (run S params ops) :=
  Reaches.logged (reaches_exec (KeysIndexed.new params) ops) (KeysIndexed.new params)
    (Logged.new S params)

/-- The indexes agree with the log. -/
structure Indexed (S : Suite) (L : Ledger) : Prop where
  leaves : L.leaves = L.store.map fun record => Merkle.leafHash S.sha256 record.encode
  distinct : L.store.Nodup
  byId : AssocMap.Indexes L.byId (Record.id S) L.store
  keys : KeysIndexed L
  distinctRoots : L.roots.Nodup
  idToChain : AssocMap.Indexes L.idToChain (fun root : Key => S.sha256 root.toList) L.roots
  servers : ∀ serverRoot state, L.servers.lookup serverRoot = some state →
    L.PointsToRegister serverRoot state

/-- The index of the record ids, as far as no two encodings collide. -/
def IdsIndexed (S : Suite) (L : Ledger) : Prop :=
  CollisionFree S.sha256 (L.store.map Record.encode) →
    AssocMap.Indexes L.byId (Record.id S) L.store

/-- The index of the identity ids, as far as no two first keys collide. -/
def RootsIndexed (S : Suite) (L : Ledger) : Prop :=
  CollisionFree S.sha256 (L.roots.map fun root => root.toList) →
    AssocMap.Indexes L.idToChain (fun root : Key => S.sha256 root.toList) L.roots

theorem Accepted.idsIndexed (hstep : Accepted S L record L') (hL : KeysIndexed L)
    (hlogged : Logged S L) (hindexed : IdsIndexed S L) : IdsIndexed S L' := by
  intro hfree
  obtain ⟨hstore, -, hbyId⟩ := hstep.log
  rw [hstore] at hfree ⊢
  rw [hbyId]
  apply (hindexed (hfree.subset _ fun input hinput => by simp_all)).concat
  intro old hold heq
  have hsame := hfree _ (List.mem_map_of_mem (List.mem_append_left _ hold)) record.encode
    (by simp) heq
  rw [Record.encode_injective hsame] at hold
  exact hstep.not_absorbed hL (hlogged.absorbed record hold)

theorem KeysIndexed.lookup_of_mem_roots (hL : KeysIndexed L) {root : Key} (hroot : root ∈ L.roots) :
    ∃ i, L.idkToChain.lookup root = some i := by
  obtain ⟨chain, hchain, rfl⟩ := List.mem_map.mp hroot
  obtain ⟨i, hi⟩ := List.mem_iff_getElem?.mp hchain
  exact ⟨i, hL.root hi⟩

theorem Accepted.rootsIndexed (hstep : Accepted S L record L') (hL : KeysIndexed L)
    (hindexed : RootsIndexed S L) : RootsIndexed S L' := by
  intro hfree
  rcases hstep.roots with ⟨hsame, hmap⟩ | ⟨hmore, hmap, hfresh⟩
  · rw [hsame] at hfree ⊢
    rw [hmap]
    exact hindexed hfree
  · rw [hmore] at hfree ⊢
    rw [hmap]
    apply (hindexed (hfree.subset _ fun input hinput => by simp_all)).concat
    intro root hroot heq
    have hsame := hfree _ (List.mem_map_of_mem (List.mem_append_left _ hroot))
      record.author.toList (by simp) heq
    rw [ByteArr.toList_injective hsame] at hroot
    obtain ⟨i, hlookup⟩ := hL.lookup_of_mem_roots hroot
    rw [hfresh] at hlookup
    cases hlookup

/-- What the ledger hashes to fill its indexes. -/
def hashedInputs (L : Ledger) : List Bytes :=
  L.store.map Record.encode ++ L.roots.map fun root => root.toList

theorem rootsIndexed_run (S : Suite) (params : LedgerParams) (ops : List Op) :
    RootsIndexed S (run S params ops) :=
  run_induction (RootsIndexed S) params ops (fun _ => .nil _)
    fun hstep hL => hstep.rootsIndexed hL

/-- In every state that calls of `append` and `evaporate` reach, the indexes agree
with the log, as long as SHA-256 has no collision on what was hashed. -/
theorem indexed_run (S : Suite) (params : LedgerParams) (ops : List Op)
    (hfree : CollisionFree S.sha256 (run S params ops).hashedInputs) :
    Indexed S (run S params ops) := by
  have hinv : Logged S (run S params ops) ∧
      IdsIndexed S (run S params ops) := by
    refine run_induction (fun L => Logged S L ∧ IdsIndexed S L) params ops
      ⟨Logged.new S params, fun _ => .nil _⟩ ?_
    rintro L L' record hstep hL ⟨hlogged, hindexed⟩
    exact ⟨hstep.logged hL hlogged, hstep.idsIndexed hL hlogged hindexed⟩
  have hkeys := keysIndexed_run S params ops
  obtain ⟨hlogged, hids⟩ := hinv
  have hbyId := hids (hfree.subset _ fun _ => List.mem_append_left _)
  have hroots := rootsIndexed_run S params ops (hfree.subset _ fun _ => List.mem_append_right _)
  exact ⟨hlogged.leaves, hlogged.distinct, hbyId, hkeys, hkeys.nodup_roots, hroots,
    fun _ _ => hlogged.servers⟩

/-- An identity that announces itself, registers a server, and evaporates. -/
theorem indexed_after_evaporation :
    (run sampleSuite sampleParams
        [.append (sampleAnnounce (sampleKey 1) 1000) 1000,
          .append (sampleRegister (sampleKey 1) 2000) 2000, .evaporate 20000]).store.length = 3 ∧
      Indexed sampleSuite (run sampleSuite sampleParams
        [.append (sampleAnnounce (sampleKey 1) 1000) 1000,
          .append (sampleRegister (sampleKey 1) 2000) 2000, .evaporate 20000]) :=
  ⟨by decide +kernel, indexed_run sampleSuite sampleParams _ (by decide +kernel)⟩

end Dante.Ledger
