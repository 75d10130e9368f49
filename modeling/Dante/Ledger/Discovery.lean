import Dante.Ledger.Resolution

/-!
The discovery page. A chain that ends takes the servers with it whose recorded owner it is. A
registration does not look at the state of the chain, so the page is free of servers of ended chains
only as far as the calls come in an orderly sequence.
-/

namespace Dante.Ledger

open Crypto Identity

variable {S : Suite} {L L' : Ledger} {record : Record} {serverRoot : Key} {state : ServerState}

/-- Every server on the page under a key of the chain `i` has `i` as its recorded owner. -/
def OwnersKnown (L : Ledger) (i : Nat) : Prop :=
  ∀ entry ∈ L.servers.entries, (L.discoverable entry.2).isSome = true →
    L.idkToChain.lookup entry.1 = some i → entry.2.ownerChain = some i

instance (L : Ledger) (i : Nat) : Decidable (L.OwnersKnown i) :=
  inferInstanceAs (Decidable (∀ entry ∈ L.servers.entries, _ → _ → _))

/-- The registration asks to be shown on the page. -/
def asksDiscovery (record : Record) : Bool :=
  (ServerRegister.decode record.body).toOption.any ServerRegister.discoverable

/-- A server that is to be discovered does not register under a key of an ended chain,
and a chain ends only while it is the recorded owner of all its servers. -/
def Orderly (L : Ledger) (op : Op) : Prop :=
  match op with
  | .append record _ =>
    (record.kind = .serverRegister → asksDiscovery record = true →
      (L.chainOf record.author).all Chain.usable = true) ∧
    (record.kind = .identityRevoke → ∀ i ∈ L.idkToChain.lookup record.author, L.OwnersKnown i)
  | .evaporate nowMs =>
    ∀ rootIdk ∈ L.eligible nowMs, ∀ i ∈ L.idkToChain.lookup rootIdk, L.OwnersKnown i

instance (L : Ledger) (op : Op) : Decidable (L.Orderly op) :=
  match op with
  | .append _ _ => inferInstanceAs (Decidable ((_ → _ → _) ∧ (_ → ∀ i ∈ _, _)))
  | .evaporate nowMs => List.decidableBAll _ (L.eligible nowMs)

/-- No server on the page belongs to an ended chain. -/
def NoGhosts (L : Ledger) : Prop :=
  ∀ (serverRoot : Key) (state : ServerState) (i : Nat) (chain : Chain),
    L.servers.lookup serverRoot = some state → (L.discoverable state).isSome = true →
    L.idkToChain.lookup serverRoot = some i → L.chains[i]? = some chain → chain.usable = true

theorem ownersKnown_iff {i : Nat} :
    L.OwnersKnown i ↔ ∀ serverRoot state, L.servers.lookup serverRoot = some state →
      (L.discoverable state).isSome = true → L.idkToChain.lookup serverRoot = some i →
      state.ownerChain = some i := by
  constructor
  · intro h serverRoot state hstate
    exact h ⟨serverRoot, state⟩ (AList.mem_lookup_iff.mp hstate)
  · intro h entry hentry
    exact h entry.1 entry.2 (AList.mem_lookup_iff.mpr hentry)

theorem PointsToRegister.discoverable_eq (h : L.PointsToRegister serverRoot state)
    (hstore : L'.store = L.store ++ [record]) : L'.discoverable state = L.discoverable state := by
  obtain ⟨found, body, hfound, -⟩ := h
  have hfound' : L'.store[state.recordIndex]? = some found := by
    rw [hstore]
    exact Positions.getElem?_concat_of_some hfound
  simp [discoverable, hfound, hfound']

/-- What is shown for an entry is a registration under the entry's own key. -/
theorem PointsToRegister.serverRoot_eq (h : L.PointsToRegister serverRoot state)
    {register : ServerRegister} (hshown : L.discoverable state = some register) :
    register.serverRoot = serverRoot := by
  obtain ⟨found, body, hfound, -, hdecode, hroot⟩ := h
  have hbody : body = register := by
    simp [discoverable, hfound, hdecode, Except.toOption] at hshown
    exact hshown.2.2
  rw [← hbody, hroot]

theorem discoverable_delisted (hdelisted : state.delisted = true) :
    L.discoverable state = none := by
  simp [discoverable, hdelisted]

/-- The entry of a new registration is shown if the registration asks for it. -/
theorem discoverable_registered {body : ServerRegister}
    (hdecode : ServerRegister.decode record.body = .ok body)
    (hstore : L'.store = L.store ++ [record])
    (hshown : (L'.discoverable (L.registered record)).isSome = true) :
    asksDiscovery record = true := by
  have hfound : L'.store[L.store.length]? = some record := by simp [hstore]
  simpa [discoverable, registered, hfound, hdecode, asksDiscovery, Except.toOption] using hshown

/-- An entry that is still shown after a chain has ended was shown before, and the chain
was not its recorded owner. -/
theorem lookup_delistOwned {chainId : Nat}
    (hstate : (L.delistOwned chainId).servers.lookup serverRoot = some state)
    (hshown : (L'.discoverable state).isSome = true) :
    L.servers.lookup serverRoot = some state ∧ state.ownerChain ≠ some chainId := by
  rw [delistOwned_servers, AssocMap.lookup_mapValues, Option.map_eq_some_iff] at hstate
  obtain ⟨old, hold, rfl⟩ := hstate
  split at hshown
  · rw [discoverable_delisted rfl] at hshown
    cases hshown
  · rename_i hother
    rw [if_neg hother]
    exact ⟨hold, hother⟩

/-- The record is one that ends the chain `i`. -/
def Ends (L : Ledger) (record : Record) (i : Nat) : Prop :=
  ∃ idk, L.idkToChain.lookup idk = some i ∧
    (record.kind = .identityRevoke ∧ record.author = idk ∨
      ∃ nowMs, record = Tombstone.toRecord { subject := idk, evaporatedMs := nowMs })

/-- No server of the chain that ends stays on the page, and the others belong to the
chains they belonged to. -/
theorem NoGhosts.of_delistOwned {chainId : Nat} {f : Chain → Chain} (h : NoGhosts L)
    (hknown : L.OwnersKnown chainId) (hlogged : Logged S L) :
    NoGhosts (((L.updateChain chainId f).delistOwned chainId).pushed S record) := by
  intro root entry i chain hstate hshown hkey hchain
  obtain ⟨hold, howner⟩ := lookup_delistOwned hstate hshown
  rw [(hlogged.servers hold).discoverable_eq rfl] at hshown
  rcases Positions.getElem?_modify.mp hchain with ⟨-, hkept⟩ | ⟨rfl, -⟩
  · exact h _ _ _ _ hold hshown hkey hkept
  · exact absurd (ownersKnown_iff.mp hknown _ _ hold hshown hkey) howner

theorem NoGhosts.of_updateChain {chainId : Nat} {f : Chain → Chain} (h : NoGhosts L)
    (husable : ∀ chain, (f chain).usable = chain.usable) (hlogged : Logged S L) :
    NoGhosts ((L.updateChain chainId f).pushed S record) := by
  intro root entry i chain hstate hshown hkey hchain
  rw [(hlogged.servers hstate).discoverable_eq rfl] at hshown
  rcases Positions.getElem?_modify.mp hchain with ⟨-, hold⟩ | ⟨rfl, old, hold, rfl⟩
  · exact h _ _ _ _ hstate hshown hkey hold
  · rw [husable]
    exact h _ _ _ _ hstate hshown hkey hold

theorem Accepted.noGhosts (hstep : Accepted S L record L') (hL : KeysIndexed L)
    (hlogged : Logged S L) (h : NoGhosts L)
    (hregister : record.kind = .serverRegister → asksDiscovery record = true →
      (L.chainOf record.author).all Chain.usable = true)
    (hends : ∀ i, L.Ends record i → L.OwnersKnown i) : NoGhosts L' := by
  have hstore := hstep.log.1
  -- an entry that the record does not touch
  have hkept {root : Key} {entry : ServerState} {i : Nat} {chain : Chain}
      (hstate : L.servers.lookup root = some entry)
      (hshown : (L'.discoverable entry).isSome = true)
      (hkey : L.idkToChain.lookup root = some i) (hchain : L.chains[i]? = some chain) :
      chain.usable = true := by
    rw [(hlogged.servers hstate).discoverable_eq hstore] at hshown
    exact h _ _ _ _ hstate hshown hkey hchain
  cases hstep with
  | announce body hfresh =>
    intro root entry i chain hstate hshown hkey hchain
    rcases Positions.getElem?_concat.mp hchain with hold | ⟨-, rfl⟩
    · rw [pushed_idkToChain, addChain_idkToChain, AssocMap.lookup_insert] at hkey
      split at hkey
      · cases hkey
        simp at hold
      · exact hkept hstate hshown hkey hold
    · rfl
  | liveness body chainId htip => exact h.of_updateChain (fun _ => rfl) hlogged
  | rotation body chainId htip hfresh =>
    intro root entry i chain hstate hshown hkey hchain
    obtain ⟨tipped, htipped, husable, -⟩ := htip.exists_chain hL
    rcases Positions.getElem?_modify.mp hchain with ⟨hne, hold⟩ | ⟨rfl, old, hold, rfl⟩
    · rw [pushed_idkToChain, bindKey_idkToChain, AssocMap.lookup_insert] at hkey
      split at hkey
      · exact absurd (Option.some.inj hkey).symm hne
      · exact hkept hstate hshown hkey hold
    · rw [htipped] at hold
      cases hold
      exact husable
  | revoke body chainId htip hkind =>
    exact h.of_delistOwned (hends chainId ⟨_, htip.lookup, Or.inl ⟨hkind, rfl⟩⟩) hlogged
  | profile body chainId htip => exact h.of_updateChain (fun _ => rfl) hlogged
  | serverRegister body hroot hnewer hkind hdecode =>
    intro root entry i chain hstate hshown hkey hchain
    rw [pushed_servers, putServer_servers, AssocMap.lookup_insert] at hstate
    split at hstate
    · rename_i hsame
      cases hstate
      subst hsame
      have husable := hregister hkind (discoverable_registered hdecode hstore hshown)
      rw [hL.chainOf_eq_some.mpr ⟨i, hkey, hchain⟩] at husable
      simpa using husable
    · exact hkept hstate hshown hkey hchain
  | serverDelist body old hold =>
    intro root entry i chain hstate hshown hkey hchain
    rw [pushed_servers, putServer_servers, AssocMap.lookup_insert] at hstate
    split at hstate
    · cases hstate
      rw [discoverable_delisted rfl] at hshown
      cases hshown
    · exact hkept hstate hshown hkey hchain
  | tombstone chain chainId nowMs hchain hlookup halive hdue hrecord =>
    exact h.of_delistOwned (hends chainId ⟨_, hlookup, Or.inr ⟨nowMs, hrecord⟩⟩) hlogged

/-- The end of one chain does not disturb the owners of another. -/
theorem OwnersKnown.evaporateChain {i : Nat} {nowMs : UInt64} {rootIdk : Key}
    (h : L.OwnersKnown i) (hlogged : Logged S L) :
    OwnersKnown (evaporateChain S nowMs L rootIdk) i := by
  rw [ownersKnown_iff] at h ⊢
  intro root entry hstate hshown hkey
  obtain ⟨hold, -⟩ := lookup_delistOwned hstate hshown
  rw [(hlogged.servers hold).discoverable_eq rfl] at hshown
  exact h root entry hold hshown hkey

theorem NoGhosts.append {nowMs : UInt64} (h : NoGhosts L) (hL : KeysIndexed L)
    (hlogged : Logged S L) (horderly : L.Orderly (.append record nowMs)) :
    NoGhosts ((append S record nowMs).call L).2 := by
  cases hcall : (Ledger.append S record nowMs).call L with
  | mk result L' =>
    cases result with
    | error e =>
      rw [eq_of_append_error hcall]
      exact h
    | ok id =>
      apply (accepted_of_append hcall).noGhosts hL hlogged h horderly.1
      rintro i ⟨idk, hkey, ⟨hkind, rfl⟩ | ⟨_, rfl⟩⟩
      · exact horderly.2 hkind i hkey
      · have henvelope := checkEnvelope_ok (accept_of_append hcall).1
        exact absurd rfl henvelope.2.2.1

/-- While the loop runs, the chains still to come stay the recorded owners of their servers. -/
theorem NoGhosts.evaporate {nowMs : UInt64} (h : NoGhosts L) (hL : KeysIndexed L)
    (hlogged : Logged S L) (horderly : L.Orderly (.evaporate nowMs)) :
    NoGhosts (evaporate S nowMs L).2 := by
  let inv (M : Ledger) : Prop := Logged S M ∧ NoGhosts M ∧ M.idkToChain = L.idkToChain ∧
    ∀ rootIdk ∈ L.eligible nowMs, ∀ i ∈ L.idkToChain.lookup rootIdk, M.OwnersKnown i
  suffices hinv : inv (Ledger.evaporate S nowMs L).2 from hinv.2.1
  refine evaporate_induction inv hL ?_ ⟨hlogged, h, rfl, horderly⟩
  rintro M rootIdk hmem hM hdue ⟨hMlogged, hMghosts, hidk, hknown⟩
  have hstep := accepted_evaporateChain (S := S) hM hdue
  refine ⟨hstep.logged hM hMlogged, ?_, hidk, fun other hother i hi =>
    (hknown other hother i hi).evaporateChain hMlogged⟩
  apply hstep.noGhosts hM hMlogged hMghosts
  · intro hkind
    cases hkind
  · rintro i ⟨idk, hkey, ⟨hkind, -⟩ | ⟨_, hrecord⟩⟩
    · cases hkind
    · cases Tombstone.toRecord_injective hrecord
      exact hknown rootIdk hmem i (hidk ▸ hkey)

theorem noGhosts_run (S : Suite) (params : LedgerParams) (ops : List Op)
    (hops : Steps.Along (step S) Orderly (new params) ops) :
    Logged S (run S params ops) ∧ NoGhosts (run S params ops) := by
  let inv (L : Ledger) : Prop := KeysIndexed L ∧ Logged S L ∧ NoGhosts L
  suffices hinv : inv (run S params ops) from hinv.2
  refine Steps.exec_invariant inv ?_
    ⟨KeysIndexed.new params, Logged.new S params, by simp [NoGhosts, Ledger.new]⟩ hops
  rintro L op ⟨hL, hlogged, h⟩ horderly
  have hreach := reaches_step (S := S) hL op
  refine ⟨hreach.keysIndexed hL, Reaches.logged hreach hL hlogged, ?_⟩
  cases op with
  | append record nowMs => exact h.append hL hlogged horderly
  | evaporate nowMs => exact h.evaporate hL hlogged horderly

/-- In every state that an orderly sequence of calls reaches, the page shows no server
whose key belongs to a revoked or evaporated chain. -/
theorem discoverableServers_usable_run (S : Suite) (params : LedgerParams) (ops : List Op)
    (hops : Steps.Along (step S) Orderly (new params) ops) (register : ServerRegister)
    (hregister : register ∈ (run S params ops).discoverableServers) (chain : Chain)
    (hchain : (run S params ops).chainOf register.serverRoot = some chain) :
    chain.revoked = false ∧ chain.tombstoned = false := by
  obtain ⟨hlogged, hghosts⟩ := noGhosts_run S params ops hops
  obtain ⟨entry, hentry, hshown⟩ := List.mem_filterMap.mp hregister
  obtain ⟨serverRoot, hstate⟩ := AssocMap.mem_values.mp hentry
  have hroot := (hlogged.servers hstate).serverRoot_eq hshown
  obtain ⟨i, hkey, hget⟩ := (keysIndexed_run S params ops).chainOf_eq_some.mp hchain
  have husable := hghosts serverRoot entry i chain hstate (by simp [hshown]) (hroot ▸ hkey) hget
  simpa [Chain.usable, and_comm] using husable

/-- Two identities with a server each, of which one is revoked. -/
theorem discoverableServers_usable_after_revoke :
    (∃ register ∈ (run sampleSuite sampleParams
        [.append (sampleAnnounce (sampleKey 1) 1000) 1000,
          .append (sampleAnnounce (sampleKey 2) 1000) 1000,
          .append (sampleRegister (sampleKey 1) 2000) 2000,
          .append (sampleRegister (sampleKey 2) 2000) 2000,
          .append (sampleRevoke (sampleKey 2) 3000) 3000]).discoverableServers,
      register.serverRoot = sampleKey 1) ∧
    (sampleChain (sampleKey 1) 1000).revoked = false ∧
      (sampleChain (sampleKey 1) 1000).tombstoned = false :=
  ⟨by decide +kernel,
    discoverableServers_usable_run sampleSuite sampleParams
      [.append (sampleAnnounce (sampleKey 1) 1000) 1000,
        .append (sampleAnnounce (sampleKey 2) 1000) 1000,
        .append (sampleRegister (sampleKey 1) 2000) 2000,
        .append (sampleRegister (sampleKey 2) 2000) 2000,
        .append (sampleRevoke (sampleKey 2) 3000) 3000]
      (by decide +kernel) (sampleServer (sampleKey 1)) (by decide +kernel)
      (sampleChain (sampleKey 1) 1000) (by decide +kernel)⟩

/-- A server that registers after its identity is revoked, and one that registers before
its identity is announced, both stay on the page. -/
theorem ghost_servers :
    ((run sampleSuite sampleParams
        [.append (sampleAnnounce (sampleKey 1) 1000) 1000,
          .append (sampleRevoke (sampleKey 1) 2000) 2000,
          .append (sampleRegister (sampleKey 1) 3000) 3000]).discoverableServers.any fun register =>
      (run sampleSuite sampleParams
        [.append (sampleAnnounce (sampleKey 1) 1000) 1000,
          .append (sampleRevoke (sampleKey 1) 2000) 2000,
          .append (sampleRegister (sampleKey 1) 3000) 3000]).isRevoked register.serverRoot) = true ∧
    ((run sampleSuite sampleParams
        [.append (sampleRegister (sampleKey 1) 1000) 1000,
          .append (sampleAnnounce (sampleKey 1) 2000) 2000,
          .append (sampleRevoke (sampleKey 1) 3000) 3000]).discoverableServers.any fun register =>
      (run sampleSuite sampleParams
        [.append (sampleRegister (sampleKey 1) 1000) 1000,
          .append (sampleAnnounce (sampleKey 1) 2000) 2000,
          .append (sampleRevoke (sampleKey 1) 3000) 3000]).isRevoked register.serverRoot) =
      true := by
  decide +kernel

end Dante.Ledger
