import Dante.Ledger.Activity

/-!
What one call of `evaporate` does. Read as a whole, the loop marks the chains that are due,
withdraws their servers, and appends one tombstone each in ascending order of the first keys.

Replicas converge because the tombstones depend on the set of the accepted records alone, not on
their order.
-/

namespace Dante.Ledger

open Crypto Identity

variable {S : Suite} {L L' : Ledger} {nowMs : UInt64}

def tombstone (nowMs : UInt64) (rootIdk : Key) : Record :=
  Tombstone.toRecord { subject := rootIdk, evaporatedMs := nowMs }

/-- The chain has been inactive for longer than the time to live, and has no tombstone. -/
def isDue (L : Ledger) (nowMs : UInt64) (chain : Chain) : Bool :=
  !chain.tombstoned && saturatingSub nowMs chain.lastActivityMs > L.params.identityTtlMs

/-- The recorded owner of the server is a chain that is due. -/
def ownedByDue (L : Ledger) (nowMs : UInt64) (state : ServerState) : Bool :=
  state.ownerChain.any fun chainId => L.chains[chainId]?.any (L.isDue nowMs)

/-- What one evaporation makes of the ledger `L`: the ids it returns, and the ledger after it. -/
structure EvaporatedExactly (S : Suite) (nowMs : UInt64) (L : Ledger) (ids : List RecordId)
    (L' : Ledger) : Prop where
  chains : L'.chains = L.chains.map fun chain =>
    if L.isDue nowMs chain then chain.evaporated else chain
  servers : ∀ serverRoot, L'.servers.lookup serverRoot =
    (L.servers.lookup serverRoot).map fun state =>
      if L.ownedByDue nowMs state then { state with delisted := true } else state
  /-- One tombstone for each chain that is due, after all records that are there. -/
  log : ∃ roots : List Key, roots.Perm ((L.chains.filter (L.isDue nowMs)).map Chain.rootIdk) ∧
    roots.Pairwise (fun a b => a.toList < b.toList) ∧
    ids = roots.map (fun rootIdk => (tombstone nowMs rootIdk).id S) ∧
    L'.store = L.store ++ roots.map (tombstone nowMs) ∧
    L'.leaves = L.leaves ++ roots.map fun rootIdk =>
      Merkle.leafHash S.sha256 (tombstone nowMs rootIdk).encode
  keys : L'.idkToChain = L.idkToChain ∧ L'.idToChain = L.idToChain
  params : L'.params = L.params

instance : Std.Total fun a b : Key => a.toList ≤ b.toList := ⟨fun _ _ => List.le_total _ _⟩

instance : IsTrans Key fun a b => a.toList ≤ b.toList := ⟨fun _ _ _ => List.le_trans⟩

theorem eligible_perm (L : Ledger) (nowMs : UInt64) :
    (L.eligible nowMs).Perm ((L.chains.filter (L.isDue nowMs)).map Chain.rootIdk) :=
  List.perm_insertionSort _ _

theorem pairwise_eligible (L : Ledger) (nowMs : UInt64) :
    (L.eligible nowMs).Pairwise fun a b => a.toList ≤ b.toList :=
  List.pairwise_insertionSort _ _

theorem KeysIndexed.strict_eligible (hL : KeysIndexed L) :
    (L.eligible nowMs).Pairwise fun a b => a.toList < b.toList := by
  refine (pairwise_eligible L nowMs).imp₂ ?_ hL.nodup_eligible
  intro a b hle hne
  exact Std.lt_of_le_of_ne hle fun heq => hne (ByteArr.toList_injective heq)

theorem store_foldl (roots : List Key) (L : Ledger) :
    (roots.foldl (evaporateChain S nowMs) L).store = L.store ++ roots.map (tombstone nowMs) := by
  induction roots generalizing L with
  | nil => simp
  | cons rootIdk rest ih =>
    rw [List.foldl_cons, ih]
    simp [evaporateChain, tombstone]

theorem leaves_foldl (roots : List Key) (L : Ledger) :
    (roots.foldl (evaporateChain S nowMs) L).leaves = L.leaves ++ roots.map fun rootIdk =>
      Merkle.leafHash S.sha256 (tombstone nowMs rootIdk).encode := by
  induction roots generalizing L with
  | nil => simp
  | cons rootIdk rest ih =>
    rw [List.foldl_cons, ih]
    simp [evaporateChain, tombstone]

theorem fixed_foldl (S : Suite) (nowMs : UInt64) (roots : List Key) (L : Ledger) :
    (roots.foldl (evaporateChain S nowMs) L).idkToChain = L.idkToChain ∧
      (roots.foldl (evaporateChain S nowMs) L).idToChain = L.idToChain ∧
      (roots.foldl (evaporateChain S nowMs) L).params = L.params := by
  induction roots generalizing L with
  | nil => exact ⟨rfl, rfl, rfl⟩
  | cons rootIdk rest ih => exact ih (evaporateChain S nowMs L rootIdk)

theorem servers_foldl (roots : List Key) (L : Ledger) (serverRoot : Key) :
    (roots.foldl (evaporateChain S nowMs) L).servers.lookup serverRoot =
      (L.servers.lookup serverRoot).map fun state =>
        if ∃ rootIdk ∈ roots, state.ownerChain = some (L.idkToChain.lookup rootIdk).get! then
          { state with delisted := true } else state := by
  induction roots generalizing L with
  | nil => simp
  | cons rootIdk rest ih =>
    have hround : (evaporateChain S nowMs L rootIdk).servers.lookup serverRoot =
        (L.servers.lookup serverRoot).map fun state =>
          if state.ownerChain = some (L.idkToChain.lookup rootIdk).get! then
            { state with delisted := true } else state :=
      AssocMap.lookup_mapValues _ _ _
    rw [List.foldl_cons, ih, hround, Option.map_map]
    apply congrArg (Option.map · _)
    funext state
    have hkeys : (evaporateChain S nowMs L rootIdk).idkToChain = L.idkToChain := rfl
    simp only [Function.comp, hkeys, List.exists_mem_cons_iff]
    by_cases hfirst : state.ownerChain = some (L.idkToChain.lookup rootIdk).get!
    · simp [hfirst]
    · simp [hfirst]

/-- Changing one chain in place, told by its first key. -/
theorem KeysIndexed.modify_eq_map (hL : KeysIndexed L) {i : Nat} {chain : Chain}
    (hchain : L.chains[i]? = some chain) (f : Chain → Chain) :
    L.chains.modify i f =
      L.chains.map fun other => if other.rootIdk = chain.rootIdk then f other else other := by
  apply List.ext_getElem?
  intro j
  rw [List.getElem?_modify, List.getElem?_map]
  cases hj : L.chains[j]? with
  | none => rfl
  | some other =>
    have hsame : other.rootIdk = chain.rootIdk ↔ i = j := by
      constructor
      · intro hroot
        have hlookup := hL.root hj
        rw [hroot, hL.root hchain] at hlookup
        exact Option.some.inj hlookup
      · rintro rfl
        rw [hchain] at hj
        rw [Option.some.inj hj]
    by_cases hij : i = j
    · simp [hij, hsame]
    · simp [hij, hsame]

theorem chains_foldl (roots : List Key) (hnodup : roots.Nodup) (hL : KeysIndexed L)
    (hdue : ∀ rootIdk ∈ roots, L.Due nowMs rootIdk) :
    (roots.foldl (evaporateChain S nowMs) L).chains =
      L.chains.map fun chain => if chain.rootIdk ∈ roots then chain.evaporated else chain := by
  induction roots generalizing L with
  | nil => simp
  | cons rootIdk rest ih =>
    obtain ⟨hnew, hrest⟩ := List.nodup_cons.mp hnodup
    have hfirst := hdue rootIdk List.mem_cons_self
    have hstep := accepted_evaporateChain (S := S) hL hfirst
    have hround : (evaporateChain S nowMs L rootIdk).chains = L.chains.map fun chain =>
        if chain.rootIdk = rootIdk then chain.evaporated else chain := by
      obtain ⟨i, chain, hchain, rfl, -⟩ := hfirst
      have hmodify := hL.modify_eq_map hchain Chain.evaporated
      simpa [evaporateChain, hL.root hchain] using hmodify
    have hothers : ∀ other ∈ rest, (evaporateChain S nowMs L rootIdk).Due nowMs other := by
      intro other hother
      apply hfirst.evaporateChain hL (hdue other (List.mem_cons_of_mem _ hother))
      rintro rfl
      exact hnew hother
    rw [List.foldl_cons, ih hrest (hstep.keysIndexed hL) hothers, hround, List.map_map]
    apply List.map_congr_left
    intro chain _
    by_cases hroot : chain.rootIdk = rootIdk
    · simp [hroot, hnew]
    · simp [hroot]

theorem KeysIndexed.eq_of_root (hL : KeysIndexed L) {chain other : Chain}
    (hchain : chain ∈ L.chains) (hother : other ∈ L.chains)
    (hroot : chain.rootIdk = other.rootIdk) : chain = other :=
  List.inj_on_of_nodup_map hL.nodup_roots hchain hother hroot

theorem KeysIndexed.root_mem_eligible (hL : KeysIndexed L) {chain : Chain}
    (hchain : chain ∈ L.chains) :
    chain.rootIdk ∈ L.eligible nowMs ↔ L.isDue nowMs chain = true := by
  rw [(eligible_perm L nowMs).mem_iff, List.mem_map]
  constructor
  · rintro ⟨other, hother, hroot⟩
    obtain ⟨hmem, hdue⟩ := List.mem_filter.mp hother
    rwa [hL.eq_of_root hchain hmem hroot.symm]
  · intro hdue
    exact ⟨chain, List.mem_filter.mpr ⟨hchain, hdue⟩, rfl⟩

theorem KeysIndexed.ownedByDue_iff (hL : KeysIndexed L) {state : ServerState} :
    L.ownedByDue nowMs state = true ↔ ∃ rootIdk ∈ L.eligible nowMs,
      state.ownerChain = some (L.idkToChain.lookup rootIdk).get! := by
  rw [ownedByDue, Option.any_eq_true]
  constructor
  · rintro ⟨i, howner, hany⟩
    rw [Option.any_eq_true] at hany
    obtain ⟨chain, hchain, hdue⟩ := hany
    refine ⟨chain.rootIdk, (hL.root_mem_eligible (List.mem_of_getElem? hchain)).mpr hdue, ?_⟩
    rw [hL.root hchain, howner]
    rfl
  · rintro ⟨rootIdk, hmem, howner⟩
    obtain ⟨i, chain, hchain, rfl, -⟩ := mem_eligible.mp hmem
    rw [hL.root hchain] at howner
    refine ⟨i, howner, ?_⟩
    rw [hchain]
    exact (hL.root_mem_eligible (List.mem_of_getElem? hchain)).mp hmem

theorem evaporate_exactly (S : Suite) (nowMs : UInt64) (hL : KeysIndexed L) :
    EvaporatedExactly S nowMs L (evaporate S nowMs L).1 (evaporate S nowMs L).2 := by
  rw [evaporate_eq]
  obtain ⟨hidk, hid, hparams⟩ := fixed_foldl S nowMs (L.eligible nowMs) L
  refine ⟨?_, ?_, ⟨L.eligible nowMs, eligible_perm L nowMs, hL.strict_eligible, rfl,
    store_foldl _ L, leaves_foldl _ L⟩, ⟨hidk, hid⟩, hparams⟩
  · rw [chains_foldl _ hL.nodup_eligible hL fun _ => mem_eligible.mp]
    apply List.map_congr_left
    intro chain hchain
    simp only [hL.root_mem_eligible hchain]
  · intro serverRoot
    rw [servers_foldl]
    simp only [hL.ownedByDue_iff]

theorem EvaporatedExactly.eligible_eq_nil {ids : List RecordId}
    (h : EvaporatedExactly S nowMs L ids L') : L'.eligible nowMs = [] := by
  apply List.eq_nil_iff_forall_not_mem.mpr
  intro rootIdk hmem
  rw [(eligible_perm L' nowMs).mem_iff, h.chains] at hmem
  obtain ⟨chain, hfilter, -⟩ := List.mem_map.mp hmem
  obtain ⟨hchain, hdue⟩ := List.mem_filter.mp hfilter
  obtain ⟨old, -, rfl⟩ := List.mem_map.mp hchain
  have hparams : L'.isDue nowMs = L.isDue nowMs := by
    funext chain
    rw [isDue, isDue, h.params]
  rw [hparams] at hdue
  split at hdue
  · -- a tombstone ends it
    simp [isDue] at hdue
  · rename_i hnot
    exact hnot hdue

theorem EvaporatedExactly.again {ids : List RecordId} (h : EvaporatedExactly S nowMs L ids L') :
    evaporate S nowMs L' = ([], L') := by
  rw [evaporate, h.eligible_eq_nil, List.foldl_nil]

theorem params_run (S : Suite) (params : LedgerParams) (ops : List Op) :
    (run S params ops).params = params := by
  apply run_induction (fun L => L.params = params) params ops rfl
  intro L L' record hstep _ hL
  cases hstep <;> exact hL

/-- With the same records, the same chains are due. -/
theorem mem_eligible_of_traced (h : Traced L) (hL : KeysIndexed L) (h' : Traced L')
    (hparams : L'.params = L.params) (hsame : ∀ record, record ∈ L.store ↔ record ∈ L'.store)
    {rootIdk : Key} (hmem : rootIdk ∈ L.eligible nowMs) : rootIdk ∈ L'.eligible nowMs := by
  rw [(eligible_perm L nowMs).mem_iff] at hmem
  obtain ⟨chain, hfilter, rfl⟩ := List.mem_map.mp hmem
  obtain ⟨hchain, hdue⟩ := List.mem_filter.mp hfilter
  obtain ⟨chain', hchain', hroot, hle⟩ := h.exists_chain h' (fun r => (hsame r).mp) hchain
  obtain ⟨chain'', hchain'', hroot', hle'⟩ := h'.exists_chain h (fun r => (hsame r).mpr) hchain'
  obtain rfl := hL.eq_of_root hchain hchain'' (hroot'.trans hroot).symm
  have htime : chain'.lastActivityMs = chain.lastActivityMs := UInt64.le_antisymm hle' hle
  rw [(eligible_perm L' nowMs).mem_iff]
  refine List.mem_map.mpr ⟨chain', List.mem_filter.mpr ⟨hchain', ?_⟩, hroot⟩
  simp only [isDue, h.alive chain hchain, h'.alive chain' hchain', htime, hparams] at hdue ⊢
  exact hdue

theorem eligible_eq_of_traced (h : Traced L) (hL : KeysIndexed L) (h' : Traced L')
    (hL' : KeysIndexed L') (hparams : L'.params = L.params)
    (hsame : ∀ record, record ∈ L.store ↔ record ∈ L'.store) :
    L.eligible nowMs = L'.eligible nowMs := by
  have hperm : (L.eligible nowMs).Perm (L'.eligible nowMs) := by
    rw [List.perm_ext_iff_of_nodup hL.nodup_eligible hL'.nodup_eligible]
    intro rootIdk
    exact ⟨mem_eligible_of_traced h hL h' hparams hsame,
      mem_eligible_of_traced h' hL' h hparams.symm fun record => (hsame record).symm⟩
  refine List.Perm.eq_of_pairwise ?_ (pairwise_eligible L nowMs) (pairwise_eligible L' nowMs) hperm
  intro a b _ _ hab hba
  exact ByteArr.toList_injective (List.le_antisymm hab hba)

/-- In every reachable ledger an evaporation is exact, and a second one at the same time does
nothing. Two ledgers that have accepted the same records, in whatever order, return the same
tombstones from their first evaporation. -/
theorem evaporation_exact_run (S : Suite) (params : LedgerParams) (nowMs : UInt64) :
    (∀ ops : List Op,
      EvaporatedExactly S nowMs (run S params ops) (evaporate S nowMs (run S params ops)).1
          (evaporate S nowMs (run S params ops)).2 ∧
        evaporate S nowMs (evaporate S nowMs (run S params ops)).2 =
          ([], (evaporate S nowMs (run S params ops)).2)) ∧
      ∀ first second : List (Record × UInt64),
        (appended S params first).store.Perm (appended S params second).store →
          (evaporate S nowMs (appended S params first)).1 =
            (evaporate S nowMs (appended S params second)).1 := by
  refine ⟨?_, ?_⟩
  · intro ops
    have hexact := evaporate_exactly S nowMs (keysIndexed_run S params ops)
    exact ⟨hexact, hexact.again⟩
  · intro first second hperm
    rw [evaporate_eq, evaporate_eq]
    dsimp only
    rw [eligible_eq_of_traced (traced_appended S params first) (keysIndexed_run S params _)
      (traced_appended S params second) (keysIndexed_run S params _)
      ((params_run S params _).trans (params_run S params _).symm) fun record => hperm.mem_iff]

/-- Two identities announced in two orders. -/
theorem evaporation_exact_two_orders :
    let first := [(sampleAnnounce (sampleKey 1) 1000, 1000), (sampleAnnounce (sampleKey 2) 500, 1000)]
    (evaporate sampleSuite 20000 (appended sampleSuite sampleParams first)).1 =
      (evaporate sampleSuite 20000 (appended sampleSuite sampleParams first.reverse)).1 := by
  intro first
  apply (evaporation_exact_run sampleSuite sampleParams 20000).2 first first.reverse
  have hstore : (appended sampleSuite sampleParams first).store =
      [sampleAnnounce (sampleKey 1) 1000, sampleAnnounce (sampleKey 2) 500] := by decide +kernel
  have hstore' : (appended sampleSuite sampleParams first.reverse).store =
      [sampleAnnounce (sampleKey 2) 500, sampleAnnounce (sampleKey 1) 1000] := by decide +kernel
  rw [hstore, hstore']
  exact List.Perm.swap _ _ _

end Dante.Ledger
