import Dante.Ledger.Accepted

/-!
The states a ledger can reach. The key index always leads to the chain it was
made for; with that, one call of `evaporate` is a sequence of tombstone steps, and
every run of calls is a sequence of accepted records.
-/

namespace Dante.Ledger

open Crypto Identity

variable {S : Suite} {L L' : Ledger} {record : Record}

/-- Every indexed key points to a chain, and a chain's first key and its tip point
back to it. -/
structure KeysIndexed (L : Ledger) : Prop where
  bound : ∀ {idk : Key} {i : Nat}, L.idkToChain.lookup idk = some i → i < L.chains.length
  root : ∀ {i : Nat} {chain : Chain}, L.chains[i]? = some chain →
    L.idkToChain.lookup chain.rootIdk = some i
  tip : ∀ {i : Nat} {chain : Chain}, L.chains[i]? = some chain →
    L.idkToChain.lookup chain.tipIdk = some i

namespace KeysIndexed

theorem exists_chain (hL : KeysIndexed L) {idk : Key} {i : Nat}
    (hlookup : L.idkToChain.lookup idk = some i) :
    ∃ chain, L.chains[i]? = some chain ∧ L.chains[i]! = chain := by
  have hbound := hL.bound hlookup
  exact ⟨L.chains[i], List.getElem?_eq_getElem hbound, getElem!_pos L.chains i hbound⟩

theorem unchanged (hL : KeysIndexed L) (hidk : L'.idkToChain = L.idkToChain)
    (hchains : L'.chains = L.chains) : KeysIndexed L' where
  bound := by rw [hidk, hchains]; exact hL.bound
  root := by rw [hidk, hchains]; exact hL.root
  tip := by rw [hidk, hchains]; exact hL.tip

theorem updateChain (hL : KeysIndexed L) (chainId : Nat) (f : Chain → Chain)
    (hroot : ∀ chain, (f chain).rootIdk = chain.rootIdk)
    (htip : ∀ chain, (f chain).tipIdk = chain.tipIdk) :
    KeysIndexed (L.updateChain chainId f) where
  bound hlookup := by simpa using hL.bound hlookup
  root hchain := by
    rcases Positions.getElem?_modify.mp hchain with ⟨-, hold⟩ | ⟨rfl, old, hold, rfl⟩
    · exact hL.root hold
    · rw [hroot]
      exact hL.root hold
  tip hchain := by
    rcases Positions.getElem?_modify.mp hchain with ⟨-, hold⟩ | ⟨rfl, old, hold, rfl⟩
    · exact hL.tip hold
    · rw [htip]
      exact hL.tip hold

theorem addChain (hL : KeysIndexed L) (S : Suite) (chain : Chain)
    (htip : chain.tipIdk = chain.rootIdk) (hfresh : L.idkToChain.lookup chain.rootIdk = none) :
    KeysIndexed (L.addChain S chain) where
  bound hlookup := by
    rw [addChain_idkToChain, AssocMap.lookup_insert] at hlookup
    rw [addChain_chains, List.length_append, List.length_singleton]
    split at hlookup
    · cases hlookup
      omega
    · exact Nat.lt_succ_of_lt (hL.bound hlookup)
  root hfound := by
    rcases Positions.getElem?_concat.mp hfound with hold | ⟨rfl, rfl⟩
    · exact AssocMap.lookup_insert_of_none _ hfresh (hL.root hold)
    · exact AList.lookup_insert _
  tip hfound := by
    rcases Positions.getElem?_concat.mp hfound with hold | ⟨rfl, rfl⟩
    · exact AssocMap.lookup_insert_of_none _ hfresh (hL.tip hold)
    · rw [htip]
      exact AList.lookup_insert _

theorem rotate (hL : KeysIndexed L) (chainId : Nat) (f : Chain → Chain) (idk : Key)
    (hbound : chainId < L.chains.length) (hfresh : L.idkToChain.lookup idk = none)
    (hroot : ∀ chain, (f chain).rootIdk = chain.rootIdk)
    (htip : ∀ chain, (f chain).tipIdk = idk) :
    KeysIndexed ((L.updateChain chainId f).bindKey idk chainId) where
  bound hlookup := by
    rw [bindKey_idkToChain, AssocMap.lookup_insert] at hlookup
    rw [bindKey_chains, updateChain_chains, List.length_modify]
    split at hlookup
    · cases hlookup
      exact hbound
    · exact hL.bound hlookup
  root hfound := by
    rcases Positions.getElem?_modify.mp hfound with ⟨-, hold⟩ | ⟨rfl, old, hold, rfl⟩
    · exact AssocMap.lookup_insert_of_none _ hfresh (hL.root hold)
    · rw [hroot]
      exact AssocMap.lookup_insert_of_none _ hfresh (hL.root hold)
  tip hfound := by
    rcases Positions.getElem?_modify.mp hfound with ⟨-, hold⟩ | ⟨rfl, old, hold, rfl⟩
    · exact AssocMap.lookup_insert_of_none _ hfresh (hL.tip hold)
    · rw [htip]
      exact AList.lookup_insert _

theorem new (params : LedgerParams) : KeysIndexed (new params) where
  bound hlookup := by simp [Ledger.new] at hlookup
  root hchain := by simp [Ledger.new] at hchain
  tip hchain := by simp [Ledger.new] at hchain

theorem nodup_roots (hL : KeysIndexed L) : (L.chains.map Chain.rootIdk).Nodup := by
  rw [List.nodup_iff_injective_get]
  intro i j hij
  have hi : L.idkToChain.lookup ((L.chains.map Chain.rootIdk).get i) = some i.val := by
    rw [List.get_eq_getElem, List.getElem_map]
    exact hL.root (List.getElem?_eq_getElem _)
  have hj : L.idkToChain.lookup ((L.chains.map Chain.rootIdk).get j) = some j.val := by
    rw [List.get_eq_getElem, List.getElem_map]
    exact hL.root (List.getElem?_eq_getElem _)
  rw [hij, hj] at hi
  exact Fin.ext (Option.some.inj hi).symm

end KeysIndexed

theorem TipOf.exists_chain {key : Key} {createdMs : UInt64} {newest : Chain → UInt64}
    {chainId : Nat} (htip : L.TipOf key createdMs newest chainId) (hL : KeysIndexed L) :
    ∃ chain, L.chains[chainId]? = some chain ∧ chain.usable = true ∧ chain.tipIdk = key ∧
      newest chain < createdMs := by
  obtain ⟨chain, hchain, hget⟩ := hL.exists_chain htip.lookup
  refine ⟨chain, hchain, ?_, ?_, ?_⟩
  · exact hget ▸ htip.usable
  · exact hget ▸ htip.tip
  · exact hget ▸ htip.newer

theorem Accepted.keysIndexed (hstep : Accepted S L record L') (hL : KeysIndexed L) :
    KeysIndexed L' := by
  cases hstep with
  | announce body hfresh => exact (hL.addChain S _ rfl hfresh).unchanged rfl rfl
  | liveness body chainId htip =>
    exact (hL.updateChain chainId (.refreshed _) (fun _ => rfl) fun _ => rfl).unchanged rfl rfl
  | rotation body chainId htip hfresh hauthor =>
    exact (hL.rotate chainId (.rotated body _) record.author (hL.bound htip.lookup) hfresh
      (fun _ => rfl) fun _ => hauthor).unchanged rfl rfl
  | revoke body chainId htip =>
    exact (hL.updateChain chainId (.revokedAt _) (fun _ => rfl) fun _ => rfl).unchanged rfl rfl
  | profile body chainId htip =>
    exact (hL.updateChain chainId (.profiled body _) (fun _ => rfl) fun _ => rfl).unchanged rfl rfl
  | serverRegister body | serverDelist body state => exact hL.unchanged rfl rfl
  | tombstone chain chainId nowMs =>
    exact (hL.updateChain chainId .evaporated (fun _ => rfl) fun _ => rfl).unchanged rfl rfl

abbrev Reaches (S : Suite) : Ledger → Ledger → Prop :=
  Relation.ReflTransGen fun L L' => ∃ record, Accepted S L record L'

theorem Reaches.keysIndexed (hreach : Reaches S L L') (hL : KeysIndexed L) : KeysIndexed L' := by
  induction hreach with
  | refl => exact hL
  | tail _ hstep ih =>
    obtain ⟨record, haccepted⟩ := hstep
    exact haccepted.keysIndexed ih

def Due (L : Ledger) (nowMs : UInt64) (rootIdk : Key) : Prop :=
  ∃ (i : Nat) (chain : Chain), L.chains[i]? = some chain ∧ chain.rootIdk = rootIdk ∧
    chain.tombstoned = false ∧ saturatingSub nowMs chain.lastActivityMs > L.params.identityTtlMs

variable {nowMs : UInt64} {rootIdk : Key}

theorem mem_eligible : rootIdk ∈ L.eligible nowMs ↔ L.Due nowMs rootIdk := by
  unfold eligible sortKeys Due
  rw [(List.perm_insertionSort _ _).mem_iff, List.mem_map]
  constructor
  · rintro ⟨chain, hmem, rfl⟩
    obtain ⟨hchain, hdue⟩ := List.mem_filter.mp hmem
    obtain ⟨i, hi⟩ := List.mem_iff_getElem?.mp hchain
    simp only [Bool.and_eq_true, Bool.not_eq_true', decide_eq_true_eq] at hdue
    exact ⟨i, chain, hi, rfl, hdue.1, hdue.2⟩
  · rintro ⟨i, chain, hi, rfl, halive, hdue⟩
    refine ⟨chain, List.mem_filter.mpr ⟨List.mem_of_getElem? hi, ?_⟩, rfl⟩
    simp [halive, hdue]

theorem KeysIndexed.nodup_eligible (hL : KeysIndexed L) : (L.eligible nowMs).Nodup := by
  apply (List.perm_insertionSort _ _).nodup_iff.mpr
  exact hL.nodup_roots.sublist (List.filter_sublist.map _)

/-- One round of the loop is the tombstone step of a chain that is due. -/
theorem accepted_evaporateChain (hL : KeysIndexed L) (hdue : L.Due nowMs rootIdk) :
    Accepted S L (Tombstone.toRecord { subject := rootIdk, evaporatedMs := nowMs })
      (evaporateChain S nowMs L rootIdk) := by
  obtain ⟨i, chain, hchain, rfl, halive, hold⟩ := hdue
  have hlookup := hL.root hchain
  unfold evaporateChain
  rw [hlookup]
  exact .tombstone chain i nowMs hchain hlookup halive hold rfl

theorem Due.evaporateChain (hL : KeysIndexed L) (hdue : L.Due nowMs rootIdk) {other : Key}
    (hother : L.Due nowMs other) (hne : other ≠ rootIdk) :
    Due (evaporateChain S nowMs L rootIdk) nowMs other := by
  obtain ⟨i, chain, hchain, rfl, -, -⟩ := hdue
  obtain ⟨j, found, hfound, rfl, halive, hold⟩ := hother
  have hij : j ≠ i := by
    rintro rfl
    rw [hchain] at hfound
    exact hne (congrArg Chain.rootIdk (Option.some.inj hfound)).symm
  unfold Ledger.evaporateChain
  rw [hL.root hchain]
  exact ⟨j, found, Positions.getElem?_modify.mpr (Or.inl ⟨hij, hfound⟩), rfl, halive, hold⟩

theorem evaporate_eq (S : Suite) (nowMs : UInt64) (L : Ledger) :
    evaporate S nowMs L =
      ((L.eligible nowMs).map fun rootIdk =>
          (Tombstone.toRecord { subject := rootIdk, evaporatedMs := nowMs }).id S,
        (L.eligible nowMs).foldl (Ledger.evaporateChain S nowMs) L) := by
  have hfold (roots : List Key) (state : List RecordId × Ledger) :
      roots.foldl (fun state rootIdk =>
        (state.1 ++ [(Tombstone.toRecord { subject := rootIdk, evaporatedMs := nowMs }).id S],
          Ledger.evaporateChain S nowMs state.2 rootIdk)) state =
        (state.1 ++ roots.map fun rootIdk =>
            (Tombstone.toRecord { subject := rootIdk, evaporatedMs := nowMs }).id S,
          roots.foldl (Ledger.evaporateChain S nowMs) state.2) := by
    induction roots generalizing state with
    | nil => simp
    | cons rootIdk rest ih =>
      rw [List.foldl_cons, ih]
      simp
  exact hfold (L.eligible nowMs) ([], L)

/-- The rule for the loop: the roots still to come are due and different. -/
theorem foldl_evaporateChain_induction (inv : Ledger → Prop) (roots : List Key)
    (hnodup : roots.Nodup) (hL : KeysIndexed L) (hdue : ∀ rootIdk ∈ roots, L.Due nowMs rootIdk)
    (hround : ∀ {L : Ledger} {rootIdk : Key}, rootIdk ∈ roots → KeysIndexed L →
      L.Due nowMs rootIdk → inv L → inv (evaporateChain S nowMs L rootIdk)) (hinv : inv L) :
    inv (roots.foldl (Ledger.evaporateChain S nowMs) L) := by
  induction roots generalizing L with
  | nil => exact hinv
  | cons rootIdk rest ih =>
    obtain ⟨hnew, hrest⟩ := List.nodup_cons.mp hnodup
    have hfirst := hdue rootIdk List.mem_cons_self
    have hstep := accepted_evaporateChain (S := S) hL hfirst
    apply ih hrest (hstep.keysIndexed hL)
    · intro other hother
      apply hfirst.evaporateChain hL (hdue other (List.mem_cons_of_mem _ hother))
      rintro rfl
      exact hnew hother
    · exact fun hmem => hround (List.mem_cons_of_mem _ hmem)
    · exact hround List.mem_cons_self hL hfirst hinv

theorem evaporate_induction (inv : Ledger → Prop) (hL : KeysIndexed L)
    (hround : ∀ {L' : Ledger} {rootIdk : Key}, rootIdk ∈ L.eligible nowMs → KeysIndexed L' →
      L'.Due nowMs rootIdk → inv L' → inv (evaporateChain S nowMs L' rootIdk)) (hinv : inv L) :
    inv (evaporate S nowMs L).2 := by
  rw [evaporate_eq]
  exact foldl_evaporateChain_induction inv _ hL.nodup_eligible hL (fun _ => mem_eligible.mp)
    hround hinv

theorem reaches_evaporate (hL : KeysIndexed L) : Reaches S L (evaporate S nowMs L).2 :=
  evaporate_induction (Reaches S L) hL
    (fun _ hL' hdue hreach => hreach.tail ⟨_, accepted_evaporateChain hL' hdue⟩) .refl

theorem reaches_step (hL : KeysIndexed L) (op : Op) : Reaches S L (step S L op) := by
  cases op with
  | append record nowMs =>
    cases hcall : (append S record nowMs).call L with
    | mk result L' =>
      rw [step, hcall]
      cases result with
      | ok id => exact .single ⟨record, accepted_of_append hcall⟩
      | error e =>
        rw [eq_of_append_error hcall]
  | evaporate nowMs => exact reaches_evaporate hL

/-- A run of calls is a sequence of accepted records. -/
theorem reaches_exec (hL : KeysIndexed L) (ops : List Op) :
    Reaches S L (Steps.exec (step S) L ops) := by
  induction ops generalizing L with
  | nil => exact .refl
  | cons op rest ih =>
    have hstep := reaches_step (S := S) hL op
    exact hstep.trans (ih (hstep.keysIndexed hL))

theorem keysIndexed_run (S : Suite) (params : LedgerParams) (ops : List Op) :
    KeysIndexed (run S params ops) :=
  (reaches_exec (KeysIndexed.new params) ops).keysIndexed (KeysIndexed.new params)

/-- The rule for invariants of every state that a run reaches. -/
theorem run_induction (inv : Ledger → Prop) (params : LedgerParams) (ops : List Op)
    (hnew : inv (new params))
    (hstep : ∀ {L L' record}, Accepted S L record L' → KeysIndexed L → inv L → inv L') :
    inv (run S params ops) := by
  have hreach : Reaches S (new params) (run S params ops) :=
    reaches_exec (KeysIndexed.new params) ops
  generalize run S params ops = L at hreach ⊢
  induction hreach with
  | refl => exact hnew
  | tail hreach hlast ih =>
    obtain ⟨record, haccepted⟩ := hlast
    exact hstep haccepted (Reaches.keysIndexed hreach (KeysIndexed.new params)) ih

end Dante.Ledger
