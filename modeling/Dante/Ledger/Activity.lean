import Dante.Ledger.Index

/-!
What the accepted records say about the chains, whatever their order. A key belongs to the chain of
the announcement it goes back to by rotations, and a chain was last active at the greatest time
among the records that its keys have signed.
-/

namespace Dante.Ledger

open Crypto Identity

variable {S : Suite} {L L' : Ledger} {record : Record}

/-- By the records of the log, `key` goes back to the announcement of `root`. -/
inductive Rooted (store : List Record) : Key → Key → Prop where
  | announce {record : Record} (hmem : record ∈ store) (hkind : record.kind = .identityAnnounce) :
      Rooted store record.author record.author
  | rotation {record : Record} {body : KeyRotation} {root : Key} (hmem : record ∈ store)
      (hkind : record.kind = .keyRotation) (hdecode : KeyRotation.decode record.body = .ok body)
      (hprev : Rooted store body.prevIdk root) : Rooted store record.author root

theorem Rooted.mono {store store' : List Record} {key root : Key} (h : Rooted store key root)
    (hsub : ∀ record ∈ store, record ∈ store') : Rooted store' key root := by
  induction h with
  | announce hmem hkind => exact .announce (hsub _ hmem) hkind
  | rotation hmem hkind hdecode _ ih => exact .rotation (hsub _ hmem) hkind hdecode ih

/-- The kinds of record that keep an identity from evaporating. -/
def isActivity (kind : RecordKind) : Bool :=
  match kind with
  | .identityAnnounce | .livenessProof | .keyRotation | .identityRevoke => true
  | _ => false

/-- The chains of a ledger without tombstones are what its log says. -/
structure Traced (L : Ledger) : Prop where
  alive : ∀ chain ∈ L.chains, chain.tombstoned = false
  announced : ∀ record ∈ L.store, record.kind = .identityAnnounce →
    L.HasChain record.author (·.rootIdk = record.author)
  rotated : ∀ record ∈ L.store, record.kind = .keyRotation →
    ∀ body, KeyRotation.decode record.body = .ok body →
      ∃ i, L.idkToChain.lookup body.prevIdk = some i ∧
        L.idkToChain.lookup record.author = some i
  rooted : ∀ {key : Key} {i : Nat} {chain : Chain}, L.idkToChain.lookup key = some i →
    L.chains[i]? = some chain → Rooted L.store key chain.rootIdk
  latest : ∀ record ∈ L.store, isActivity record.kind = true →
    L.HasChain record.author (record.createdMs ≤ ·.lastActivityMs)
  attained : ∀ {i : Nat} {chain : Chain}, L.chains[i]? = some chain →
    ∃ record ∈ L.store, isActivity record.kind = true ∧
      L.idkToChain.lookup record.author = some i ∧ record.createdMs = chain.lastActivityMs

namespace Traced

theorem new (params : LedgerParams) : Traced (new params) where
  alive := by simp
  announced := by simp
  rotated := by simp
  rooted hlookup := by simp [Ledger.new] at hlookup
  latest := by simp
  attained hchain := by simp [Ledger.new] at hchain

/-- What is left to show of a record that has been added: its own traces, the keys that are
new, and the chains that are active now. -/
theorem extend (h : Traced L) (hL : KeysIndexed L) (hlater : Later L L')
    (hstore : L'.store = L.store ++ [record])
    (halive : ∀ chain ∈ L'.chains, chain.tombstoned = false)
    (hannounced : record.kind = .identityAnnounce →
      L'.HasChain record.author (·.rootIdk = record.author))
    (hrotated : record.kind = .keyRotation → ∀ body, KeyRotation.decode record.body = .ok body →
      ∃ i, L'.idkToChain.lookup body.prevIdk = some i ∧
        L'.idkToChain.lookup record.author = some i)
    (hrooted : ∀ {key : Key} {i : Nat} {chain : Chain}, L.idkToChain.lookup key = none →
      L'.idkToChain.lookup key = some i → L'.chains[i]? = some chain →
      Rooted (L.store ++ [record]) key chain.rootIdk)
    (hlatest : isActivity record.kind = true →
      L'.HasChain record.author (record.createdMs ≤ ·.lastActivityMs))
    (hattained : ∀ {i : Nat} {chain : Chain}, L'.chains[i]? = some chain →
      (∃ old, L.chains[i]? = some old ∧ old.lastActivityMs = chain.lastActivityMs) ∨
        isActivity record.kind = true ∧ L'.idkToChain.lookup record.author = some i ∧
          record.createdMs = chain.lastActivityMs) :
    Traced L' where
  alive := halive
  announced other hother hkind := by
    rw [hstore, List.mem_append, List.mem_singleton] at hother
    rcases hother with hold | rfl
    · exact (h.announced other hold hkind).later hlater fun _ _ hgrown hroot =>
        hgrown.root.trans hroot
    · exact hannounced hkind
  rotated other hother hkind body hdecode := by
    rw [hstore, List.mem_append, List.mem_singleton] at hother
    rcases hother with hold | rfl
    · obtain ⟨i, hprev, hauthor⟩ := h.rotated other hold hkind body hdecode
      exact ⟨i, hlater.key hprev, hlater.key hauthor⟩
    · exact hrotated hkind body hdecode
  rooted {key i chain} hlookup hchain := by
    rw [hstore]
    cases hold : L.idkToChain.lookup key with
    | none => exact hrooted hold hlookup hchain
    | some j =>
      obtain rfl : j = i := Option.some.inj ((hlater.key hold).symm.trans hlookup)
      obtain ⟨old, hfound, -⟩ := hL.exists_chain hold
      obtain ⟨chain', hchain', hgrown⟩ := hlater.chain hfound
      obtain rfl : chain' = chain := Option.some.inj (hchain'.symm.trans hchain)
      rw [hgrown.root]
      exact (h.rooted hold hfound).mono fun other hother => List.mem_append_left _ hother
  latest other hother hkind := by
    rw [hstore, List.mem_append, List.mem_singleton] at hother
    rcases hother with hold | rfl
    · exact (h.latest other hold hkind).later hlater fun _ _ hgrown hle =>
        UInt64.le_trans hle hgrown.activity
    · exact hlatest hkind
  attained {i chain} hchain := by
    rw [hstore]
    rcases hattained hchain with ⟨old, hold, hsame⟩ | ⟨hkind, hlookup, htime⟩
    · obtain ⟨other, hother, hkind, hlookup, htime⟩ := h.attained hold
      exact ⟨other, List.mem_append_left _ hother, hkind, hlater.key hlookup, htime.trans hsame⟩
    · exact ⟨record, List.mem_append_right _ List.mem_cons_self, hkind, hlookup, htime⟩

theorem alive_modify (h : Traced L) {chainId : Nat} {f : Chain → Chain}
    (hf : ∀ chain, (f chain).tombstoned = chain.tombstoned) :
    ∀ chain ∈ L.chains.modify chainId f, chain.tombstoned = false := by
  intro chain hmem
  obtain ⟨i, hi⟩ := List.mem_iff_getElem?.mp hmem
  rcases Positions.getElem?_modify.mp hi with ⟨-, hold⟩ | ⟨-, old, hold, rfl⟩
  · exact h.alive chain (List.mem_of_getElem? hold)
  · rw [hf]
    exact h.alive old (List.mem_of_getElem? hold)

theorem renewed (h : Traced L) (hL : KeysIndexed L) (hlater : Later L L') {chainId : Nat}
    {f : Chain → Chain} (hstore : L'.store = L.store ++ [record])
    (hkeys : L'.idkToChain = L.idkToChain) (hchains : L'.chains = L.chains.modify chainId f)
    (hf : ∀ chain, (f chain).tombstoned = chain.tombstoned)
    (htime : (∀ chain, (f chain).lastActivityMs = chain.lastActivityMs) ∧
        isActivity record.kind = false ∨
      (∀ chain, (f chain).lastActivityMs = record.createdMs) ∧ isActivity record.kind = true ∧
        L.idkToChain.lookup record.author = some chainId)
    (hannounce : record.kind ≠ .identityAnnounce) (hrotation : record.kind ≠ .keyRotation) :
    Traced L' := by
  apply h.extend hL hlater hstore
  · rw [hchains]
    exact h.alive_modify hf
  · exact fun hkind => absurd hkind hannounce
  · exact fun hkind => absurd hkind hrotation
  · intro key i chain hnone hlookup
    rw [hkeys, hnone] at hlookup
    cases hlookup
  · intro hkind
    rcases htime with ⟨-, hquiet⟩ | ⟨hnow, -, hlookup⟩
    · rw [hquiet] at hkind
      cases hkind
    · obtain ⟨old, hold, -⟩ := hL.exists_chain hlookup
      refine ⟨chainId, f old, hkeys ▸ hlookup, ?_, ?_⟩
      · rw [hchains]
        exact Positions.getElem?_modify.mpr (Or.inr ⟨rfl, old, hold, rfl⟩)
      · change record.createdMs ≤ (f old).lastActivityMs
        rw [hnow]
        exact UInt64.le_refl _
  · intro i chain hchain
    rw [hchains] at hchain
    rcases Positions.getElem?_modify.mp hchain with ⟨-, hold⟩ | ⟨rfl, old, hold, rfl⟩
    · exact Or.inl ⟨chain, hold, rfl⟩
    · rcases htime with ⟨hsame, -⟩ | ⟨hnow, hkind, hlookup⟩
      · exact Or.inl ⟨old, hold, (hsame old).symm⟩
      · exact Or.inr ⟨hkind, hkeys ▸ hlookup, (hnow old).symm⟩

theorem unchanged (h : Traced L) (hL : KeysIndexed L) (hlater : Later L L')
    (hstore : L'.store = L.store ++ [record]) (hkeys : L'.idkToChain = L.idkToChain)
    (hchains : L'.chains = L.chains) (hquiet : isActivity record.kind = false) : Traced L' := by
  have hsame : L'.chains = L.chains.modify 0 id := by rw [hchains, List.modify_id]
  apply h.renewed hL hlater hstore hkeys hsame (fun _ => rfl) (.inl ⟨fun _ => rfl, hquiet⟩)
  · rintro hkind
    simp [hkind, isActivity] at hquiet
  · rintro hkind
    simp [hkind, isActivity] at hquiet

/-- A record that binds its author to the chain `i`, which is active now. -/
theorem bound (h : Traced L) (hL : KeysIndexed L) (hlater : Later L L') {i : Nat} {chain : Chain}
    (hstore : L'.store = L.store ++ [record])
    (hkeys : L'.idkToChain = L.idkToChain.insert record.author i)
    (hchain : L'.chains[i]? = some chain)
    (hothers : ∀ {j : Nat} {other : Chain}, L'.chains[j]? = some other →
      L.chains[j]? = some other ∨ j = i)
    (halive : ∀ chain ∈ L'.chains, chain.tombstoned = false)
    (hannounced : record.kind = .identityAnnounce → chain.rootIdk = record.author)
    (hrotated : record.kind = .keyRotation → ∀ body, KeyRotation.decode record.body = .ok body →
      L.idkToChain.lookup body.prevIdk = some i)
    (hrooted : Rooted (L.store ++ [record]) record.author chain.rootIdk)
    (htime : record.createdMs = chain.lastActivityMs) (hkind : isActivity record.kind = true) :
    Traced L' := by
  have hlookup : L'.idkToChain.lookup record.author = some i := by
    rw [hkeys]
    exact AList.lookup_insert _
  apply h.extend hL hlater hstore halive
  · exact fun hannounce => ⟨i, chain, hlookup, hchain, hannounced hannounce⟩
  · exact fun hrotation body hdecode => ⟨i, hlater.key (hrotated hrotation body hdecode), hlookup⟩
  · intro key j other hnone hkey hget
    rw [hkeys, AssocMap.lookup_insert, hnone] at hkey
    split at hkey
    · rename_i hsame
      cases hkey
      obtain rfl := Option.some.inj (hchain.symm.trans hget)
      exact hsame ▸ hrooted
    · cases hkey
  · exact fun _ => ⟨i, chain, hlookup, hchain, htime ▸ UInt64.le_refl _⟩
  · intro j other hget
    rcases hothers hget with hold | rfl
    · exact Or.inl ⟨other, hold, rfl⟩
    · obtain rfl := Option.some.inj (hchain.symm.trans hget)
      exact Or.inr ⟨hkind, hlookup, htime⟩

end Traced

/-- Every record but a tombstone keeps chains and log in step. -/
theorem Accepted.traced (hstep : Accepted S L record L') (hL : KeysIndexed L) (h : Traced L)
    (hlive : record.kind ≠ .tombstone) : Traced L' := by
  have hlater := hstep.later hL
  cases hstep with
  | announce body hfresh hkind =>
    have hchain : ((L.addChain S (.announced record body)).pushed S record).chains[
        L.chains.length]? = some (.announced record body) := by simp
    refine h.bound hL hlater rfl rfl hchain ?_ ?_ (fun _ => rfl) ?_
      (.announce (List.mem_append_right _ List.mem_cons_self) hkind) rfl
      (by simp [hkind, isActivity])
    · exact fun hget => (Positions.getElem?_concat.mp hget).imp id And.left
    · exact List.forall_mem_append.mpr ⟨h.alive, List.forall_mem_singleton.mpr rfl⟩
    · intro hrotation
      rw [hkind] at hrotation
      cases hrotation
  | liveness body chainId htip hkind =>
    exact h.renewed hL hlater (f := .refreshed record.createdMs) rfl rfl rfl (fun _ => rfl)
      (Or.inr ⟨fun _ => rfl, by simp [hkind, isActivity], htip.lookup⟩) (by simp [hkind])
      (by simp [hkind])
  | rotation body chainId htip hfresh hauthor hkind hdecode =>
    obtain ⟨old, hold, -⟩ := htip.exists_chain hL
    have hprev := (h.rooted htip.lookup hold).mono fun other hother =>
      List.mem_append_left [record] hother
    refine h.bound hL hlater rfl rfl (Positions.getElem?_modify.mpr (Or.inr ⟨rfl, old, hold, rfl⟩))
      ?_ (h.alive_modify fun _ => rfl) ?_ ?_
      (.rotation (List.mem_append_right _ List.mem_cons_self) hkind hdecode hprev) rfl
      (by simp [hkind, isActivity])
    · exact fun hget => (Positions.getElem?_modify.mp hget).imp And.right And.left
    · intro hannounce
      rw [hkind] at hannounce
      cases hannounce
    · intro _ other hother
      obtain rfl : body = other := Except.ok.inj (hdecode.symm.trans hother)
      exact htip.lookup
  | revoke body chainId htip hkind =>
    exact h.renewed hL hlater (f := .revokedAt record.createdMs) rfl rfl rfl (fun _ => rfl)
      (Or.inr ⟨fun _ => rfl, by simp [hkind, isActivity], htip.lookup⟩) (by simp [hkind])
      (by simp [hkind])
  | profile body chainId htip hkind =>
    exact h.renewed hL hlater (f := .profiled body record.createdMs) rfl rfl rfl (fun _ => rfl)
      (Or.inl ⟨fun _ => rfl, by simp [hkind, isActivity]⟩) (by simp [hkind]) (by simp [hkind])
  | serverRegister body hroot hnewer hkind | serverDelist body state hstate hnewer hkind =>
    exact h.unchanged hL hlater rfl rfl rfl (by simp [hkind, isActivity])
  | tombstone chain chainId nowMs hchain hlookup halive hdue hrecord =>
    exact absurd (hrecord ▸ rfl) hlive

/-- The ledger that was offered `records`, each with the clock at that time. -/
abbrev appended (S : Suite) (params : LedgerParams) (records : List (Record × UInt64)) : Ledger :=
  run S params (records.map fun entry => .append entry.1 entry.2)

theorem Traced.append (h : Traced L) (hL : KeysIndexed L) (record : Record) (nowMs : UInt64) :
    Traced (step S L (.append record nowMs)) := by
  rw [step]
  cases hcall : (Ledger.append S record nowMs).call L with
  | mk result L' =>
    cases result with
    | ok id =>
      have hkind := (checkEnvelope_ok (accept_of_append hcall).1).2.2.1
      exact (accepted_of_append hcall).traced hL h hkind
    | error e =>
      rw [eq_of_append_error hcall]
      exact h

theorem traced_appended (S : Suite) (params : LedgerParams) (records : List (Record × UInt64)) :
    Traced (appended S params records) := by
  induction records using List.reverseRecOn with
  | nil => exact .new params
  | append_singleton before entry ih =>
    rw [appended, List.map_append, List.map_singleton, run, Steps.exec_snoc]
    exact ih.append (keysIndexed_run S params _) entry.1 entry.2

theorem Traced.rooted_iff (h : Traced L) {key root : Key} :
    Rooted L.store key root ↔ L.HasChain key (·.rootIdk = root) := by
  constructor
  · intro hrooted
    induction hrooted with
    | announce hmem hkind => exact h.announced _ hmem hkind
    | rotation hmem hkind hdecode _ ih =>
      obtain ⟨i, hprev, hauthor⟩ := h.rotated _ hmem hkind _ hdecode
      obtain ⟨j, chain, hlookup, hchain, hroot⟩ := ih
      obtain rfl := Option.some.inj (hprev.symm.trans hlookup)
      exact ⟨i, chain, hauthor, hchain, hroot⟩
  · rintro ⟨i, chain, hlookup, hchain, rfl⟩
    exact h.rooted hlookup hchain

/-- A ledger with at least the records of another one knows its chains, each with an
activity that is no earlier. -/
theorem Traced.exists_chain (h : Traced L) (h' : Traced L')
    (hsub : ∀ record ∈ L.store, record ∈ L'.store) {chain : Chain} (hchain : chain ∈ L.chains) :
    ∃ chain' ∈ L'.chains, chain'.rootIdk = chain.rootIdk ∧
      chain.lastActivityMs ≤ chain'.lastActivityMs := by
  obtain ⟨i, hi⟩ := List.mem_iff_getElem?.mp hchain
  obtain ⟨record, hmem, hkind, hlookup, htime⟩ := h.attained hi
  obtain ⟨j, chain', hlookup', hchain', hroot⟩ :=
    h'.rooted_iff.mp ((h.rooted hlookup hi).mono hsub)
  have hle := (h'.latest record (hsub record hmem) hkind).of_lookup hlookup' hchain'
  exact ⟨chain', List.mem_of_getElem? hchain', hroot, htime ▸ hle⟩

end Dante.Ledger
