import Dante.Ledger.Reach

/-!
Who may speak for an identity. Every key of a chain stands in the log: the first
one in an announcement that it signed, each later one in a rotation that the key
before it endorsed and that it signed itself. The tip is the last of them, and
no key stands in two places.
-/

namespace Dante.Ledger

open Crypto Identity

variable {S : Suite} {L L' : Ledger} {record : Record}

/-- A key pair of a chain, and the position of the record that brought it. -/
structure Link where
  index : Nat
  idk : Key
  ik : Key

variable (S) in
/-- The keys of one chain in the order of the log. -/
inductive KeyHistory (store : List Record) : List Link → Prop where
  | announced {index : Nat} {record : Record} {body : IdentityAnnounce}
      (hrecord : store[index]? = some record) (hkind : record.kind = .identityAnnounce)
      (hdecode : IdentityAnnounce.decode record.body = .ok body)
      (hsig : Verifies S record.author record.signingBytes record.sig) :
      KeyHistory store [{ index, idk := record.author, ik := body.ikPub }]
  | rotated {links : List Link} {prev : Link} {index : Nat} {record : Record} {body : KeyRotation}
      (hlinks : KeyHistory store links) (hprev : links.getLast? = some prev)
      (hafter : prev.index < index) (hrecord : store[index]? = some record)
      (hkind : record.kind = .keyRotation) (hdecode : KeyRotation.decode record.body = .ok body)
      (hfrom : body.prevIdk = prev.idk)
      (hlink : Verifies S prev.idk
        (KeyRotation.linkChallenge S body.prevIdk body.newIdk body.newIk).toList body.linkSig)
      (hauthor : record.author = body.newIdk)
      (hsig : Verifies S record.author record.signingBytes record.sig) :
      KeyHistory store (links ++ [{ index, idk := body.newIdk, ik := body.newIk }])

namespace KeyHistory

theorem concat {store : List Record} {links : List Link} (h : KeyHistory S store links)
    (record : Record) : KeyHistory S (store ++ [record]) links := by
  induction h with
  | announced hrecord hkind hdecode hsig =>
    exact .announced (Positions.getElem?_concat_of_some hrecord) hkind hdecode hsig
  | rotated _ hprev hafter hrecord hkind hdecode hfrom hlink hauthor hsig ih =>
    exact .rotated ih hprev hafter (Positions.getElem?_concat_of_some hrecord) hkind hdecode hfrom
      hlink hauthor hsig

theorem index_lt {store : List Record} {links : List Link} (h : KeyHistory S store links) :
    ∀ link ∈ links, link.index < store.length := by
  induction h with
  | announced hrecord =>
    simpa using (List.getElem?_eq_some_iff.mp hrecord).1
  | rotated _ _ _ hrecord _ _ _ _ _ _ ih =>
    have hlast := (List.getElem?_eq_some_iff.mp hrecord).1
    simp only [List.mem_append, List.mem_singleton]
    rintro link (hold | rfl)
    · exact ih link hold
    · exact hlast

/-- The first key is the author of an announcement. -/
theorem exists_announce {store : List Record} {links : List Link} (h : KeyHistory S store links) :
    ∃ root record, links.head? = some root ∧ store[root.index]? = some record ∧
      record.kind = .identityAnnounce ∧ record.author = root.idk := by
  induction h with
  | announced hrecord hkind => exact ⟨_, _, rfl, hrecord, hkind, rfl⟩
  | rotated _ _ _ _ _ _ _ _ _ _ ih =>
    obtain ⟨root, record, hroot, hrest⟩ := ih
    exact ⟨root, record, by simp [hroot], hrest⟩

end KeyHistory

def bringsKey (record : Record) : Bool :=
  record.kind = .identityAnnounce ∨ record.kind = .keyRotation

def Chain.keys (chain : Chain) : Key × Key × Key := (chain.rootIdk, chain.tipIdk, chain.tipIk)

/-- The keys of the chain `chain` are `links`. -/
structure ChainKeys (S : Suite) (L : Ledger) (chain : Chain) (links : List Link) : Prop where
  history : KeyHistory S L.store links
  root : links.head?.map Link.idk = some chain.rootIdk
  tip : links.getLast?.map (fun link => (link.idk, link.ik)) = some (chain.tipIdk, chain.tipIk)

/-- `keysOf i` are the keys of the chain `i`. -/
structure Histories (S : Suite) (L : Ledger) (keysOf : Nat → List Link) : Prop where
  chain : ∀ {i : Nat} {chain : Chain}, L.chains[i]? = some chain → ChainKeys S L chain (keysOf i)
  key : ∀ {i : Nat} {link : Link}, link ∈ keysOf i → L.idkToChain.lookup link.idk = some i
  distinct : ∀ i, ((keysOf i).map Link.idk).Nodup
  complete : ∀ {index : Nat} {record : Record}, L.store[index]? = some record →
    bringsKey record = true → ∃ i, ∃ link ∈ keysOf i, link.index = index ∧ link.idk = record.author

namespace Histories

variable {keysOf : Nat → List Link}

theorem not_mem_of_fresh (h : Histories S L keysOf) {idk : Key}
    (hfresh : L.idkToChain.lookup idk = none) {i : Nat} {link : Link} (hlink : link ∈ keysOf i) :
    link.idk ≠ idk := by
  intro hsame
  have hlookup := h.key hlink
  rw [hsame, hfresh] at hlookup
  cases hlookup

theorem eq_nil (h : Histories S L keysOf) (hL : KeysIndexed L) : keysOf L.chains.length = [] := by
  apply List.eq_nil_iff_forall_not_mem.mpr
  intro link hlink
  exact Nat.lt_irrefl _ (hL.bound (h.key hlink))

theorem unchanged (h : Histories S L keysOf) (hstore : L'.store = L.store ++ [record])
    (hkind : bringsKey record = false) (hidk : L'.idkToChain = L.idkToChain)
    (hchains : L'.chains.map Chain.keys = L.chains.map Chain.keys) : Histories S L' keysOf where
  chain {i chain'} hchain' := by
    have hview : (L.chains.map Chain.keys)[i]? = some chain'.keys := by
      rw [← hchains, List.getElem?_map, hchain', Option.map_some]
    rw [List.getElem?_map, Option.map_eq_some_iff] at hview
    obtain ⟨chain, hchain, hsame⟩ := hview
    simp only [Chain.keys, Prod.mk.injEq] at hsame
    have hkeys := h.chain hchain
    refine ⟨?_, ?_, ?_⟩
    · rw [hstore]
      exact hkeys.history.concat record
    · rw [← hsame.1]
      exact hkeys.root
    · rw [← hsame.2.1, ← hsame.2.2]
      exact hkeys.tip
  key hlink := by
    rw [hidk]
    exact h.key hlink
  distinct := h.distinct
  complete hrecord hbrings := by
    rw [hstore] at hrecord
    rcases Positions.getElem?_concat.mp hrecord with hold | ⟨-, rfl⟩
    · exact h.complete hold hbrings
    · rw [hkind] at hbrings
      cases hbrings

theorem mem_update {i j : Nat} {link found : Link} :
    found ∈ Function.update keysOf i (keysOf i ++ [link]) j ↔
      found ∈ keysOf j ∨ j = i ∧ found = link := by
  by_cases hj : j = i
  · subst hj
    simp
  · simp [hj]

theorem addKey (h : Histories S L keysOf) (hstore : L'.store = L.store ++ [record]) (i : Nat)
    (link : Link) (hindex : link.index = L.store.length) (hlink : link.idk = record.author)
    (hfresh : L.idkToChain.lookup record.author = none)
    (hidk : L'.idkToChain = L.idkToChain.insert record.author i)
    (hother : ∀ j chain', j ≠ i → L'.chains[j]? = some chain' → L.chains[j]? = some chain')
    (hchain : ∀ chain', L'.chains[i]? = some chain' → ChainKeys S L' chain' (keysOf i ++ [link])) :
    Histories S L' (Function.update keysOf i (keysOf i ++ [link])) where
  chain {j chain'} hchain' := by
    by_cases hj : j = i
    · subst hj
      rw [Function.update_self]
      exact hchain chain' hchain'
    · rw [Function.update_of_ne hj]
      have hkeys := h.chain (hother j chain' hj hchain')
      exact ⟨hstore ▸ hkeys.history.concat record, hkeys.root, hkeys.tip⟩
  key {j found} hfound := by
    rw [hidk]
    rcases mem_update.mp hfound with hold | ⟨rfl, rfl⟩
    · exact AssocMap.lookup_insert_of_none _ hfresh (h.key hold)
    · rw [hlink]
      exact AList.lookup_insert _
  distinct j := by
    by_cases hj : j = i
    · subst hj
      rw [Function.update_self, List.map_append, List.nodup_append]
      refine ⟨h.distinct j, List.nodup_singleton _, ?_⟩
      rintro _ hold _ hlast rfl
      obtain ⟨found, hfound, hsame⟩ := List.mem_map.mp hold
      rw [List.map_singleton, List.mem_singleton, hlink] at hlast
      exact h.not_mem_of_fresh hfresh hfound (hsame.trans hlast)
    · rw [Function.update_of_ne hj]
      exact h.distinct j
  complete {index found} hrecord hbrings := by
    rw [hstore] at hrecord
    rcases Positions.getElem?_concat.mp hrecord with hold | ⟨rfl, rfl⟩
    · obtain ⟨j, old, hmem, hrest⟩ := h.complete hold hbrings
      exact ⟨j, old, mem_update.mpr (Or.inl hmem), hrest⟩
    · exact ⟨i, link, mem_update.mpr (Or.inr ⟨rfl, rfl⟩), hindex, hlink⟩

end Histories

theorem Accepted.histories (hstep : Accepted S L record L') (hL : KeysIndexed L)
    (h : ∃ keysOf, Histories S L keysOf) : ∃ keysOf, Histories S L' keysOf := by
  obtain ⟨keysOf, h⟩ := h
  have hstore := hstep.log.1
  cases hstep with
  | announce body hfresh hkind hdecode hsig =>
    have hnil := h.eq_nil hL
    refine ⟨_, h.addKey hstore L.chains.length
      { index := L.store.length, idk := record.author, ik := body.ikPub }
      rfl rfl hfresh rfl ?_ ?_⟩
    · intro j chain' hj hchain'
      rcases Positions.getElem?_concat.mp hchain' with hold | ⟨hlast, -⟩
      · exact hold
      · exact absurd hlast hj
    · intro chain' hchain'
      rcases Positions.getElem?_concat.mp hchain' with hold | ⟨-, rfl⟩
      · exact absurd (List.getElem?_eq_some_iff.mp hold).1 (Nat.lt_irrefl _)
      · rw [hnil]
        refine ⟨.announced ?_ hkind hdecode (Record.verifies_of_verifySignature hsig), rfl, rfl⟩
        exact Positions.getElem?_concat.mpr (Or.inr ⟨rfl, rfl⟩)
  | rotation body chainId htip hfresh hauthor hkind hdecode hsig hverify =>
    obtain ⟨old, hold, -, hprev, -⟩ := htip.exists_chain hL
    have hkeys := h.chain hold
    refine ⟨_, h.addKey hstore chainId
      { index := L.store.length, idk := body.newIdk, ik := body.newIk }
      rfl hauthor hfresh rfl ?_ ?_⟩
    · intro j chain' hj hchain'
      rcases Positions.getElem?_modify.mp hchain' with ⟨-, hkept⟩ | ⟨hsame, -⟩
      · exact hkept
      · exact absurd hsame hj
    · intro chain' hchain'
      rcases Positions.getElem?_modify.mp hchain' with ⟨hne, -⟩ | ⟨-, found, hfound, rfl⟩
      · exact absurd rfl hne
      · rw [hold] at hfound
        cases hfound
        -- the last key of the history is the tip that the body names
        obtain ⟨last, hlast, htipKeys⟩ := Option.map_eq_some_iff.mp hkeys.tip
        have hlastKey : last.idk = body.prevIdk := (congrArg Prod.fst htipKeys).trans hprev
        refine ⟨.rotated (hkeys.history.concat record) hlast ?_ ?_ hkind hdecode hlastKey.symm ?_
          hauthor.symm (Record.verifies_of_verifySignature hsig), ?_, ?_⟩
        · exact hkeys.history.index_lt last (List.mem_of_getLast? hlast)
        · exact Positions.getElem?_concat.mpr (Or.inr ⟨rfl, rfl⟩)
        · rw [hlastKey]
          exact KeyRotation.link_of_verify hverify
        · obtain ⟨root, hroot, hrootKey⟩ := Option.map_eq_some_iff.mp hkeys.root
          simp [hroot, hrootKey]
        · simp
  | liveness body chainId htip hkind | revoke body chainId htip hkind
  | profile body chainId htip hkind =>
    exact ⟨keysOf, h.unchanged hstore (by simp [bringsKey, hkind]) rfl
      (Positions.map_modify _ _ fun _ => rfl)⟩
  | serverRegister body hroot hnewer hkind | serverDelist body state hstate hnewer hkind =>
    exact ⟨keysOf, h.unchanged hstore (by simp [bringsKey, hkind]) rfl rfl⟩
  | tombstone chain chainId nowMs hchain hlookup halive hdue hrecord =>
    exact ⟨keysOf, h.unchanged hstore (by simp [bringsKey, hrecord, Tombstone.toRecord]) rfl
      (Positions.map_modify _ _ fun _ => rfl)⟩

theorem histories_run (S : Suite) (params : LedgerParams) (ops : List Op) :
    ∃ keysOf, Histories S (run S params ops) keysOf :=
  run_induction (fun L => ∃ keysOf, Histories S L keysOf) params ops
    ⟨fun _ => [], by simp [Ledger.new], by simp, by simp, by simp [Ledger.new]⟩
    fun hstep hL h => hstep.histories hL h

namespace Histories

variable {keysOf : Nat → List Link}

/-- A signing key stands in one place only. -/
theorem position_unique (h : Histories S L keysOf) {i j a b : Nat} {link link' : Link}
    (hlink : (keysOf i)[a]? = some link) (hlink' : (keysOf j)[b]? = some link')
    (hsame : link.idk = link'.idk) : i = j ∧ a = b := by
  have hkey := h.key (List.mem_of_getElem? hlink)
  have hkey' := h.key (List.mem_of_getElem? hlink')
  rw [hsame, hkey'] at hkey
  cases hkey
  refine ⟨rfl, ?_⟩
  have hpos : ((keysOf i).map Link.idk)[a]? = some link.idk := by
    rw [List.getElem?_map, hlink, Option.map_some]
  have hpos' : ((keysOf i).map Link.idk)[b]? = some link.idk := by
    rw [List.getElem?_map, hlink', Option.map_some, hsame]
  obtain ⟨ha, hga⟩ := List.getElem?_eq_some_iff.mp hpos
  obtain ⟨hb, hgb⟩ := List.getElem?_eq_some_iff.mp hpos'
  exact (h.distinct i).getElem_inj_iff.mp (hga.trans hgb.symm)

/-- The link of a record that brings a key is determined by its author. -/
theorem index_unique (h : Histories S L keysOf) {index index' : Nat} {record record' : Record}
    (hrecord : L.store[index]? = some record) (hbrings : bringsKey record = true)
    (hrecord' : L.store[index']? = some record') (hbrings' : bringsKey record' = true)
    (hauthor : record.author = record'.author) : index = index' := by
  obtain ⟨i, link, hlink, rfl, hidk⟩ := h.complete hrecord hbrings
  obtain ⟨j, link', hlink', rfl, hidk'⟩ := h.complete hrecord' hbrings'
  obtain ⟨a, ha⟩ := List.mem_iff_getElem?.mp hlink
  obtain ⟨b, hb⟩ := List.mem_iff_getElem?.mp hlink'
  obtain ⟨rfl, rfl⟩ := h.position_unique ha hb (by rw [hidk, hidk', hauthor])
  rw [ha] at hb
  cases hb
  rfl

/-- A chain's first key signed exactly one announcement. -/
theorem existsUnique_announce (h : Histories S L keysOf) {i : Nat} {chain : Chain}
    (hchain : L.chains[i]? = some chain) :
    ∃! index : Nat, ∃ record : Record, L.store[index]? = some record ∧
      record.kind = .identityAnnounce ∧ record.author = chain.rootIdk := by
  have hkeys := h.chain hchain
  obtain ⟨root, record, hroot, hrecord, hkind, hauthor⟩ := hkeys.history.exists_announce
  have hfirst : root.idk = chain.rootIdk := by
    have hhead := hkeys.root
    rw [hroot] at hhead
    exact Option.some.inj hhead
  refine ⟨root.index, ⟨record, hrecord, hkind, hauthor.trans hfirst⟩, ?_⟩
  rintro index ⟨record', hrecord', hkind', hauthor'⟩
  exact h.index_unique hrecord' (by simp [bringsKey, hkind']) hrecord (by simp [bringsKey, hkind])
    (hauthor'.trans (hauthor.trans hfirst).symm)

end Histories

/-- In every state that calls of `append` and `evaporate` reach, the tip of each chain
is led back to its first key by records of the log, each signed by its new key and
endorsed by the key before it; and no signing key stands in two places. -/
theorem keyChain_run (S : Suite) (params : LedgerParams) (ops : List Op) :
    ∃ keysOf : Nat → List Link,
      (∀ (i : Nat) (chain : Chain), (run S params ops).chains[i]? = some chain →
        KeyHistory S (run S params ops).store (keysOf i) ∧
        (keysOf i).head?.map Link.idk = some chain.rootIdk ∧
        (keysOf i).getLast?.map (fun link => (link.idk, link.ik)) =
          some (chain.tipIdk, chain.tipIk) ∧
        ∃! index : Nat, ∃ record : Record, (run S params ops).store[index]? = some record ∧
          record.kind = .identityAnnounce ∧ record.author = chain.rootIdk) ∧
      (∀ (i j a b : Nat) (link link' : Link), (keysOf i)[a]? = some link →
        (keysOf j)[b]? = some link' → link.idk = link'.idk → i = j ∧ a = b) ∧
      ∀ (index : Nat) (record : Record), (run S params ops).store[index]? = some record →
        bringsKey record = true → ∃ i, ∃ link ∈ keysOf i, link.index = index ∧ link.idk = record.author := by
  obtain ⟨keysOf, h⟩ := histories_run S params ops
  refine ⟨keysOf, fun i chain hchain => ?_, ?_, fun _ _ => h.complete⟩
  · have hkeys := h.chain hchain
    exact ⟨hkeys.history, hkeys.root, hkeys.tip, h.existsUnique_announce hchain⟩
  · intro i j a b link link' hlink hlink' hsame
    exact h.position_unique hlink hlink' hsame

end Dante.Ledger
