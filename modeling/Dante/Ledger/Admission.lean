import Dante.Ledger.Resolution

/-!
Which records `append` takes. A record passes the checks of the envelope and those of its
kind, or nothing happens. The checks of an announcement and of a liveness proof are
opened here completely, so that acceptance becomes an equivalence.
-/

namespace Dante.Ledger

open Crypto Identity Method Except Enc

variable {S : Suite} {L L' : Ledger} {record : Record} {nowMs : UInt64}

def Takes (S : Suite) (L : Ledger) (record : Record) (nowMs : UInt64) : Prop :=
  ∃ id L', (append S record nowMs).call L = (.ok id, L')

theorem call_append_ok (henvelope : checkEnvelope S record nowMs = .ok ())
    (haccept : accept S L record = .ok L') :
    (append S record nowMs).call L = (.ok (record.id S), L') := by
  have hall : (checkEnvelope S record nowMs >>= fun _ => accept S L record) = .ok L' :=
    bind_eq_ok.mpr ⟨(), henvelope, haccept⟩
  rw [call_append, hall]

theorem takes_iff (henvelope : checkEnvelope S record nowMs = .ok ()) :
    Takes S L record nowMs ↔ ∃ L', accept S L record = .ok L' := by
  constructor
  · rintro ⟨id, L', hcall⟩
    exact ⟨L', (accept_of_append hcall).2⟩
  · rintro ⟨L', haccept⟩
    exact ⟨record.id S, L', call_append_ok henvelope haccept⟩

/-- A refused record of any kind leaves the whole ledger as it was, and is refused again for
the same reason. -/
theorem refused_again (S : Suite) (L L' : Ledger) (record : Record) (nowMs : UInt64)
    (e : LedgerError) (hrefused : (append S record nowMs).call L = (.error e, L')) :
    L' = L ∧ (append S record nowMs).call L' = (.error e, L') := by
  obtain rfl := eq_of_append_error hrefused
  exact ⟨rfl, hrefused⟩

/-- An announcement of a key that is already there. -/
theorem refused_again_announced :
    let L := run sampleSuite sampleParams [.append (sampleAnnounce (sampleKey 1) 1000) 1000]
    let after := ((append sampleSuite (sampleAnnounce (sampleKey 1) 2000) 2000).call L).2
    after = L ∧ (append sampleSuite (sampleAnnounce (sampleKey 1) 2000) 2000).call after =
      (.error .alreadyAnnounced, after) := by
  intro L after
  exact refused_again sampleSuite L after (sampleAnnounce (sampleKey 1) 2000) 2000
    .alreadyAnnounced (call_eq_of_fst (by decide +kernel))

/-- Everything that an announcement shows on its own: version, time, signature, and the
puzzle at the floors of the ledger. -/
structure ValidAnnounce (S : Suite) (L : Ledger) (record : Record) (nowMs : UInt64) : Prop where
  envelope : checkEnvelope S record nowMs = .ok ()
  kind : record.kind = .identityAnnounce
  verified : ∃ body key, IdentityAnnounce.decode record.body = .ok body ∧
    authorKey S record = .ok key ∧
    body.verify S key L.params.minAnnouncePowBits L.params.minPowMCostKib
      L.params.minPowTCost = .ok ()

theorem ValidAnnounce.validKey (hvalid : ValidAnnounce S L record nowMs) :
    S.validKey record.author = true :=
  (Record.verifies_of_verifySignature (checkEnvelope_ok hvalid.envelope).2.2.2).1

/-- Only the key index stands in the way of a valid announcement. -/
theorem ValidAnnounce.accept_eq_ok (hvalid : ValidAnnounce S L record nowMs) :
    accept S L record = .ok L' ↔
      L.idkToChain.lookup record.author = none ∧
        ∃ body, L' = (L.addChain S (.announced record body)).pushed S record ∧
          IdentityAnnounce.decode record.body = .ok body := by
  obtain ⟨body, key, hdecode, hkey, hverify⟩ := hvalid.verified
  have hcheck : ∀ found, checkAnnounce S L record = .ok found ↔
      L.idkToChain.lookup record.author = none ∧ body = found := by
    intro found
    have hbody : (IdentityRecord.fromRecord record).mapError LedgerError.body =
        .ok (.announce body) := by
      simp [IdentityRecord.fromRecord, hvalid.kind, hdecode]
    rw [checkAnnounce, hbody]
    simp [hkey, hverify, bind_eq_ok]
  simp only [accept, hvalid.kind, bind_eq_ok, hcheck, pure_eq_ok]
  constructor
  · rintro ⟨_, ⟨hfresh, rfl⟩, rfl⟩
    exact ⟨hfresh, body, rfl, hdecode⟩
  · rintro ⟨hfresh, found, rfl, hfound⟩
    obtain rfl : found = body := Except.ok.inj (hfound.symm.trans hdecode)
    exact ⟨found, ⟨hfresh, rfl⟩, rfl⟩

/-- The announcement is taken, and then the key is live under the id of a chain that starts
with it. -/
def Returns (S : Suite) (L : Ledger) (record : Record) (nowMs : UInt64) : Prop :=
  ∃ id L', (append S record nowMs).call L = (.ok id, L') ∧ L'.isLive record.author = true ∧
    L'.identityId S record.author = some (S.sha256 record.author.toList)

theorem chainOf_addChain {body : IdentityAnnounce} :
    ((L.addChain S (.announced record body)).pushed S record).chainOf record.author =
      some (.announced record body) := by
  have hlookup : ((L.addChain S (.announced record body)).pushed S record).idkToChain.lookup
      record.author = some L.chains.length := AList.lookup_insert _
  rw [chainOf, hlookup]
  simp

theorem chainOf_eq_none_iff {idk : Key} :
    L.chainOf idk = none ↔ L.idkToChain.lookup idk = none := by
  simp [chainOf]

theorem ValidAnnounce.returns_iff (hvalid : ValidAnnounce S L record nowMs) :
    Returns S L record nowMs ↔ L.chainOf record.author = none := by
  rw [chainOf_eq_none_iff]
  constructor
  · rintro ⟨id, L', hcall, -⟩
    exact (hvalid.accept_eq_ok.mp (accept_of_append hcall).2).1
  · intro hfresh
    obtain ⟨body, key, hdecode, -⟩ := hvalid.verified
    have haccept := hvalid.accept_eq_ok.mpr ⟨hfresh, body, rfl, hdecode⟩
    refine ⟨_, _, call_append_ok hvalid.envelope haccept, ?_, ?_⟩
    · simp [isLive, chainOf_addChain, Chain.usable]
    · simp [identityId, chainOf_addChain, hvalid.validKey]

/-- In every reachable ledger, a valid announcement brings its key to life exactly if no chain
knows the key. A chain that starts with the key, evaporated or not, shuts it out for ever. -/
theorem announce_returns_iff (S : Suite) (params : LedgerParams) (ops : List Op) (record : Record)
    (nowMs : UInt64) (hvalid : ValidAnnounce S (run S params ops) record nowMs) :
    (Returns S (run S params ops) record nowMs ↔
        (run S params ops).chainOf record.author = none) ∧
      ∀ chain ∈ (run S params ops).chains, chain.rootIdk = record.author →
        (run S params ops).identityId S record.author =
            some (S.sha256 record.author.toList) ∧
          ¬ Returns S (run S params ops) record nowMs := by
  refine ⟨hvalid.returns_iff, ?_⟩
  intro chain hmem hroot
  have hL := keysIndexed_run S params ops
  obtain ⟨i, hi, hget⟩ := List.getElem_of_mem hmem
  have hchain : (run S params ops).chains[i]? = some chain := hget ▸ List.getElem?_eq_getElem hi
  have hknown : (run S params ops).chainOf record.author = some chain :=
    hL.chainOf_eq_some.mpr ⟨i, hroot ▸ hL.root hchain, hchain⟩
  refine ⟨?_, ?_⟩
  · simp [identityId, hknown, hroot, hvalid.validKey]
  · rw [hvalid.returns_iff, hknown]
    exact Option.some_ne_none chain

/-- An announcement into the empty ledger. -/
theorem announce_returns_first :
    Returns sampleSuite (run sampleSuite sampleParams []) (sampleAnnounce (sampleKey 1) 1000) 1000 :=
  (announce_returns_iff sampleSuite sampleParams [] (sampleAnnounce (sampleKey 1) 1000) 1000
    ⟨by decide +kernel, rfl,
      ⟨sampleKey 1, sampleSign (sampleKey 1) (sampleKey 1).toList, samplePow, ""⟩,
      ⟨sampleKey 1, rfl⟩, by decide +kernel, rfl, by decide +kernel⟩).1.mpr rfl

/-- An identity that was silent for longer than the time to live is evaporated. Its fresh
announcement, which an empty ledger takes, is refused. -/
theorem evaporated_stays_out :
    let L := run sampleSuite sampleParams
      [.append (sampleAnnounce (sampleKey 1) 1000) 1000, .evaporate 20000]
    L.chains.map (fun chain => (chain.rootIdk, chain.tombstoned, chain.revoked)) =
        [(sampleKey 1, true, false)] ∧
      ((append sampleSuite (sampleAnnounce (sampleKey 1) 20000) 20000).call
        (new sampleParams)).1.isOk = true ∧
      ((append sampleSuite (sampleAnnounce (sampleKey 1) 20000) 20000).call L).1 =
        .error .alreadyAnnounced := by
  decide +kernel

/-- A liveness proof as its author builds it: solved for its own time at the difficulty of the
protocol, and signed. -/
structure HonestLiveness (S : Suite) (record : Record) : Prop where
  version : record.v = recordVersion
  kind : record.kind = .livenessProof
  body : ∃ pow, record.body = LivenessProof.encode { pow } ∧
    Pow.Solved S (LivenessProof.challenge S record.author record.createdMs) Pow.liveness pow
  signature : record.verifySignature S = .ok ()

theorem checkEnvelope_eq_ok :
    checkEnvelope S record nowMs = .ok () ↔
      record.v = recordVersion ∧ record.createdMs ≤ saturatingAdd nowMs clockSkewMs ∧
        record.kind ≠ .tombstone ∧ record.verifySignature S = .ok () := by
  constructor
  · exact checkEnvelope_ok
  · rintro ⟨hversion, htime, hkind, hsig⟩
    simp [checkEnvelope, bind_eq_ok, hversion, UInt64.not_lt.mpr htime, hkind, hsig]

theorem decode_encode_liveness (body : LivenessProof) :
    LivenessProof.decode body.encode = .ok body := by
  have hread : Parser.Reads LivenessProof.read body.encode body := by
    have hlast : Parser.Reads LivenessProof.read (Pow.write body.pow ++ []) body :=
      (Pow.reads_write body.pow).bind (Parser.Reads.pure body)
    rwa [List.append_nil] at hlast
  rw [LivenessProof.decode, mapError_eq_ok, Reader.decodeAll_eq_ok]
  simpa using hread []

/-- The tip of a live chain may go on with it at any later time. -/
theorem tipChain_eq_ok {key : Key} {createdMs : UInt64} (hlive : L.tipKey key = some key)
    (hnewer : ∀ t, L.lastActivity key = some t → t < createdMs) :
    ∃ chainId, L.tipChain key createdMs Chain.lastActivityMs = .ok chainId := by
  cases hlookup : L.idkToChain.lookup key with
  | none => simp [tipKey, chainOf, hlookup] at hlive
  | some chainId =>
    have hchain : L.chainOf key = some L.chains[chainId]! := by rw [chainOf, hlookup]; rfl
    have hlate := hnewer _ (congrArg (Option.map Chain.lastActivityMs) hchain)
    simp only [tipKey, hchain, Option.bind_eq_bind, Option.bind_some, Option.ite_none_right_eq_some,
      Option.some.injEq, Chain.usable, Bool.and_eq_true, Bool.not_eq_true'] at hlive
    obtain ⟨⟨htombstoned, hrevoked⟩, htip⟩ := hlive
    refine ⟨chainId, ?_⟩
    simp only [tipChain, bind_eq_ok, okOr_eq_ok, refuseIf_eq_ok, pure_eq_ok]
    exact ⟨chainId, hlookup, (), by rw [htombstoned]; exact Bool.false_ne_true, (),
      by rw [hrevoked]; exact Bool.false_ne_true, (), not_not.mpr htip.symm, (),
      UInt64.not_le.mpr hlate, rfl⟩

/-- Whether a ledger takes the liveness proof of a live identity depends on its floors
alone. -/
theorem liveness_taken_iff (S : Suite) (L : Ledger) (record : Record) (nowMs : UInt64)
    (hlive : L.tipKey record.author = some record.author)
    (hnewer : ∀ t, L.lastActivity record.author = some t → t < record.createdMs)
    (hskew : record.createdMs ≤ saturatingAdd nowMs clockSkewMs)
    (hhonest : HonestLiveness S record) :
    Takes S L record nowMs ↔
      L.params.minLivenessPowBits ≤ Pow.liveness.bits ∧
        L.params.minPowMCostKib ≤ Pow.liveness.mCostKib ∧
        L.params.minPowTCost ≤ Pow.liveness.tCost := by
  have henvelope : checkEnvelope S record nowMs = .ok () :=
    checkEnvelope_eq_ok.mpr ⟨hhonest.version, hskew, by simp [hhonest.kind], hhonest.signature⟩
  obtain ⟨pow, hbody, hsolved⟩ := hhonest.body
  obtain ⟨chainId, htip⟩ := tipChain_eq_ok hlive hnewer
  have hkey : authorKey S record = .ok ⟨record.author,
      (Record.verifies_of_verifySignature hhonest.signature).1⟩ := by
    rw [authorKey, mapError_eq_ok, SignPublic.fromBytes_eq_ok]
  have hdecode : (IdentityRecord.fromRecord record).mapError LedgerError.body =
      .ok (.liveness { pow }) := by
    simp [IdentityRecord.fromRecord, hhonest.kind, hbody, decode_encode_liveness]
  have hverify := Pow.verify_of_solved hsolved L.params.minLivenessPowBits
    L.params.minPowMCostKib L.params.minPowTCost
  rw [takes_iff henvelope]
  have hcheck : ∀ found, checkLiveness S L record = .ok found ↔
      Pow.verify S (LivenessProof.challenge S record.author record.createdMs) pow
        L.params.minLivenessPowBits L.params.minPowMCostKib L.params.minPowTCost = .ok () ∧
        chainId = found := by
    intro found
    rw [checkLiveness, hdecode]
    simp only [htip, hkey, LivenessProof.verify, bind_eq_ok]
    constructor
    · rintro ⟨_, ⟨rfl⟩, hrest⟩
      simp only [bind_eq_ok, mapError_eq_ok, pure_eq_ok] at hrest
      obtain ⟨_, ⟨rfl⟩, _, ⟨rfl⟩, _, hverify, hfound⟩ := hrest
      exact ⟨hverify, hfound⟩
    · rintro ⟨hverify, rfl⟩
      simp [bind_eq_ok, hverify]
  simp only [accept, hhonest.kind, bind_eq_ok, hcheck, hverify, pure_eq_ok]
  constructor
  · rintro ⟨L', _, ⟨⟨hfloors, -⟩, -⟩, -⟩
    exact hfloors
  · intro hfloors
    exact ⟨_, chainId, ⟨⟨hfloors, by decide, by decide⟩, rfl⟩, rfl⟩

def sampleLiveness (idk : Key) (createdMs : UInt64) : Record :=
  sampleRecord .livenessProof (LivenessProof.encode { pow := {
    mCostKib := Pow.liveness.mCostKib, tCost := Pow.liveness.tCost,
    difficulty := Pow.liveness.bits, nonce := .fill 16 0 } }) idk createdMs

/-- A ledger with lower floors takes the proof. -/
theorem liveness_taken_low_floors :
    Takes sampleSuite (run sampleSuite sampleParams
      [.append (sampleAnnounce (sampleKey 1) 1000) 1000]) (sampleLiveness (sampleKey 1) 2000) 2000 :=
  (liveness_taken_iff sampleSuite _ (sampleLiveness (sampleKey 1) 2000) 2000 (by decide +kernel)
    (by
      have hlast : (run sampleSuite sampleParams
          [.append (sampleAnnounce (sampleKey 1) 1000) 1000]).lastActivity (sampleKey 1) =
            some 1000 := by decide +kernel
      intro t ht
      obtain rfl := Option.some.inj (hlast.symm.trans ht)
      decide)
    (by decide +kernel)
    ⟨rfl, rfl, ⟨_, rfl, .fill 16 0, by decide +kernel⟩, by decide +kernel⟩).mpr
    (by decide +kernel)

/-- Under the default parameters an identity is announced at the registration puzzle; its
liveness proof at the difficulty of the protocol is refused, since the memory floor of every
puzzle is that of the registration. -/
theorem default_floors_refuse_liveness :
    let announce := sampleRecord .identityAnnounce (IdentityAnnounce.encode {
      ikPub := sampleKey 1, ikSig := sampleSign (sampleKey 1) (sampleKey 1).toList
      pow := { mCostKib := Pow.registration.mCostKib, tCost := Pow.registration.tCost,
               difficulty := Pow.registration.bits, nonce := .fill 16 0 }
      displayHint := "" }) (sampleKey 1) 1000
    let L := run sampleSuite default [.append announce 1000]
    L.tipKey (sampleKey 1) = some (sampleKey 1) ∧ L.lastActivity (sampleKey 1) = some 1000 ∧
      ((append sampleSuite (sampleLiveness (sampleKey 1) 2000) 2000).call L).1 =
        .error (.body .badPow) := by
  decide +kernel

end Dante.Ledger
