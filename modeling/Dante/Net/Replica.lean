import Dante.Ledger.BodySize
import Dante.Net.Sync

/-!
What a replica becomes by a sync. Against a relay that answers every request, the loop offers the
relay's whole log to the local ledger in order. It is the relay's own ledger exactly when the relay
has written no tombstone: a replica refuses those.
-/

namespace Dante.Net

open Crypto Ledger Method

variable {S : Suite} {L : Ledger} {nowMs : UInt64}

section Batches

variable {σ : Type} {apply : Record → UInt64 → σ → Bool × σ}
variable {request : Request → Except NetError Response}

def serve (S : Suite) (L : Ledger) (request : Request) : Except NetError Response :=
  .ok (handle S L true request)

theorem serve_getRecords {fromIdx toIdx : Nat} (hto : toIdx ≤ L.store.length)
    (hbatch : toIdx ≤ fromIdx + maxGetRecords) (hfrom : fromIdx ≤ toIdx) :
    serve S L (.getRecords fromIdx toIdx) =
      .ok (.records (((L.store.drop fromIdx).take (toIdx - fromIdx)).map Record.encode)) := by
  have hstart : min fromIdx L.len = fromIdx := Nat.min_eq_left (hfrom.trans hto)
  have hstop : min (min toIdx L.len) (fromIdx + maxGetRecords) = toIdx := by
    unfold Ledger.len
    rw [Nat.min_eq_left hto, Nat.min_eq_left hbatch]
  simp only [serve, handle, Bool.not_true, Bool.false_eq_true, if_false, hstart, hstop]
  rw [← Positions.filterMap_range']
  rfl

/-- Records that survive the wire are offered as they are. -/
theorem call_applyBlobs (records : List Record)
    (hdecodes : ∀ record ∈ records, Record.decode record.encode = .ok record) (accepted : Nat)
    (s : σ) :
    (applyBlobs apply nowMs accepted (records.map Record.encode)).call s =
      (.ok (records.foldl (applyRecord apply nowMs) (accepted, s)).1,
        (records.foldl (applyRecord apply nowMs) (accepted, s)).2) := by
  have hfold : (records.map Record.encode).foldl (applyBlob apply nowMs) (accepted, s) =
      records.foldl (applyRecord apply nowMs) (accepted, s) := by
    rw [List.foldl_map]
    apply List.foldl_ext
    intro state record hmem
    rw [applyBlob, hdecodes record hmem]
  rw [← hfold]
  rfl

theorem call_pullLoop_round {batch : Nat} {hbatch : 0 < batch} {size fromIdx accepted : Nat}
    {blobs : List Bytes} {s : σ} (hmore : fromIdx < size)
    (hrequest : request (.getRecords fromIdx (min (fromIdx + batch) size)) = .ok (.records blobs))
    (hblobs : blobs ≠ []) :
    (pullLoop request apply nowMs batch hbatch size fromIdx accepted).call s =
      (do
        let accepted ← applyBlobs apply nowMs accepted blobs
        pullLoop request apply nowMs batch hbatch size (min (fromIdx + batch) size)
          accepted).call s := by
  have hnonempty : ¬ blobs.isEmpty = true := by simpa using hblobs
  rw [pullLoop, if_pos hmore]
  dsimp only
  rw [hrequest, call_bind_ok (call_lift _ s)]
  dsimp only
  rw [if_neg hnonempty]

/-- An answer that ends the pull. -/
def Refuses (answer : Except NetError Response) : Prop :=
  (∃ e, answer = .error e) ∨ ∃ message, answer = .ok (.error message)

theorem serve_not_refuses (S : Suite) (L : Ledger) (request : Request) :
    ¬ Refuses (serve S L request) := by
  cases request <;> simp [Refuses, serve, handle]

theorem call_pullLoop_refused {batch : Nat} {hbatch : 0 < batch} {size fromIdx accepted : Nat}
    {s : σ} (hmore : fromIdx < size)
    (hrefuses : Refuses (request (.getRecords fromIdx (min (fromIdx + batch) size)))) :
    ∃ e, (pullLoop request apply nowMs batch hbatch size fromIdx accepted).call s =
      (.error e, s) := by
  rw [pullLoop, if_pos hmore]
  dsimp only
  rcases hrefuses with ⟨e, herror⟩ | ⟨message, hmessage⟩
  · exact ⟨e, by rw [herror, call_bind_error (call_lift _ s)]⟩
  · exact ⟨_, by rw [hmessage, call_bind_ok (call_lift _ s)]; rfl⟩

/-- The loop offers what is left of the log from the cursor on, or the part of it before
the first request that has no answer. -/
theorem call_pullLoop_cases (batch : Nat) (hbatch : 0 < batch) (hlimit : batch ≤ maxGetRecords)
    (hdecodes : ∀ record ∈ L.store, Record.decode record.encode = .ok record)
    (hanswers : ∀ r, request r = serve S L r ∨ Refuses (request r)) (fromIdx accepted : Nat)
    (hfrom : fromIdx ≤ L.store.length) (s : σ) :
    ((∃ r, Refuses (request r)) ∧ ∃ e n,
      (pullLoop request apply nowMs batch hbatch L.store.length fromIdx accepted).call s =
        (.error e,
          (((L.store.drop fromIdx).take n).foldl (applyRecord apply nowMs) (accepted, s)).2)) ∨
    (pullLoop request apply nowMs batch hbatch L.store.length fromIdx accepted).call s =
      (.ok (L.store.length,
          ((L.store.drop fromIdx).foldl (applyRecord apply nowMs) (accepted, s)).1),
        ((L.store.drop fromIdx).foldl (applyRecord apply nowMs) (accepted, s)).2) := by
  -- the induction is on what is left of the log
  induction hleft : L.store.length - fromIdx using Nat.strong_induction_on
    generalizing fromIdx accepted s with
  | _ left ih =>
    by_cases hmore : fromIdx < L.store.length
    · let toIdx := min (fromIdx + batch) L.store.length
      have hto : toIdx ≤ L.store.length := Nat.min_le_right _ _
      have hstep : fromIdx < toIdx := by omega
      let chunk := (L.store.drop fromIdx).take (toIdx - fromIdx)
      rcases hanswers (.getRecords fromIdx toIdx) with hserved | hrefuses
      · have hserve : request (.getRecords fromIdx toIdx) =
            .ok (.records (chunk.map Record.encode)) :=
          hserved.trans (serve_getRecords hto (by omega) (Nat.le_of_lt hstep))
        have hchunk : chunk.map Record.encode ≠ [] := by
          rw [← List.length_pos_iff]
          simp only [chunk, List.length_map, List.length_take, List.length_drop]
          omega
        have hdrop : (L.store.drop fromIdx).drop (toIdx - fromIdx) = L.store.drop toIdx := by
          rw [List.drop_drop]
          congr 1
          omega
        have hsplit : L.store.drop fromIdx = chunk ++ L.store.drop toIdx := by
          rw [← hdrop, List.take_append_drop]
        have hsurvive : ∀ record ∈ chunk, Record.decode record.encode = .ok record := by
          intro record hmem
          exact hdecodes record (List.mem_of_mem_drop (List.mem_of_mem_take hmem))
        rw [call_pullLoop_round hmore hserve hchunk,
          call_bind_ok (call_applyBlobs chunk hsurvive accepted s)]
        rcases ih (L.store.length - toIdx) (by omega) toIdx _ hto _ rfl with
          ⟨hsome, e, n, hcall⟩ | hcall
        · refine .inl ⟨hsome, e, toIdx - fromIdx + n, ?_⟩
          rw [hcall, List.take_add, hdrop, List.foldl_append]
        · refine .inr ?_
          rw [hcall, hsplit, List.foldl_append]
      · obtain ⟨e, hcall⟩ := call_pullLoop_refused hmore hrefuses
        refine .inl ⟨⟨_, hrefuses⟩, e, 0, ?_⟩
        rw [hcall]
        rfl
    · have hdone : fromIdx = L.store.length := by omega
      rw [pullLoop, if_neg hmore, hdone, List.drop_length]
      exact .inr rfl

theorem serve_getTreeHead (hleaves : L.leaves.length = L.store.length) :
    serve S L .getTreeHead = .ok (.treeHead L.store.length (L.head S).root) := by
  rw [← hleaves]
  rfl

/-- A pull from any cursor offers the log behind the cursor. A cursor beyond the log stays. -/
theorem call_pullRecords_cases (apply : Record → UInt64 → σ → Bool × σ) (nowMs : UInt64)
    (batch : Nat) (hbatch : 0 < batch) (hlimit : batch ≤ maxGetRecords)
    (hleaves : L.leaves.length = L.store.length)
    (hdecodes : ∀ record ∈ L.store, Record.decode record.encode = .ok record)
    (hanswers : ∀ r, request r = serve S L r ∨ Refuses (request r)) (localLen : Nat) (s : σ) :
    ((∃ r, Refuses (request r)) ∧ ∃ e n,
      (pullRecords request apply nowMs localLen batch hbatch).call s =
        (.error e, (((L.store.drop localLen).take n).foldl (applyRecord apply nowMs) (0, s)).2)) ∨
    (pullRecords request apply nowMs localLen batch hbatch).call s =
      (.ok (max localLen L.store.length,
          ((L.store.drop localLen).foldl (applyRecord apply nowMs) (0, s)).1),
        ((L.store.drop localLen).foldl (applyRecord apply nowMs) (0, s)).2) := by
  unfold pullRecords
  rcases hanswers .getTreeHead with hserved | hrefuses
  · rw [hserved, serve_getTreeHead hleaves, call_bind_ok (call_lift _ s)]
    dsimp only
    split
    · rename_i hbehind
      rw [List.drop_of_length_le hbehind, Nat.max_eq_left hbehind]
      exact .inr rfl
    · rename_i hahead
      rw [Nat.max_eq_right (by omega)]
      exact call_pullLoop_cases batch hbatch hlimit hdecodes hanswers localLen 0 (by omega) s
  · refine .inl ⟨⟨_, hrefuses⟩, ?_⟩
    rcases hrefuses with ⟨e, herror⟩ | ⟨message, hmessage⟩
    · exact ⟨e, 0, by rw [herror, call_bind_error (call_lift _ s)]; rfl⟩
    · exact ⟨_, 0, by rw [hmessage, call_bind_ok (call_lift _ s)]; rfl⟩

end Batches

def offers (records : List Record) (nowMs : UInt64) : List Op :=
  records.map fun record => .append record nowMs

theorem foldl_applyToLedger (records : List Record) (accepted : Nat) (engine : Engine) :
    (records.foldl (applyRecord (Engine.applyToLedger S) nowMs) (accepted, engine)).2 =
      { engine with ledger := Steps.exec (step S) engine.ledger (offers records nowMs) } := by
  induction records generalizing accepted engine with
  | nil => rfl
  | cons record rest ih =>
    rw [List.foldl_cons]
    exact ih _ _

theorem call_sync (hlogged : Logged S L)
    (hdecodes : ∀ record ∈ L.store, Record.decode record.encode = .ok record)
    (params : LedgerParams) (nowMs : UInt64) :
    ∃ accepted, (Engine.sync S (serve S L) nowMs).call
        { ledger := Ledger.new params, relayLedgerCursor := 0 } =
      (.ok accepted,
        { ledger := run S params (offers L.store nowMs)
          relayLedgerCursor := L.store.length }) := by
  let engine : Engine := { ledger := Ledger.new params, relayLedgerCursor := 0 }
  let final := L.store.foldl (applyRecord (Engine.applyToLedger S) nowMs) (0, engine)
  have hpull : (pullRecords (serve S L) (Engine.applyToLedger S) nowMs 0 256 (by decide)).call
      engine = (.ok (L.store.length, final.1), final.2) := by
    rcases call_pullRecords_cases (Engine.applyToLedger S) nowMs 256 (by decide) (by decide)
      (by simp [hlogged.leaves]) hdecodes (fun _ => .inl rfl) 0 engine with
      ⟨⟨r, hrefuses⟩, -⟩ | hcall
    · exact absurd hrefuses (serve_not_refuses S L r)
    · rw [hcall, List.drop_zero, Nat.zero_max]
  refine ⟨final.1, ?_⟩
  unfold Engine.sync
  rw [call_bind_ok (call_get engine), call_bind_ok hpull, foldl_applyToLedger]
  rfl

variable {record : Record}

/-- A record that was accepted once is not too early at a later time. -/
theorem checkEnvelope_of_le {thenMs : UInt64} (hok : checkEnvelope S record thenMs = .ok ())
    (hle : thenMs ≤ nowMs) : checkEnvelope S record nowMs = .ok () := by
  simp only [checkEnvelope, Except.bind_eq_ok, Except.mapError_eq_ok, Except.refuseIf_eq_ok]
    at hok ⊢
  obtain ⟨_, hversion, _, htime, _, hkind, hsig⟩ := hok
  refine ⟨(), hversion, (), ?_, (), hkind, hsig⟩
  rw [gt_iff_lt, UInt64.lt_iff_toNat_lt, saturatingAdd_toNat] at htime ⊢
  have := UInt64.le_iff_toNat_le.mp hle
  omega

/-- What `append` did at one time, it does at a later time in the same state. -/
theorem step_append_of_le {L' : Ledger} {thenMs : UInt64} {id : RecordId}
    (hok : (append S record thenMs).call L = (.ok id, L')) (hle : thenMs ≤ nowMs) :
    step S L (.append record nowMs) = L' := by
  obtain ⟨henvelope, haccept⟩ := accept_of_append hok
  rw [step, call_append, checkEnvelope_of_le henvelope hle]
  dsimp only [bind, Except.bind]
  rw [haccept]

/-- The log of `L`, offered from the start, leads to `L`. -/
def Replays (S : Suite) (params : LedgerParams) (nowMs : UInt64) (L : Ledger) : Prop :=
  (∀ record ∈ L.store, record.kind ≠ .tombstone) → run S params (offers L.store nowMs) = L

theorem Replays.append {L' : Ledger} {params : LedgerParams} {thenMs : UInt64} {id : RecordId}
    (h : Replays S params nowMs L) (hok : (append S record thenMs).call L = (.ok id, L'))
    (hle : thenMs ≤ nowMs) : Replays S params nowMs L' := by
  intro hplain
  have hstore := (accepted_of_append hok).log.1
  have hreplay : run S params (offers L.store nowMs) = L := by
    apply h
    intro found hfound
    apply hplain
    rw [hstore]
    exact List.mem_append_left _ hfound
  rw [hstore, offers, List.map_append, run, Steps.exec_append]
  exact (congrArg (step S · (.append record nowMs)) hreplay).trans (step_append_of_le hok hle)

/-- A ledger that has written a tombstone has nothing to show. -/
theorem Replays.of_tombstone {params : LedgerParams} (hmem : record ∈ L.store)
    (hkind : record.kind = .tombstone) : Replays S params nowMs L :=
  fun hplain => absurd hkind (hplain record hmem)

theorem replays_run (S : Suite) (params : LedgerParams) (ops : List Op) (nowMs : UInt64)
    (hclock : ∀ op ∈ ops, op.nowMs ≤ nowMs) : Replays S params nowMs (run S params ops) := by
  let inv (L : Ledger) : Prop := KeysIndexed L ∧ Replays S params nowMs L
  suffices hinv : inv (run S params ops) from hinv.2
  refine Steps.exec_invariant inv ?_ ⟨KeysIndexed.new params, fun _ => rfl⟩
    (Steps.along_of_forall hclock)
  rintro L op ⟨hL, h⟩ hle
  refine ⟨(reaches_step hL op).keysIndexed hL, ?_⟩
  cases op with
  | append record thenMs =>
    cases hcall : (append S record thenMs).call L with
    | mk result L' =>
      rw [step, hcall]
      cases result with
      | ok id => exact h.append hcall hle
      | error e =>
        rw [eq_of_append_error hcall]
        exact h
  | evaporate thenMs =>
    refine evaporate_induction (Replays S params nowMs) hL ?_ h
    intro M rootIdk _ hM hdue _
    have hstore := (accepted_evaporateChain (S := S) hM hdue).log.1
    apply Replays.of_tombstone
    · rw [hstore]
      exact List.mem_append_right _ (List.mem_singleton_self _)
    · rfl

/-- The records that `append` may accept. -/
def plain (records : List Record) : List Record :=
  records.filter fun record => record.kind ≠ .tombstone

theorem store_length_step_append (L : Ledger) (record : Record) (nowMs : UInt64) :
    (step S L (.append record nowMs)).store.length ≤ L.store.length + (plain [record]).length := by
  cases hcall : (append S record nowMs).call L with
  | mk result L' =>
    rw [step, hcall]
    cases result with
    | ok id =>
      have hkind := (checkEnvelope_ok (accept_of_append hcall).1).2.2.1
      simp [(accepted_of_append hcall).log.1, plain, hkind]
    | error e =>
      rw [eq_of_append_error hcall]
      exact Nat.le_add_right _ _

theorem store_length_exec_offers (L : Ledger) (records : List Record) :
    (Steps.exec (step S) L (offers records nowMs)).store.length ≤
      L.store.length + (plain records).length := by
  induction records generalizing L with
  | nil => exact Nat.le_refl _
  | cons record rest ih =>
    have hrest := ih (step S L (.append record nowMs))
    have hfirst := store_length_step_append (S := S) L record nowMs
    have hplain : plain (record :: rest) = plain [record] ++ plain rest := by
      rw [plain, ← List.singleton_append, List.filter_append]
      rfl
    rw [hplain, List.length_append]
    exact hrest.trans (by omega)

/-- The replica of a log with a tombstone is shorter than the log. -/
theorem store_length_run_offers (S : Suite) (params : LedgerParams) (nowMs : UInt64)
    {records : List Record} (hmem : record ∈ records) (hkind : record.kind = .tombstone) :
    (run S params (offers records nowMs)).store.length < records.length := by
  have hbound : (run S params (offers records nowMs)).store.length ≤
      (Ledger.new params).store.length + (plain records).length :=
    store_length_exec_offers (Ledger.new params) records
  have hshort : (plain records).length < records.length := by
    apply List.length_filter_lt_length_iff_exists.mpr
    exact ⟨record, hmem, by simp [hkind]⟩
  rw [Ledger.new_store, List.length_nil] at hbound
  omega

/-- The two ledgers resolve every key and every identity alike. -/
def SameAnswers (client relay : Ledger) : Prop :=
  (∀ idk, client.isLive idk = relay.isLive idk ∧ client.tipKey idk = relay.tipKey idk) ∧
    ∀ identityId, client.idkForId identityId = relay.idkForId identityId

/-- A sync of an empty replica succeeds and ends with the relay's tree head and answers. -/
def Reproduces (S : Suite) (params : LedgerParams) (nowMs : UInt64) (relay : Ledger) : Prop :=
  ∃ accepted engine, (Engine.sync S (serve S relay) nowMs).call
      { ledger := Ledger.new params, relayLedgerCursor := 0 } = (.ok accepted, engine) ∧
    engine.ledger.head S = relay.head S ∧ SameAnswers engine.ledger relay

/-- A replica that syncs no earlier than the relay's clock reproduces the relay's ledger
exactly when the relay has evaporated nobody. -/
theorem sync_reproduces_iff (S : Suite) (params : LedgerParams) (ops : List Op) (nowMs : UInt64)
    (hclock : ∀ op ∈ ops, op.nowMs ≤ nowMs) :
    Reproduces S params nowMs (run S params ops) ↔
      ∀ record ∈ (run S params ops).store, record.kind ≠ .tombstone := by
  have hlogged := logged_run S params ops
  obtain ⟨accepted, hsync⟩ := call_sync hlogged (decode_encode_run S params ops) params nowMs
  constructor
  · rintro ⟨accepted', engine, hcall, hhead, -⟩ record hmem hkind
    rw [hsync] at hcall
    cases hcall
    have hshort := store_length_run_offers S params nowMs hmem hkind
    have hsize := congrArg TreeHead.size hhead
    simp only [Ledger.head, (logged_run S params _).leaves, List.length_map] at hsize
    omega
  · intro hplain
    refine ⟨accepted, _, hsync, ?_⟩
    rw [replays_run S params ops nowMs hclock hplain]
    exact ⟨rfl, fun _ => ⟨rfl, rfl⟩, fun _ => rfl⟩

/-- A relay with an announcement, a registration and a rotation. -/
theorem sync_reproduces_rotation :
    Reproduces sampleSuite sampleParams 5000 (run sampleSuite sampleParams
      [.append (sampleAnnounce (sampleKey 1) 1000) 1000,
        .append (sampleRegister (sampleKey 1) 2000) 2000,
        .append (sampleRotation (sampleKey 1) (sampleKey 2) 3000) 3000, .evaporate 4000]) :=
  (sync_reproduces_iff sampleSuite sampleParams
    [.append (sampleAnnounce (sampleKey 1) 1000) 1000,
      .append (sampleRegister (sampleKey 1) 2000) 2000,
      .append (sampleRotation (sampleKey 1) (sampleKey 2) 3000) 3000, .evaporate 4000] 5000
    (by decide +kernel)).mpr (by decide +kernel)

/-- The relay has evaporated an identity; the replica does not take the tombstone, and the
identity lives on in it. -/
theorem sync_misses_tombstone :
    ((run sampleSuite sampleParams
        [.append (sampleAnnounce (sampleKey 1) 1000) 1000, .evaporate 20000]).head
          sampleSuite).size = 2 ∧
    (run sampleSuite sampleParams
        [.append (sampleAnnounce (sampleKey 1) 1000) 1000, .evaporate 20000]).isLive
          (sampleKey 1) = false ∧
    (((Engine.sync sampleSuite (serve sampleSuite (run sampleSuite sampleParams
        [.append (sampleAnnounce (sampleKey 1) 1000) 1000, .evaporate 20000])) 20000).call
          { ledger := Ledger.new sampleParams, relayLedgerCursor := 0 }).2.ledger.head
            sampleSuite).size = 1 ∧
    ((Engine.sync sampleSuite (serve sampleSuite (run sampleSuite sampleParams
        [.append (sampleAnnounce (sampleKey 1) 1000) 1000, .evaporate 20000])) 20000).call
          { ledger := Ledger.new sampleParams, relayLedgerCursor := 0 }).2.ledger.isLive
            (sampleKey 1) = true := by
  decide +kernel

end Dante.Net
