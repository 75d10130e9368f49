import Dante.Net.Paging
import Dante.Relay.ChannelLog
import Dante.Relay.State

/-!
The size of a relay's answers. A frame of the transport has at most `MAX_FRAME` bytes. What a relay
stores is bounded by checks of its own and by the frame of the request that brought it. One answer
does not fit: the answer with a blob is one byte longer than the request that stored it.
-/

namespace Dante.Relay

open Crypto Enc Except Ledger Method Net.Wire

def maxFrame : Nat := 8 * 1024 * 1024

/-- What is assumed of the addresses that the operator configures: half a frame. -/
def maxSeedBytes : Nat := 4 * 1024 * 1024

def Sendable (response : Response) : Prop := response.encode.length ≤ maxFrame

/-- A text that takes little room in an answer. -/
def Brief (reason : String) : Prop := reason.utf8ByteSize ≤ 1000

instance (reason : String) : Decidable (Brief reason) := inferInstanceAs (Decidable (_ ≤ _))

theorem sendable_error {reason : String} (h : Brief reason) : Sendable (.error reason) := by
  unfold Brief at h
  simp only [Sendable, Response.encode, Writer.u8, List.length_append, Writer.length_string,
    List.length_singleton, maxFrame]
  omega

theorem sendable_ok : Sendable .ok := by
  unfold Sendable
  decide

theorem sendable_list {α : Type} {write : α → Bytes} {xs : List α} {tag : UInt8} {m n : Nat}
    (hcount : xs.length ≤ m) (hsize : ∀ x ∈ xs, (write x).length ≤ n)
    (hframe : 5 + m * n ≤ maxFrame) :
    (Writer.u8 tag ++ Writer.list write xs).length ≤ maxFrame := by
  have hlist := Writer.length_list_le hsize
  have hmul := Nat.mul_le_mul_right n hcount
  rw [List.length_append, Writer.u8, List.length_singleton]
  omega

theorem length_option (tag : UInt8) (blob : Option Bytes) :
    (Writer.u8 tag ++ writeOption blob).length = 2 + (blob.map (4 + ·.length)).getD 0 := by
  cases blob with
  | none => rfl
  | some bytes =>
    simp only [Writer.u8, writeOption, Writer.bool, List.length_append, Writer.length_bytes,
      List.length_singleton, Option.map_some, Option.getD_some]
    omega

theorem sendable_option {tag : UInt8} {blob : Option Bytes}
    (h : (blob.getD []).length ≤ 16384) :
    (Writer.u8 tag ++ writeOption blob).length ≤ maxFrame := by
  rw [length_option, maxFrame]
  cases blob with
  | none => decide
  | some bytes =>
    rw [Option.getD_some] at h
    rw [Option.map_some, Option.getD_some]
    omega

theorem sendable_reading {limited : Bool} {response : Response} (h : Sendable response) :
    Sendable (reading limited response) := by
  unfold reading
  split
  · exact sendable_error (by decide)
  · exact h

namespace RelayState

variable {S : Suite} {state : RelayState} {limited : Bool} {now : UInt64}

structure Bounded (S : Suite) (state : RelayState) : Prop where
  ledger : ∃ params ops, state.ledger = run S params ops
  slots : state.stores.mailbox.Accounted
  blobs : ∀ hash entry, state.stores.blobs.blobs.lookup hash = some entry →
    entry.1.length + 5 ≤ maxFrame
  prekeys : ∀ id blob, state.prekeys.prekeys.lookup id = some blob → blob.length ≤ maxPrekeyBytes
  keyPackages : ∀ id queue, state.keyPackages.lookup id = some queue →
    ∀ package ∈ queue, package.length ≤ maxKeypkgBytes
  channels : ∀ id log, state.channels.lookup id = some log →
    log.entries.length ≤ maxChannelEntries
  signals : ∀ topic sigs, state.signals.lookup topic = some sigs →
    sigs.length ≤ maxSignalsPerTopic ∧ ∀ signal ∈ sigs, signal.1.length ≤ maxSignalBytes
  reported : ∀ entry ∈ state.p2pReported, entry.1.utf8ByteSize ≤ maxP2pAddrLen
  seed : (writeStrList state.p2pSeed).length ≤ maxSeedBytes

theorem bounded_new (params : LedgerParams) (cap : Nat) {seed : List String}
    (hseed : (writeStrList seed).length ≤ maxSeedBytes) : Bounded S (new params cap seed) where
  ledger := ⟨params, [], rfl⟩
  slots := Net.Mailbox.accounted_new
  blobs _ _ h := nomatch h
  prekeys _ _ h := nomatch h
  keyPackages _ _ h := nomatch h
  channels _ _ h := nomatch h
  signals _ _ h := nomatch h
  reported _ h := nomatch h
  seed := hseed

theorem length_of_sliced {stored remaining out : Bytes}
    (hsliced : PrekeyStore.sliced stored = some (remaining, out)) :
    remaining.length ≤ stored.length ∧ out.length ≤ stored.length := by
  obtain ⟨bundle, handed, rest, hdecode, hotps, rfl, rfl⟩ := sliced_eq_some hsliced
  rw [Dm.PreKeyBundle.encode_of_decode hdecode]
  simp only [Dm.PreKeyBundle.length_encode, hotps, List.length_cons, List.length_nil]
  omega

section Bounded

variable (h : Bounded S state)

include h

theorem Bounded.submitRecord (blob : Bytes) : Bounded S (state.submitRecord S limited blob now).2 := by
  unfold RelayState.submitRecord
  split
  · exact h
  · rename_i record _
    split
    · exact h
    · obtain ⟨params, ops, hledger⟩ := h.ledger
      have hgrown : ((append S record now).call state.ledger).2 =
          run S params (ops ++ [.append record now]) := by
        unfold run
        rw [hledger, Steps.exec_append]
        rfl
      have hnext := { h with ledger := ⟨params, _, hgrown⟩ :
        Bounded S { state with ledger := ((append S record now).call state.ledger).2 } }
      split
      · rename_i hcall
        rwa [hcall] at hnext
      · rename_i hcall
        rwa [hcall] at hnext

theorem Bounded.deposit (blob : Bytes) : Bounded S (state.deposit S limited blob now).2 := by
  unfold RelayState.deposit
  rcases Stores.deposit_cases S state.stores blob limited now with
    ⟨e, hcall⟩ | ⟨env, -, hcheck, hcall⟩
  · rw [hcall]
    exact h
  · rw [hcall]
    exact { h with slots := h.slots.stored hcheck }

theorem Bounded.withBundle {id : Hash} {blob : Bytes}
    (hblob : blob.length ≤ maxPrekeyBytes) :
    Bounded S { state with prekeys := state.prekeys.withBundle id blob } :=
  { h with prekeys := AssocMap.forall_insert h.prekeys hblob }

theorem Bounded.publishPrekeys (blob : Bytes) :
    Bounded S (state.publishPrekeys limited blob).2 := by
  unfold RelayState.publishPrekeys
  rw [call_publishPrekeys]
  cases hcheck : state.prekeys.checkPublish limited blob with
  | error reason => exact h
  | ok id => exact h.withBundle (leadingId_of_checkPublish hcheck).2.1

theorem Bounded.getPrekeys (id : Hash) :
    Bounded S (state.getPrekeys limited id).2 ∧ Sendable (state.getPrekeys limited id).1 := by
  unfold RelayState.getPrekeys
  cases limited with
  | true => exact ⟨h, sendable_error (by decide)⟩
  | false =>
    rw [call_getPrekeys]
    cases hstored : state.prekeys.prekeys.lookup id with
    | none => exact ⟨h, sendable_option (by decide)⟩
    | some stored =>
      have hlen := h.prekeys id stored hstored
      dsimp only
      cases hsliced : PrekeyStore.sliced stored with
      | none => exact ⟨h, sendable_option hlen⟩
      | some cut =>
        obtain ⟨hremaining, hout⟩ := length_of_sliced hsliced
        exact ⟨h.withBundle (hremaining.trans hlen),
          sendable_option (hout.trans hlen)⟩

theorem Bounded.withQueue {id : Hash} {queue : List Bytes}
    (hqueue : ∀ package ∈ queue, package.length ≤ maxKeypkgBytes) :
    Bounded S { state with keyPackages := state.keyPackages.insert id queue } :=
  { h with keyPackages := AssocMap.forall_insert h.keyPackages hqueue }

theorem Bounded.queue (id : Hash) :
    ∀ package ∈ state.keyPackageStore.queue id, package.length ≤ maxKeypkgBytes :=
  AssocMap.forall_getD h.keyPackages (List.forall_mem_nil _) id

theorem Bounded.publishKeyPackages (batch : KeyPackageBatch) :
    Bounded S (state.publishKeyPackages S limited batch).2 := by
  unfold RelayState.publishKeyPackages KeyPackageStore.publishKeyPackages
  rw [call_validated]
  cases hcheck : state.keyPackageStore.checkPublish S limited batch with
  | error reason => exact h
  | ok u =>
    simp only [KeyPackageStore.checkPublish, bind_eq_ok, refuseIf_eq_ok] at hcheck
    obtain ⟨-, -, -, hsizes, -⟩ := hcheck
    apply h.withQueue
    intro package hpackage
    rcases List.mem_append.mp (List.mem_of_mem_drop hpackage) with hold | hnew
    · exact h.queue _ package hold
    · by_contra hlong
      exact hsizes ⟨package, hnew, .inr (by omega)⟩

theorem Bounded.getKeyPackage (id : Hash) :
    Bounded S (state.getKeyPackage limited id).2 ∧
      Sendable (state.getKeyPackage limited id).1 := by
  unfold RelayState.getKeyPackage
  have hqueue := h.queue id
  cases limited with
  | true => exact ⟨h, sendable_error (by decide)⟩
  | false =>
    rw [KeyPackageHistory.call_getKeyPackage, if_neg (by decide)]
    generalize state.keyPackageStore.queue id = queue at hqueue
    rcases queue with _ | ⟨oldest, _ | ⟨next, rest⟩⟩
    · exact ⟨h, sendable_option (by decide)⟩
    · exact ⟨h, sendable_option (hqueue oldest List.mem_cons_self)⟩
    · exact ⟨h.withQueue fun package hpackage => hqueue package (List.mem_cons_of_mem _ hpackage),
        sendable_option (hqueue oldest List.mem_cons_self)⟩

theorem Bounded.putBlob {bytes : Bytes}
    (hfits : (Request.putBlob bytes).encode.length ≤ maxFrame) :
    Bounded S (state.putBlob S limited bytes now).2 := by
  have hlen : bytes.length + 5 ≤ maxFrame := by
    rw [Request.encode, List.length_append, Writer.length_bytes, Writer.u8,
      List.length_singleton] at hfits
    omega
  refine { h with blobs := ?_ }
  change ∀ hash entry, (state.stores.blobs.putBlob S bytes limited now).2.blobs.lookup hash =
    some entry → _
  unfold BlobStore.putBlob
  split
  · exact h.blobs
  · dsimp only
    split
    · exact h.blobs
    · split
      · exact h.blobs
      · exact AssocMap.forall_insert h.blobs hlen

theorem Bounded.log (id : Hash) :
    (state.channelStore.log id).entries.length ≤ maxChannelEntries :=
  AssocMap.forall_getD h.channels (Nat.zero_le _) id

theorem Bounded.postToChannel (channelId : Hash) (blob : Bytes) (identity : Hash)
    (sig : Signature) :
    Bounded S (state.postToChannel S limited channelId blob identity sig now).2 := by
  unfold RelayState.postToChannel
  rw [ChannelStore.call_postToChannel]
  cases state.channelStore.checkPost S limited channelId blob identity sig with
  | error reason => exact h
  | ok u => exact { h with channels := AssocMap.forall_insert h.channels (length_trim_le _) }

theorem Bounded.setChannelRoster (update : RosterUpdate) :
    Bounded S (state.setChannelRoster S limited update).2 := by
  have hstate : (state.setChannelRoster S limited update).2 =
      state.setChannelStore (state.channelStore.setChannelRoster S limited update).2 := rfl
  rw [hstate, ChannelStore.setChannelRoster_snd]
  split
  · exact h
  · obtain ⟨rosters, hstore⟩ :=
      ChannelStore.applyChannelRoster_channels S state.channelStore update
    rw [hstore]
    exact { h with }

theorem Bounded.topic (topic : Hash) :
    ((state.signals.lookup topic).getD []).length ≤ maxSignalsPerTopic ∧
      ∀ signal ∈ (state.signals.lookup topic).getD [], signal.1.length ≤ maxSignalBytes :=
  AssocMap.forall_getD h.signals ⟨Nat.zero_le _, List.forall_mem_nil _⟩ topic

theorem Bounded.postSignal (topic : Hash) (blob : Bytes) :
    Bounded S (state.postSignal limited topic blob now).2 := by
  unfold RelayState.postSignal
  split
  · exact h
  · split
    · exact h
    · rename_i hsize
      refine { h with signals := AssocMap.forall_insert h.signals ⟨?_, ?_⟩ }
      · rw [pushSignal, List.length_drop]
        omega
      · intro signal hsignal
        rcases List.mem_append.mp (List.mem_of_mem_drop hsignal) with hold | hnew
        · exact (h.topic topic).2 signal (List.mem_filter.mp hold).1
        · rw [List.mem_singleton.mp hnew]
          exact Nat.not_lt.mp hsize

end Bounded

theorem reported_reportP2p {now : UInt64} {reported : List (String × UInt64)} {addr : String}
    (h : ∀ entry ∈ reported, entry.1.utf8ByteSize ≤ maxP2pAddrLen) :
    ∀ entry ∈ reportP2p now reported addr, entry.1.utf8ByteSize ≤ maxP2pAddrLen := by
  unfold reportP2p
  split
  · exact h
  · rename_i hvalid
    split
    · intro entry hentry
      obtain ⟨i, hi⟩ := List.mem_iff_getElem?.mp hentry
      rw [List.getElem?_modify] at hi
      obtain ⟨old, hold, rfl⟩ := Option.map_eq_some_iff.mp hi
      have hbound := h old (List.mem_of_getElem? hold)
      split
      · exact hbound
      · exact hbound
    · intro entry hentry
      rcases List.mem_append.mp (List.mem_of_mem_drop hentry) with hold | hnew
      · exact h entry hold
      · rw [List.mem_singleton.mp hnew]
        simp only [not_or, not_lt] at hvalid
        exact hvalid.2.1

theorem Bounded.announceP2p (h : Bounded S state) (addrs : List String) :
    Bounded S (state.announceP2p limited addrs now).2 := by
  unfold RelayState.announceP2p
  split
  · exact h
  · refine { h with reported := ?_ }
    have hreported := h.reported
    generalize state.p2pReported = reported at hreported
    induction addrs generalizing reported with
    | nil => exact hreported
    | cons addr rest ih => exact ih _ (reported_reportP2p hreported)

theorem Bounded.step (h : Bounded S state) (call : Call)
    (hfits : call.request.encode.length ≤ maxFrame) : Bounded S (state.step S call) := by
  obtain ⟨request, limited, now, ice⟩ := call
  cases request with
  | submitRecord blob => exact h.submitRecord blob
  | deposit blob => exact h.deposit blob
  | publishPrekeys blob => exact h.publishPrekeys blob
  | getPrekeys id => exact (h.getPrekeys id).1
  | publishKeyPackages identity keyPackages sig => exact h.publishKeyPackages _
  | getKeyPackage id => exact (h.getKeyPackage id).1
  | putBlob bytes => exact h.putBlob hfits
  | postToChannel channelId blob identity sig => exact h.postToChannel channelId blob identity sig
  | setChannelRoster channelId serverRoot version members sig => exact h.setChannelRoster _
  | postSignal topic blob => exact h.postSignal topic blob
  | announceP2p addrs => exact h.announceP2p addrs
  | _ => exact h

theorem brief_checkDeposit (mailbox : Net.Mailbox) (env : Envelope) (now : UInt64) :
    FailsIn (fun e => Brief ("rejected: " ++ mailboxErrorText e)) (mailbox.checkDeposit env now) :=
  failsIn_refuse (by decide) <| failsIn_refuse (by decide) <| failsIn_refuse (by decide) <|
    failsIn_refuse (by decide) <| failsIn_refuse (by decide) <| failsIn_refuseIf (by decide)

theorem sendable_deposit (blob : Bytes) : Sendable (state.deposit S limited blob now).1 := by
  unfold RelayState.deposit Stores.deposit
  cases Envelope.decode blob with
  | error e => exact sendable_error (by decide)
  | ok env =>
    cases limited with
    | true => exact sendable_error (by decide)
    | false =>
      cases hcheck : state.stores.mailbox.checkDeposit env now with
      | error e =>
        simp only [Net.Mailbox.call_deposit_error hcheck]
        exact sendable_error (brief_checkDeposit _ _ _ e hcheck)
      | ok u =>
        simp only [Net.Mailbox.call_deposit hcheck]
        exact sendable_ok

theorem sendable_submitRecord (blob : Bytes) :
    Sendable (state.submitRecord S limited blob now).1 := by
  unfold RelayState.submitRecord
  split
  · exact sendable_error (by decide)
  · rename_i record hdecode
    split
    · exact sendable_error (by decide)
    · split
      · exact sendable_ok
      · rename_i e ledger hcall
        have hbody : record.body.length < 2 ^ 32 :=
          ((Reader.decodeAll_eq_ok_iff Record.codec).mp hdecode).2
        have htext := append_error_size_le (hbody.trans (by decide)) hcall
        have hfront : "rejected: ".utf8ByteSize = 10 := by decide
        apply sendable_error
        rw [Brief, String.utf8ByteSize_append]
        omega

theorem sendable_publishPrekeys (blob : Bytes) :
    Sendable (state.publishPrekeys limited blob).1 := by
  unfold RelayState.publishPrekeys
  rw [call_publishPrekeys]
  have hbrief : FailsIn Brief (state.prekeys.checkPublish limited blob) :=
    failsIn_refuse (by decide) <| failsIn_refuse (by decide) <|
      (failsIn_okOr (by decide)).bind fun _ => failsIn_refuse (by decide) <| failsIn_ok _
  cases hcheck : state.prekeys.checkPublish limited blob with
  | error reason => exact sendable_error (hbrief reason hcheck)
  | ok id => exact sendable_ok

theorem sendable_publishKeyPackages (batch : KeyPackageBatch) :
    Sendable (state.publishKeyPackages S limited batch).1 := by
  unfold RelayState.publishKeyPackages KeyPackageStore.publishKeyPackages
  rw [call_validated]
  have hbrief : FailsIn Brief (state.keyPackageStore.checkPublish S limited batch) :=
    failsIn_refuse (by decide) <| failsIn_refuse (by decide) <|
      FailsIn.bind ((failsIn_okOr (by decide)).bind fun _ => failsIn_refuseIf (by decide)) fun _ =>
      failsIn_refuseIf (by decide)
  cases hcheck : state.keyPackageStore.checkPublish S limited batch with
  | error reason => exact sendable_error (hbrief reason hcheck)
  | ok u => exact sendable_ok

theorem sendable_postToChannel (channelId : Hash) (blob : Bytes) (identity : Hash)
    (sig : Signature) :
    Sendable (state.postToChannel S limited channelId blob identity sig now).1 := by
  unfold RelayState.postToChannel
  rw [ChannelStore.call_postToChannel]
  have hbrief : FailsIn Brief
      (state.channelStore.checkPost S limited channelId blob identity sig) :=
    failsIn_refuse (by decide) <| failsIn_refuse (by decide) <|
      FailsIn.bind ((failsIn_okOr (by decide)).bind fun _ => failsIn_refuseIf (by decide)) fun _ =>
      (failsIn_okOr (by decide)).bind fun _ => failsIn_refuse (by decide) <|
      failsIn_refuse (by decide) <| failsIn_refuseIf (by decide)
  cases hcheck : state.channelStore.checkPost S limited channelId blob identity sig with
  | error reason => exact sendable_error (hbrief reason hcheck)
  | ok u =>
    have hlen : ∀ seq : UInt64, (Response.posted seq).encode.length = 9 := fun seq => by
      simp [Response.encode, Writer.u8]
    exact (hlen _).le.trans (by decide)

theorem brief_bindRoster (store : ChannelStore) (update : RosterUpdate) :
    FailsIn Brief (store.bindRoster S update).1 := by
  unfold ChannelStore.bindRoster
  dsimp only
  split
  · exact failsIn_error (by decide)
  · exact failsIn_ok _

theorem brief_applyChannelRoster (store : ChannelStore) (update : RosterUpdate) :
    FailsIn Brief (store.applyChannelRoster S update).1 := by
  unfold ChannelStore.applyChannelRoster
  split
  · exact failsIn_error (by decide)
  · split
    · split
      · exact failsIn_error (by decide)
      · split
        · exact failsIn_ok _
        · exact brief_bindRoster store update
    · split
      · exact failsIn_error (by decide)
      · exact brief_bindRoster store update

theorem sendable_setChannelRoster (update : RosterUpdate) :
    Sendable (state.setChannelRoster S limited update).1 := by
  unfold RelayState.setChannelRoster ChannelStore.setChannelRoster
  have hbrief := brief_applyChannelRoster (S := S) state.channelStore update
  cases limited with
  | true => exact sendable_error (by decide)
  | false =>
    rcases happly : state.channelStore.applyChannelRoster S update with ⟨result, store⟩
    rw [happly] at hbrief
    rcases result with reason | ⟨_ | _⟩
    · exact sendable_error (hbrief reason rfl)
    · exact sendable_error (by decide)
    · exact sendable_ok

theorem sendable_putBlob (bytes : Bytes) :
    Sendable (state.putBlob S limited bytes now).1 := by
  change Sendable (respond _ (state.stores.blobs.putBlob S bytes limited now).1)
  unfold BlobStore.putBlob
  split
  · exact sendable_error (by decide)
  · dsimp only
    split
    · exact sendable_ok
    · split
      · exact sendable_error (by decide)
      · exact sendable_ok

theorem length_encode_record (record : Record) :
    record.encode.length = 111 + record.body.length := by
  simp [Record.encode, Record.signingBytes, Writer.u8]
  omega

theorem Bounded.sendable_records (h : Bounded S state) (allowed : Bool) (start stop : Nat) :
    Sendable (ofSync (Net.handle S state.ledger allowed (.getRecords start stop))) := by
  obtain ⟨params, ops, hledger⟩ := h.ledger
  cases allowed with
  | false => exact sendable_error (by decide)
  | true =>
    -- 512 records of at most 4838 bytes besides the fixed fields
    refine sendable_list (m := 512) (n := 4953) ?_ ?_ (by decide)
    · have hlimit : Net.maxGetRecords = 512 := rfl
      refine (List.length_filterMap_le _ _).trans ?_
      rw [List.length_range']
      omega
    · intro blob hblob
      obtain ⟨i, -, hrecord⟩ := List.mem_filterMap.mp hblob
      obtain ⟨record, hfound, rfl⟩ := Option.map_eq_some_iff.mp hrecord
      rw [Ledger.record, hledger] at hfound
      have hbody := body_le_run S params ops record (List.mem_of_getElem? hfound)
      have hmax : bodyMax = 4838 := rfl
      rw [Writer.length_bytes, length_encode_record]
      omega

/-- The number of envelopes in an answer is bounded by the depth of the slots, their size by the
budget of the fetch. -/
theorem Bounded.sendable_fetch (h : Bounded S state) (hints : List Hint) (sinceMs now : UInt64) :
    Sendable (state.fetch hints sinceMs now) := by
  let mailbox := state.stores.mailbox
  let envs := Net.Mailbox.withinBudget 0 (mailbox.candidates (hints.take 32) sinceMs now)
  have hbudget : (envs.map Net.envSize).sum ≤ Net.maxFetchBytes := by
    obtain ⟨_, -, hsum, -⟩ := Net.withinBudget_parts 0
      (mailbox.candidates (hints.take 32) sinceMs now) (Nat.zero_le _)
    simpa using hsum
  have hcount : envs.length ≤ 32 * Net.maxHintDepth := by
    refine (Net.Mailbox.withinBudget_sublist 0 _).length_le.trans ?_
    rw [Net.Mailbox.candidates, List.length_flatMap]
    have hslots := List.sum_le_card_nsmul ((hints.take 32).map fun hint =>
      ((mailbox.slot hint).filter fun env => sinceMs ≤ env.depositedMs && !env.isExpired now).length)
      Net.maxHintDepth (by
        simp only [List.mem_map, forall_exists_index, and_imp, forall_apply_eq_imp_iff₂]
        intro hint _
        exact (List.length_filter_le _ _).trans (h.slots.depth hint))
    rw [List.length_map, smul_eq_mul, List.length_take] at hslots
    exact hslots.trans (Nat.mul_le_mul_right _ (Nat.min_le_left _ _))
  have hperm : (mailbox.fetch (hints.take 32) sinceMs now).Perm envs := List.mergeSort_perm _ _
  have hsize : ∀ env : Envelope, (Writer.bytes env.encode).length = 4 + Net.envSize env := by
    intro env
    simp [Envelope.encode, Net.envSize]
    omega
  have hsum : ((mailbox.fetch (hints.take 32) sinceMs now).map fun env =>
      (Writer.bytes env.encode).length).sum = 4 * envs.length + (envs.map Net.envSize).sum := by
    rw [(hperm.map _).sum_eq]
    simp only [hsize, List.sum_map_add, List.map_const', List.sum_replicate, smul_eq_mul]
    ring
  have hdepth : Net.maxHintDepth = 512 := rfl
  have hbytes : Net.maxFetchBytes = 7340032 := rfl
  rw [RelayState.fetch, Sendable, Response.encode, Net.Wire.writeBlobList, List.length_append,
    Writer.length_list, List.map_map, Writer.u8, List.length_singleton, maxFrame]
  have hrest : (((mailbox.fetch (hints.take 32) sinceMs now).map
      ((fun blob => (Writer.bytes blob).length) ∘ Envelope.encode)).sum) =
      4 * envs.length + (envs.map Net.envSize).sum := hsum
  rw [hrest]
  omega

theorem takeWithin_le (budget : Nat) (frames : List Frame) :
    (ChannelStore.takeWithin budget frames).length ≤ frames.length ∧
      frameBytes (ChannelStore.takeWithin budget frames) ≤ budget := by
  induction frames generalizing budget with
  | nil => exact ⟨Nat.le_refl 0, Nat.zero_le _⟩
  | cons frame rest ih =>
    rw [ChannelStore.takeWithin]
    split
    · obtain ⟨hlen, hbytes⟩ := ih (budget - frame.blob.length)
      simp only [frameBytes, List.map_cons, List.sum_cons, List.length_cons] at hbytes ⊢
      omega
    · exact ⟨Nat.zero_le _, Nat.zero_le _⟩

theorem Bounded.sendable_fetchChannel (h : Bounded S state) (channelId : Hash)
    (sinceSeq : UInt64) : Sendable (state.fetchChannel channelId sinceSeq) := by
  let frames := state.channelStore.fetchChannel channelId sinceSeq
  obtain ⟨hlen, hbytes⟩ := takeWithin_le maxChannelFetchBytes
    ((state.channelStore.log channelId).entries.filter fun frame => sinceSeq < frame.seq)
  have hcount : frames.length ≤ maxChannelEntries :=
    hlen.trans ((List.length_filter_le _ _).trans (h.log channelId))
  have hsize : ∀ frame : Frame, (writeEntry (frame.seq, frame.blob)).length =
      12 + frame.blob.length := by
    intro frame
    simp [writeEntry]
    omega
  have hsum : ((frames.map fun frame => (frame.seq, frame.blob)).map fun entry =>
      (writeEntry entry).length).sum = 12 * frames.length + frameBytes frames := by
    rw [List.map_map]
    simp only [Function.comp_def, hsize, List.sum_map_add, List.map_const', List.sum_replicate,
      smul_eq_mul, frameBytes]
    ring
  have hentries : maxChannelEntries = 5000 := by with_unfolding_all rfl
  have hbudget : maxChannelFetchBytes = 7340032 := rfl
  rw [RelayState.fetchChannel, Sendable, Response.encode, List.length_append, Writer.length_list,
    hsum, Writer.u8, List.length_singleton, maxFrame]
  change frameBytes frames ≤ _ at hbytes
  omega

theorem sendable_channelHeads (channelIds : List Hash) :
    Sendable (state.channelHeads channelIds) := by
  unfold RelayState.channelHeads
  split
  · exact sendable_error (by decide)
  · rename_i hcount
    refine sendable_list (m := maxChannelHeadsPerRequest) (n := 40) ?_ ?_ (by decide)
    · rw [List.length_map]
      omega
    · intro head _
      simp [writeHead]

theorem Bounded.sendable_signals (h : Bounded S state) (topic : Hash) :
    Sendable (.signals (state.fetchSignals topic now)) := by
  refine sendable_list (m := maxSignalsPerTopic) (n := 4 + maxSignalBytes) ?_ ?_ (by decide)
  · rw [fetchSignals, List.length_map]
    exact (List.length_filter_le _ _).trans (h.topic topic).1
  · intro blob hblob
    obtain ⟨signal, hsignal, rfl⟩ := List.mem_map.mp hblob
    rw [Writer.length_bytes]
    exact Nat.add_le_add_left ((h.topic topic).2 signal (List.mem_filter.mp hsignal).1) 4

/-- The loop adds at most as many addresses as are missing to the limit. -/
theorem sum_addPeers_le (now : UInt64) {reported : List (String × UInt64)} (out : List String)
    (h : ∀ entry ∈ reported, entry.1.utf8ByteSize ≤ maxP2pAddrLen) :
    ((addPeers now out reported).map fun addr => (Writer.string addr).length).sum ≤
      (out.map fun addr => (Writer.string addr).length).sum +
        (maxP2pPeersReply - out.length) * (4 + maxP2pAddrLen) := by
  induction reported generalizing out with
  | nil => exact Nat.le_add_right _ _
  | cons entry rest ih =>
    have hrest := fun other hother => h other (List.mem_cons_of_mem entry hother)
    rw [addPeers]
    split
    · exact Nat.le_add_right _ _
    · rename_i hroom
      split
      · have hnext := ih (out ++ [entry.1]) hrest
        have haddr := h entry List.mem_cons_self
        simp only [List.map_append, List.map_singleton, List.sum_append, List.sum_singleton,
          List.length_append, List.length_singleton, Writer.length_string] at hnext ⊢
        have hleft : maxP2pPeersReply - out.length =
            (maxP2pPeersReply - (out.length + 1)) + 1 := by omega
        rw [hleft, Nat.add_mul, Nat.one_mul]
        omega
      · exact ih out hrest

theorem Bounded.sendable_p2pPeers (h : Bounded S state) :
    Sendable (.p2pPeers (state.knownP2pPeers now)) := by
  have hpeers := sum_addPeers_le now state.p2pSeed
    (fun entry hentry => h.reported entry (List.mem_reverse.mp hentry))
  have hseed := h.seed
  have hmore : (maxP2pPeersReply - state.p2pSeed.length) * (4 + maxP2pAddrLen) ≤ 16 * 260 :=
    Nat.mul_le_mul_right _ (Nat.sub_le _ _)
  have hlimit : maxSeedBytes = 4194304 := rfl
  rw [writeStrList, Writer.length_list] at hseed
  rw [Sendable, Response.encode, writeStrList, List.length_append, Writer.length_list, Writer.u8,
    List.length_singleton, knownP2pPeers, maxFrame]
  omega

/-- The request asks for a blob that fits a request and not an answer. -/
def AsksTooMuch (state : RelayState) (call : Call) : Prop :=
  call.limited = false ∧ ∃ hash entry, call.request = .getBlob hash ∧
    state.stores.blobs.blobs.lookup hash = some entry ∧ entry.1.length = maxFrame - 5

theorem Bounded.sendable_getBlob_iff (h : Bounded S state) (hash : Hash) (limited : Bool) :
    Sendable (respond .blob (state.stores.blobs.getBlob hash limited)) ↔
      ¬ (limited = false ∧ ∃ entry, state.stores.blobs.blobs.lookup hash = some entry ∧
        entry.1.length = maxFrame - 5) := by
  cases limited with
  | true => exact iff_of_true (sendable_error (by decide)) (by rintro ⟨⟨⟩, -⟩)
  | false =>
    cases hlookup : state.stores.blobs.blobs.lookup hash with
    | none =>
      have hsmall : Sendable (.blob none) := sendable_option (by decide)
      simpa [BlobStore.getBlob, hlookup, respond] using hsmall
    | some entry =>
      have hbound := h.blobs hash entry hlookup
      have hlen : (Response.blob (some entry.1)).encode.length = 6 + entry.1.length := by
        rw [Response.encode, length_option, Option.map_some, Option.getD_some]
        omega
      simp only [BlobStore.getBlob, hlookup, Bool.false_eq_true, if_false, Option.map_some,
        respond, Sendable, hlen, Option.some.injEq, exists_eq_left', true_and]
      omega

/-- Every answer can be sent but the one with a blob that is too long. -/
theorem Bounded.sendable_iff (h : Bounded S state) (call : Call)
    (hice : Sendable (.iceConfig call.ice)) :
    Sendable (state.handle S call).1 ↔ ¬ state.AsksTooMuch call := by
  obtain ⟨request, limited, now, ice⟩ := call
  by_cases hblob : ∃ hash, request = .getBlob hash
  · obtain ⟨hash, rfl⟩ := hblob
    refine (h.sendable_getBlob_iff hash limited).trans (not_congr ?_)
    simp only [AsksTooMuch, Request.getBlob.injEq]
    constructor
    · rintro ⟨hlimited, entry, hentry⟩
      exact ⟨hlimited, hash, entry, rfl, hentry⟩
    · rintro ⟨hlimited, _, entry, rfl, hentry⟩
      exact ⟨hlimited, entry, hentry⟩
  · have hother : ¬ state.AsksTooMuch ⟨request, limited, now, ice⟩ := by
      rintro ⟨-, hash, -, hrequest, -⟩
      exact hblob ⟨hash, hrequest⟩
    refine iff_of_true ?_ hother
    cases request with
    | ping => exact (by decide : 1 ≤ maxFrame)
    | getTreeHead =>
      cases limited with
      | true => exact sendable_error (by decide)
      | false =>
        have hlen : (Response.treeHead (UInt64.ofNat (state.ledger.head S).size)
            (state.ledger.head S).root).encode.length = 41 := by
          simp [Response.encode, Writer.u8]
        exact hlen.le.trans (by decide)
    | getRecords start stop => exact h.sendable_records _ _ _
    | submitRecord blob => exact sendable_submitRecord blob
    | deposit blob => exact sendable_deposit blob
    | fetch hints sinceMs => exact sendable_reading (h.sendable_fetch hints sinceMs now)
    | publishPrekeys blob => exact sendable_publishPrekeys blob
    | getPrekeys id => exact (h.getPrekeys id).2
    | publishKeyPackages identity keyPackages sig => exact sendable_publishKeyPackages _
    | getKeyPackage id => exact (h.getKeyPackage id).2
    | putBlob bytes => exact sendable_putBlob bytes
    | getBlob hash => exact absurd ⟨hash, rfl⟩ hblob
    | postToChannel channelId blob identity sig =>
      exact sendable_postToChannel channelId blob identity sig
    | setChannelRoster channelId serverRoot version members sig =>
      exact sendable_setChannelRoster _
    | fetchChannel channelId sinceSeq =>
      exact sendable_reading (h.sendable_fetchChannel channelId sinceSeq)
    | channelHeads channelIds => exact sendable_reading (sendable_channelHeads channelIds)
    | postSignal topic blob =>
      change Sendable (state.postSignal limited topic blob now).1
      unfold RelayState.postSignal
      split
      · exact sendable_error (by decide)
      · split
        · exact sendable_error (by decide)
        · exact sendable_ok
    | fetchSignals topic => exact sendable_reading (h.sendable_signals topic)
    | getIceConfig => exact hice
    | announceP2p addrs =>
      change Sendable (state.announceP2p limited addrs now).1
      unfold RelayState.announceP2p
      split
      · exact sendable_error (by decide)
      · exact sendable_ok
    | getP2pPeers => exact h.sendable_p2pPeers
    | sfuJoin _ _ | sfuIce _ _ _ | sfuPull _ _ | sfuLeave _ _ | unfurlLink _ =>
      exact sendable_error (by decide)

/-- Of a relay that has served any requests that fit a frame, every answer fits a frame, but the
one with a stored blob of the greatest length that a request can bring. -/
theorem answer_sendable_iff (S : Suite) (params : LedgerParams) (cap : Nat) (seed : List String)
    (hseed : (writeStrList seed).length ≤ maxSeedBytes) (calls : List Call)
    (hfits : ∀ call ∈ calls, call.request.encode.length ≤ maxFrame) (call : Call)
    (hice : Sendable (.iceConfig call.ice)) :
    let state := Steps.exec (step S) (new params cap seed) calls
    Sendable (state.handle S call).1 ↔ ¬ state.AsksTooMuch call := by
  have hbounded : Bounded S (Steps.exec (step S) (new params cap seed) calls) :=
    Steps.exec_invariant (Bounded S) (fun _ call h hcall => h.step call hcall)
      (bounded_new params cap hseed) (Steps.along_of_forall hfits)
  exact hbounded.sendable_iff call hice

def sampleCall (request : Request) : Call where
  request := request
  limited := false
  now := 1000
  ice := []

/-- A small blob that was uploaded is sent. -/
theorem answer_sendable_sample :
    let state := Steps.exec (step sampleSuite) (new sampleParams 0 []) [sampleCall (.putBlob [1, 2])]
    state.stores.blobs.blobs.lookup (sampleSuite.sha256 [1, 2]) = some ([1, 2], 1000) ∧
      Sendable (state.handle sampleSuite (sampleCall (.getBlob (sampleSuite.sha256 [1, 2])))).1 := by
  refine ⟨by decide +kernel, ?_⟩
  apply (answer_sendable_iff sampleSuite sampleParams 0 [] (by decide)
    [sampleCall (.putBlob [1, 2])] (by decide) _ (by unfold Sendable; decide)).mpr
  rintro ⟨-, hash, entry, hrequest, hentry, hlen⟩
  cases hrequest
  have hstored : entry = ([1, 2], 1000) := by
    refine Option.some.inj (hentry.symm.trans ?_)
    decide +kernel
  rw [hstored] at hlen
  cases hlen

/-- A first upload is answered with a success, and handed out as it was. -/
theorem getBlob_putBlob_new {blob : Bytes} (hroom : blob.length ≤ blobStoreCap) (now : UInt64) :
    (BlobStore.new.putBlob S blob false now).1 = .ok () ∧
      (BlobStore.new.putBlob S blob false now).2.getBlob (S.sha256 blob) false =
        .ok (some blob) := by
  have hput : BlobStore.new.putBlob S blob false now = (.ok (),
      { blobs := AList.insert (S.sha256 blob) (blob, now) ∅, blobBytes := 0 + blob.length }) := by
    have hfull : ¬ BlobStore.new.blobBytes + blob.length > blobStoreCap := by
      simpa [BlobStore.new] using hroom
    have hfresh : ¬ (BlobStore.new.blobs.lookup (S.sha256 blob)).isSome := by
      simp [BlobStore.new]
    unfold BlobStore.putBlob
    dsimp only
    rw [if_neg (by decide), if_neg hfresh, if_neg hfull]
    rfl
  rw [hput]
  refine ⟨rfl, ?_⟩
  rw [BlobStore.getBlob, if_neg (by decide), AssocMap.lookup_insert, if_pos rfl]
  rfl

/-- Any blob as long as a request can hold is stored, and its answer does not fit. -/
theorem blob_answer_length {blob : Bytes} (hlen : blob.length + 5 = maxFrame) :
    (Request.putBlob blob).encode.length = maxFrame ∧
      ((new sampleParams 0 []).handle S (sampleCall (.putBlob blob))).1 = .ok ∧
      (((new sampleParams 0 []).step S (sampleCall (.putBlob blob))).handle S
        (sampleCall (.getBlob (S.sha256 blob)))).1.encode.length = maxFrame + 1 := by
  have hroom : blob.length ≤ blobStoreCap := by
    have : maxFrame ≤ blobStoreCap := by decide
    omega
  obtain ⟨hput, hget⟩ := getBlob_putBlob_new (S := S) hroom 1000
  refine ⟨?_, congrArg (respond fun _ => Response.ok) hput, ?_⟩
  · rw [Request.encode, List.length_append, Writer.length_bytes, Writer.u8, List.length_singleton]
    omega
  · change (respond Response.blob ((BlobStore.new.putBlob S blob false 1000).2.getBlob
      (S.sha256 blob) false)).encode.length = _
    rw [hget, respond, Response.encode, length_option, Option.map_some, Option.getD_some]
    omega

theorem answer_too_long :
    let blob : Bytes := List.replicate 8388603 0
    let relay := new sampleParams 0 []
    (Request.putBlob blob).encode.length = maxFrame ∧
      (relay.handle sampleSuite (sampleCall (.putBlob blob))).1 = .ok ∧
      ((relay.step sampleSuite (sampleCall (.putBlob blob))).handle sampleSuite
        (sampleCall (.getBlob (sampleSuite.sha256 blob)))).1.encode.length = maxFrame + 1 :=
  blob_answer_length (congrArg (· + 5) List.length_replicate)

end RelayState

end Dante.Relay
