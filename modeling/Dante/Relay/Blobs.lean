import Dante.Relay.Channels

/-!
The relay's blob store: file chunks by their SHA-256, each kept for a week. An upload of
content that is already there is answered like any other, but the store keeps the one entry
with the time of the first upload.
-/

namespace Dante.Relay

open Crypto

def blobStoreCap : Nat := 128 * 1024 * 1024

structure BlobStore where
  /-- The bytes and the time they were stored. -/
  blobs : AssocMap Hash (Bytes × UInt64)
  blobBytes : Nat

/-- A request or a housekeeping run at a time; `other` is any request that does not concern
blobs. The rate limiter's verdict is part of the request. -/
inductive BlobOp where
  | put (bytes : Bytes) (limited : Bool) (now : UInt64)
  | get (hash : Hash) (limited : Bool) (now : UInt64)
  | maintain (now : UInt64)
  | other (now : UInt64)

def BlobOp.time : BlobOp → UInt64
  | put _ _ now | get _ _ now | maintain now | other now => now

/-- The bytes that an operation hashes. -/
def BlobOp.content : BlobOp → Option Bytes
  | put bytes _ _ => some bytes
  | _ => none

namespace BlobStore

variable {entry : Bytes × UInt64} {bytes : Bytes} {now : UInt64}

def new : BlobStore where
  blobs := ∅
  blobBytes := 0

variable (S : Suite) (store : BlobStore)

def putBlob (bytes : Bytes) (limited : Bool) (now : UInt64) : Except String Unit × BlobStore :=
  if limited then (.error "rate limited", store)
  else
    let hash := S.sha256 bytes
    if (store.blobs.lookup hash).isSome then (.ok (), store)
    else if store.blobBytes + bytes.length > blobStoreCap then (.error "blob store full", store)
    else
      (.ok (), { blobs := store.blobs.insert hash (bytes, now)
                 blobBytes := store.blobBytes + bytes.length })

def getBlob (hash : Hash) (limited : Bool) : Except String (Option Bytes) :=
  if limited then .error "rate limited" else .ok ((store.blobs.lookup hash).map Prod.fst)

def unexpired (now : UInt64) (entry : Bytes × UInt64) : Bool :=
  saturatingSub now entry.2 ≤ blobTtlMs

def maintain (now : UInt64) : BlobStore where
  blobs := AssocMap.filterMapValues
    (fun entry => if unexpired now entry then some entry else none) store.blobs
  blobBytes := store.blobBytes -
    ((store.blobs.values.filter fun entry => !unexpired now entry).map fun entry =>
      entry.1.length).sum

def step (store : BlobStore) (op : BlobOp) : BlobStore :=
  match op with
  | .put bytes limited now => (store.putBlob S bytes limited now).2
  | .get _ _ _ | .other _ => store
  | .maintain now => store.maintain now

/-- An upload brings new content, or content that was stored at no earlier time. -/
def FreshUpload (store : BlobStore) (op : BlobOp) : Prop :=
  match op with
  | .put bytes _ now => ∀ entry, store.blobs.lookup (S.sha256 bytes) = some entry → now ≤ entry.2
  | _ => True

variable {S store}

/-- Every entry was uploaded and stands under its hash. -/
def Hashed (S : Suite) (uploads : List Bytes) (store : BlobStore) : Prop :=
  ∀ hash entry, store.blobs.lookup hash = some entry →
    hash = S.sha256 entry.1 ∧ entry.1 ∈ uploads

theorem lookup_maintain {hash : Hash} :
    (store.maintain now).blobs.lookup hash = some entry ↔
      store.blobs.lookup hash = some entry ∧ unexpired now entry = true := by
  rw [maintain, AssocMap.lookup_filterMapValues, Option.bind_eq_some_iff]
  constructor
  · rintro ⟨found, hfound, hkeep⟩
    split at hkeep
    · rename_i hun
      cases hkeep
      exact ⟨hfound, hun⟩
    · cases hkeep
  · rintro ⟨hfound, hun⟩
    exact ⟨entry, hfound, if_pos hun⟩

theorem lookup_putBlob {limited : Bool} {hash : Hash}
    (h : (store.putBlob S bytes limited now).2.blobs.lookup hash = some entry) :
    store.blobs.lookup hash = some entry ∨
      hash = S.sha256 bytes ∧ entry = (bytes, now) ∧ store.blobs.lookup hash = none := by
  unfold putBlob at h
  cases limited with
  | true => exact Or.inl h
  | false =>
    cases hfound : store.blobs.lookup (S.sha256 bytes) with
    | some found =>
      simp only [hfound, Option.isSome_some, Bool.false_eq_true, if_false, if_true] at h
      exact Or.inl h
    | none =>
      simp only [hfound, Option.isSome_none, Bool.false_eq_true, if_false] at h
      split at h
      · exact Or.inl h
      · rw [AssocMap.lookup_insert] at h
        split at h
        · rename_i heq
          exact Or.inr ⟨heq, (Option.some.inj h).symm, by rw [heq, hfound]⟩
        · exact Or.inl h

theorem lookup_putBlob_of_some (bytes : Bytes) (limited : Bool) (now : UInt64) {hash : Hash}
    (h : store.blobs.lookup hash = some entry) :
    (store.putBlob S bytes limited now).2.blobs.lookup hash = some entry := by
  unfold putBlob
  split
  · exact h
  · dsimp only
    split
    · exact h
    · rename_i hnew
      split
      · exact h
      · rw [AssocMap.lookup_insert, if_neg]
        · exact h
        · rintro rfl
          rw [h] at hnew
          exact hnew rfl

theorem lookup_of_putBlob_ok {limited : Bool} (hok : (store.putBlob S bytes limited now).1 = .ok ()) :
    (∃ entry, store.blobs.lookup (S.sha256 bytes) = some entry) ∨
      (store.putBlob S bytes limited now).2.blobs.lookup (S.sha256 bytes) = some (bytes, now) := by
  unfold putBlob at hok ⊢
  split at hok
  · cases hok
  · rename_i hlimited
    dsimp only at hok ⊢
    rw [if_neg hlimited]
    split at hok
    · rename_i hfound
      exact Or.inl (Option.isSome_iff_exists.mp hfound)
    · rename_i hnew
      rw [if_neg hnew]
      split at hok
      · cases hok
      · rename_i hroom
        rw [if_neg hroom, AssocMap.lookup_insert, if_pos rfl]
        exact Or.inr rfl

theorem Hashed.step {uploads : List Bytes} (h : store.Hashed S uploads) {op : BlobOp}
    (hop : ∀ bytes, op.content = some bytes → bytes ∈ uploads) :
    (store.step S op).Hashed S uploads := by
  intro hash entry hlookup
  cases op with
  | put bytes limited now =>
    rcases lookup_putBlob hlookup with hold | ⟨hhash, hentry, -⟩
    · exact h hash entry hold
    · rw [hentry]
      exact ⟨hhash, hop bytes rfl⟩
  | get requested limited now => exact h hash entry hlookup
  | maintain now => exact h hash entry (lookup_maintain.mp hlookup).1
  | other now => exact h hash entry hlookup

/-- The content is stored, from the time `since` on or later. -/
def Holds (S : Suite) (bytes : Bytes) (since : UInt64) (store : BlobStore) : Prop :=
  ∃ stored, store.blobs.lookup (S.sha256 bytes) = some (bytes, stored) ∧ since ≤ stored

theorem Holds.step {since : UInt64} (h : store.Holds S bytes since) {op : BlobOp}
    (htime : op.time.toNat ≤ since.toNat + blobTtlMs.toNat) :
    (store.step S op).Holds S bytes since := by
  obtain ⟨stored, hlookup, hsince⟩ := h
  refine ⟨stored, ?_, hsince⟩
  cases op with
  | put other limited now => exact lookup_putBlob_of_some other limited now hlookup
  | get requested limited now => exact hlookup
  | maintain now =>
    have hage : unexpired now (bytes, stored) = true := by
      rw [unexpired, decide_eq_true_eq, UInt64.le_iff_toNat_le, saturatingSub_toNat]
      have hle := UInt64.le_iff_toNat_le.mp hsince
      simp only [BlobOp.time] at htime ⊢
      omega
    exact lookup_maintain.mpr ⟨hlookup, hage⟩
  | other now => exact hlookup

/-- A fresh upload that is acknowledged holds its content from its own time on. -/
theorem Holds.of_putBlob {uploads : List Bytes} (hhashed : store.Hashed S uploads)
    (hfree : CollisionFree S.sha256 uploads) (hmem : bytes ∈ uploads) {limited : Bool}
    (hfresh : store.FreshUpload S (.put bytes limited now))
    (hok : (store.putBlob S bytes limited now).1 = .ok ()) :
    (store.putBlob S bytes limited now).2.Holds S bytes now := by
  rcases lookup_of_putBlob_ok hok with ⟨entry, hentry⟩ | hnew
  · obtain ⟨hhash, hup⟩ := hhashed _ entry hentry
    have hbytes : bytes = entry.1 := hfree bytes hmem entry.1 hup hhash
    refine ⟨entry.2, ?_, hfresh entry hentry⟩
    rw [lookup_putBlob_of_some bytes limited now hentry, hbytes]
  · exact ⟨now, hnew, UInt64.le_refl now⟩

end BlobStore

open BlobStore

/-- In a run without late uploads of stored content, what an upload was acknowledged for can be
fetched for the whole time to live. -/
theorem blob_durable_run (S : Suite) {before between : List BlobOp} {bytes : Bytes} {limited : Bool}
    {put : UInt64} (fetched : UInt64)
    (hclock : ((before ++ .put bytes limited put :: between).map BlobOp.time ++ [fetched]).Pairwise
      (· ≤ ·))
    (hfree : CollisionFree S.sha256
      ((before ++ .put bytes limited put :: between).filterMap BlobOp.content))
    (hfresh : Steps.Along (step S) (FreshUpload S) new
      (before ++ .put bytes limited put :: between))
    (hok : ((Steps.exec (step S) new before).putBlob S bytes limited put).1 = .ok ())
    (hlate : fetched.toNat ≤ put.toNat + blobTtlMs.toNat) :
    (Steps.exec (step S) new (before ++ .put bytes limited put :: between)).getBlob
      (S.sha256 bytes) false = .ok (some bytes) := by
  obtain ⟨hbefore, hput, -⟩ := Steps.along_append.mp hfresh
  have huploads (op : BlobOp) (hop : op ∈ before ++ .put bytes limited put :: between)
      (content : Bytes) (hcontent : op.content = some content) :
      content ∈ (before ++ .put bytes limited put :: between).filterMap BlobOp.content :=
    List.mem_filterMap.mpr ⟨op, hop, hcontent⟩
  have hmem : BlobOp.put bytes limited put ∈ before ++ .put bytes limited put :: between := by
    simp
  -- up to the upload every entry stands under its own hash
  have hhashed : (Steps.exec (step S) new before).Hashed S
      ((before ++ .put bytes limited put :: between).filterMap BlobOp.content) := by
    have hops : Steps.Along (step S)
        (fun _ op => op ∈ before ++ .put bytes limited put :: between) new before :=
      Steps.along_of_forall fun op hop => List.mem_append_left _ hop
    refine Steps.exec_invariant (Hashed S _) (fun store op h hop => h.step (huploads op hop)) ?_ hops
    intro hash entry hlookup
    cases hlookup
  have hheld := Holds.of_putBlob hhashed hfree (huploads _ hmem bytes rfl) hput hok
  -- and from then on the content stays
  have htimes : ∀ op ∈ between, op.time.toNat ≤ put.toNat + blobTtlMs.toNat := by
    intro op hop
    have hle : op.time ≤ fetched := by
      have hall := (List.pairwise_append.mp hclock).2.2
      exact hall op.time (List.mem_map_of_mem (by simp [hop])) fetched (by simp)
    have := UInt64.le_iff_toNat_le.mp hle
    omega
  have hend : (Steps.exec (step S) new (before ++ .put bytes limited put :: between)).Holds S bytes
      put := by
    rw [Steps.exec_append, Steps.exec_cons]
    have hops : Steps.Along (step S) (fun _ op => op.time.toNat ≤ put.toNat + blobTtlMs.toNat)
        (((Steps.exec (step S) new before).putBlob S bytes limited put).2) between :=
      Steps.along_of_forall htimes
    exact Steps.exec_invariant (Holds S bytes put) (fun store op h hop => h.step hop) hheld hops
  obtain ⟨stored, hlookup, -⟩ := hend
  simp [getBlob, hlookup]

/-- A chunk is uploaded, housekeeping runs, and the chunk is fetched. -/
theorem blob_durable_sample :
    (Steps.exec (step sampleSuite) new
      ([.other 5] ++ .put [1, 2, 3] false 10 :: [.maintain 604800000])).getBlob
      (sampleSuite.sha256 [1, 2, 3]) false = .ok (some [1, 2, 3]) :=
  blob_durable_run sampleSuite 604800010 (by decide) (by decide)
    (Steps.along_append.mpr
      ⟨⟨trivial, trivial⟩, fun entry hentry => absurd hentry (by simp [Steps.exec, step, new]),
        trivial, trivial⟩)
    (by decide +kernel) (by decide)

/-- The second upload is acknowledged at time 10, but housekeeping counts from the first one. -/
theorem reupload_expires_early :
    ((Steps.exec (step sampleSuite) new [.put [1, 2, 3] false 0]).putBlob sampleSuite [1, 2, 3]
        false 10).1 = .ok () ∧
      (604800005 : UInt64).toNat ≤ (10 : UInt64).toNat + blobTtlMs.toNat ∧
      (Steps.exec (step sampleSuite) new
        [.put [1, 2, 3] false 0, .put [1, 2, 3] false 10, .maintain 604800005]).getBlob
        (sampleSuite.sha256 [1, 2, 3]) false = .ok none := by
  refine ⟨?_, by decide, ?_⟩
  · decide +kernel
  · decide +kernel

end Dante.Relay
