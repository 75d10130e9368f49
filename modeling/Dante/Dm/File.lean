import Dante.Dm.Content
import Dante.Dm.Ratchet
import Dante.Identity.Identity
import Dante.Library.Chunks

/-!
Encrypted file transfer. A file is cut into chunks, each sealed under one random key and a
nonce made of its index; the signed manifest lists the hashes of the ciphertexts. The file
key that `random_array` returns is an argument.
-/

namespace Dante.Dm

open Crypto Enc Except

def chunkSize : Nat := 64 * 1024

def manifestSigDomain : Bytes := "dante/file-manifest/v1".toUTF8.toList

def chunkNonceDomain : Bytes := "dante-file-chunk".toUTF8.toList

namespace FileManifest

theorem length_nonceBytes (index : UInt32) :
    (chunkNonceDomain ++ [0, 0, 0, 0] ++ Writer.u32 index).length = 24 := by
  rw [List.length_append, Writer.u32, BigEndian.encode_length]
  decide +kernel

/-- The domain, four zero bytes and the index. -/
def chunkNonce (index : UInt32) : ByteArr 24 :=
  .ofList (chunkNonceDomain ++ [0, 0, 0, 0] ++ Writer.u32 index) (length_nonceBytes index)

section Model

variable (P : Primitives) (S : Suite)

def sigChallenge (fileKey : Key) (filename : String) (totalSize : UInt64) (chunkSize : UInt32)
    (chunkHashes : List Hash) : Hash :=
  S.sha256 (manifestSigDomain ++ Writer.fixed fileKey ++ Writer.string filename ++
    Writer.u64 totalSize ++ Writer.u32 chunkSize ++
    Writer.u32 (UInt32.ofNat chunkHashes.length) ++ chunkHashes.flatMap Writer.fixed)

/-- The sealed chunks from index `i` on. -/
def sealFrom (fileKey : Key) : Nat → List Bytes → List Bytes
  | _, [] => []
  | i, part :: parts =>
    P.xchachaSeal fileKey (chunkNonce (UInt32.ofNat i)) part [] :: sealFrom fileKey (i + 1) parts

def build (sender : Identity S) (filename : String) (plaintext : Bytes) (fileKey : Key) :
    FileManifest × List Bytes :=
  let chunks := sealFrom P fileKey 0 (plaintext.chunks Dm.chunkSize)
  let totalSize := UInt64.ofNat plaintext.length
  let chunkSize := UInt32.ofNat Dm.chunkSize
  let chunkHashes := chunks.map S.sha256
  ({ fileKey := fileKey
     filename := filename
     totalSize := totalSize
     chunkSize := chunkSize
     chunkHashes := chunkHashes
     senderIdk := sender.idk
     sig := sender.sign (sigChallenge S fileKey filename totalSize chunkSize chunkHashes).toList },
    chunks)

variable (manifest : FileManifest)

def verify : Except DmError Unit := do
  let key ← (SignPublic.fromBytes S manifest.senderIdk).mapError fun _ => .fileIntegrity
  (key.verify (sigChallenge S manifest.fileKey manifest.filename manifest.totalSize
    manifest.chunkSize manifest.chunkHashes).toList manifest.sig).mapError fun _ => .fileIntegrity

/-- The loop of `reassemble` from index `i` on: each chunk against its hash, then opened. -/
def openFrom (fileKey : Key) : Nat → List Bytes → List Hash → Except DmError Bytes
  | _, [], _ => .ok []
  | _, _ :: _, [] => .error .fileIntegrity
  | i, ct :: cts, hash :: hashes => do
    refuseIf (S.sha256 ct ≠ hash) .fileIntegrity
    let part ← okOr (P.xchachaOpen fileKey (chunkNonce (UInt32.ofNat i)) ct []) .fileIntegrity
    let rest ← openFrom fileKey (i + 1) cts hashes
    return part ++ rest

def ciphertextLen (chunks : List Bytes) : UInt64 :=
  chunks.foldr (fun chunk total => UInt64.ofNat chunk.length + total) 0

def reassemble (chunks : List Bytes) : Except DmError Bytes := do
  manifest.verify S
  refuseIf (chunks.length ≠ manifest.chunkHashes.length) .fileIntegrity
  refuseIf (manifest.totalSize > ciphertextLen chunks) .fileIntegrity
  let out ← openFrom P S manifest.fileKey 0 chunks manifest.chunkHashes
  refuseIf (UInt64.ofNat out.length ≠ manifest.totalSize) .fileIntegrity
  return out

end Model

/-- What file transfer needs of the cipher: opening inverts sealing, and a ciphertext is its
plaintext with a tag of a fixed length. -/
structure AppendsTag (P : Primitives) (tagLen : Nat) : Prop where
  open_seal : ∀ key nonce plaintext aad,
    P.xchachaOpen key nonce (P.xchachaSeal key nonce plaintext aad) aad = some plaintext
  length_seal : ∀ key nonce plaintext aad,
    (P.xchachaSeal key nonce plaintext aad).length = plaintext.length + tagLen

variable {P : Primitives} {S : Suite}

theorem openFrom_sealFrom {tagLen : Nat} (hP : AppendsTag P tagLen) (fileKey : Key) (i : Nat)
    (parts : List Bytes) :
    openFrom P S fileKey i (sealFrom P fileKey i parts)
      ((sealFrom P fileKey i parts).map S.sha256) = .ok parts.flatten := by
  induction parts generalizing i with
  | nil => rfl
  | cons part parts ih =>
    rw [sealFrom, List.map_cons, openFrom, hP.open_seal, ih]
    simp [refuseIf, okOr, bind, Except.bind, pure, Except.pure]

/-- The loop only comes to its end on chunks with the listed hashes. -/
theorem hashes_of_openFrom {fileKey : Key} {i : Nat} {chunks : List Bytes} {hashes : List Hash}
    {out : Bytes} (hlen : chunks.length = hashes.length)
    (hopen : openFrom P S fileKey i chunks hashes = .ok out) : chunks.map S.sha256 = hashes := by
  induction chunks generalizing i hashes out with
  | nil =>
    rw [List.length_nil, eq_comm, List.length_eq_zero_iff] at hlen
    rw [hlen, List.map_nil]
  | cons ct cts ih =>
    cases hashes with
    | nil => cases hlen
    | cons hash hashes =>
      simp only [openFrom, bind_eq_ok, refuseIf_eq_ok, not_not] at hopen
      obtain ⟨-, hhash, -, -, rest, hrest, -⟩ := hopen
      rw [List.map_cons, hhash, ih (by simpa using hlen) hrest]

/-- Two lists with the same hashes are one list. -/
theorem eq_of_map_sha256_eq {left right : List Bytes}
    (hfree : CollisionFree S.sha256 (left ++ right))
    (hmap : left.map S.sha256 = right.map S.sha256) : left = right := by
  induction left generalizing right with
  | nil =>
    rw [List.map_nil, eq_comm, List.map_eq_nil_iff] at hmap
    exact hmap.symm
  | cons x left ih =>
    cases right with
    | nil => cases hmap
    | cons y right =>
      obtain ⟨hhead, htail⟩ := List.cons.inj hmap
      have hxy : x = y := hfree x (by simp) y (by simp) hhead
      have hrest : left = right := by
        refine ih (hfree.subset _ ?_) htail
        intro z hz
        rcases List.mem_append.mp hz with hleft | hright
        · simp [hleft]
        · simp [hright]
      rw [hxy, hrest]

theorem sum_length_sealFrom {tagLen : Nat} (hP : AppendsTag P tagLen) (fileKey : Key) (i : Nat)
    (parts : List Bytes) :
    ((sealFrom P fileKey i parts).map List.length).sum =
      parts.flatten.length + parts.length * tagLen := by
  induction parts generalizing i with
  | nil => simp [sealFrom]
  | cons part parts ih =>
    rw [sealFrom, List.map_cons, List.sum_cons, ih, hP.length_seal, List.flatten_cons,
      List.length_append, List.length_cons]
    ring

theorem toNat_ciphertextLen {chunks : List Bytes}
    (hsmall : (chunks.map List.length).sum < 2 ^ 64) :
    (ciphertextLen chunks).toNat = (chunks.map List.length).sum := by
  unfold ciphertextLen
  induction chunks with
  | nil => rfl
  | cons chunk chunks ih =>
    rw [List.map_cons, List.sum_cons] at hsmall ⊢
    rw [List.foldr_cons, UInt64.toNat_add, ih (by omega), UInt64.toNat_ofNat']
    omega

theorem verify_build (sender : Identity S) (filename : String) (plaintext : Bytes) (fileKey : Key) :
    (build P S sender filename plaintext fileKey).1.verify S = .ok () := by
  obtain ⟨hkey, hsig⟩ := sender.sign_verifies (sigChallenge S fileKey filename
    (UInt64.ofNat plaintext.length) (UInt32.ofNat Dm.chunkSize)
    ((sealFrom P fileKey 0 (plaintext.chunks Dm.chunkSize)).map S.sha256)).toList
  have hfrom : SignPublic.fromBytes S sender.idk = .ok ⟨sender.idk, hkey⟩ :=
    SignPublic.fromBytes_eq_ok.mpr rfl
  simp only [verify, build, bind_eq_ok, mapError_eq_ok]
  exact ⟨_, hfrom, SignPublic.verify_eq_ok.mpr hsig⟩

/-- The pre-check lets the honest chunks through: they are longer than the file, and their
total does not overflow. -/
theorem totalSize_le_ciphertextLen {tagLen : Nat} (hP : AppendsTag P tagLen)
    (htag : tagLen ≤ Dm.chunkSize) {plaintext : Bytes}
    (hcount : (plaintext.chunks Dm.chunkSize).length ≤ 2 ^ 32) (fileKey : Key) :
    UInt64.ofNat plaintext.length ≤
      ciphertextLen (sealFrom P fileKey 0 (plaintext.chunks Dm.chunkSize)) := by
  have hpos : 0 < Dm.chunkSize := by decide
  have hlen := List.length_le_chunks_mul hpos plaintext
  have hsize : (plaintext.chunks Dm.chunkSize).length * Dm.chunkSize ≤ 2 ^ 32 * 2 ^ 16 :=
    Nat.mul_le_mul hcount (by decide)
  have htags : (plaintext.chunks Dm.chunkSize).length * tagLen ≤ 2 ^ 32 * 2 ^ 16 :=
    Nat.mul_le_mul hcount (htag.trans (by decide))
  have hsum := sum_length_sealFrom hP fileKey 0 (plaintext.chunks Dm.chunkSize)
  rw [List.flatten_chunks hpos] at hsum
  rw [UInt64.le_iff_toNat_le, toNat_ciphertextLen (by omega), hsum, UInt64.toNat_ofNat']
  omega

/-- A file comes back from its chunks, and from no other list of chunks. -/
theorem reassemble_build {tagLen : Nat} (hP : AppendsTag P tagLen) (htag : tagLen ≤ Dm.chunkSize)
    (sender : Identity S) (filename : String) (plaintext : Bytes) (fileKey : Key)
    (hcount : (plaintext.chunks Dm.chunkSize).length ≤ 2 ^ 32) :
    let built := build P S sender filename plaintext fileKey
    built.1.reassemble P S built.2 = .ok plaintext ∧
      ∀ chunks out, CollisionFree S.sha256 (chunks ++ built.2) →
        built.1.reassemble P S chunks = .ok out → chunks = built.2 := by
  have hverify := verify_build (P := P) sender filename plaintext fileKey
  refine ⟨?_, ?_⟩
  · simp only [reassemble, bind_eq_ok, refuseIf_eq_ok, not_not, pure_eq_ok]
    refine ⟨(), hverify, (), ?_, (), ?_, plaintext, ?_, (), rfl, rfl⟩
    · simp only [build, List.length_map]
    · exact UInt64.not_lt.mpr (totalSize_le_ciphertextLen hP htag hcount fileKey)
    · simp only [build]
      rw [openFrom_sealFrom hP, List.flatten_chunks (by decide)]
  · intro chunks out hfree hok
    simp only [reassemble, bind_eq_ok, refuseIf_eq_ok, not_not] at hok
    obtain ⟨-, -, -, hlen, -, -, opened, hopen, -⟩ := hok
    exact eq_of_map_sha256_eq hfree (hashes_of_openFrom hlen hopen)

theorem samplePrimitives_appendsTag : AppendsTag samplePrimitives 32 where
  open_seal := samplePrimitives_honest.open_seal
  length_seal key nonce plaintext aad := by
    simp [samplePrimitives, (sampleTag key nonce plaintext aad).length_toList]

theorem reassemble_build_sample :
    let built := build samplePrimitives sampleSuite
      (sampleIdentity (.fill 32 1) (.fill 32 2)) "a.txt" [1, 2, 3] (.fill 32 3)
    built.1.reassemble samplePrimitives sampleSuite built.2 = .ok [1, 2, 3] ∧
      ∀ out, built.1.reassemble samplePrimitives sampleSuite [[1, 2, 3]] ≠ .ok out := by
  obtain ⟨hback, honly⟩ := reassemble_build samplePrimitives_appendsTag (by decide)
    (sampleIdentity (.fill 32 1) (.fill 32 2)) "a.txt" [1, 2, 3] (.fill 32 3) (by decide)
  refine ⟨hback, ?_⟩
  intro out hok
  have heq := honly [[1, 2, 3]] out (by decide +kernel) hok
  revert heq
  decide +kernel

end FileManifest

end Dante.Dm
