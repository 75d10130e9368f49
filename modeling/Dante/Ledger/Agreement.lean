import Dante.Ledger.Index
import Dante.Proto.MerkleInclusion

/-!
What a tree head says about the ledger behind it. The indexes take nothing from outside: the
clock decides whether a record is accepted, and the record alone decides what it does. So the log
determines the ledger, and the head determines the log.
-/

namespace Dante

open Crypto Merkle

/-- Trees of one size with the same root are trees over the same entries. -/
theorem Merkle.eq_of_root (sha256 : Bytes → Hash) (olds news : List Bytes)
    (hfree : CollisionFree sha256 (consistencyInputs sha256 olds news []))
    (hlen : olds.length = news.length)
    (hroot : root sha256 (olds.map (leafHash sha256)) = root sha256 (news.map (leafHash sha256))) :
    olds = news := by
  have hsep := separated_of_collisionFree sha256 (olds ++ news) _ hfree
  have hleaves := hsep.root_injective (by simpa using hlen)
    ⟨fun p hp => by simp [hp], fun x hx => by simp_all⟩
    ⟨fun p hp => by simp [hp], fun x hx => by simp_all⟩ hroot
  refine List.ext_getElem hlen fun i hi hi' => ?_
  have heq := List.getElem_of_eq hleaves (i := i) (by simpa using hi)
  simp only [List.getElem_map, leafHash_eq] at heq
  have hinput := hfree _ (List.mem_append_left _ (List.mem_map_of_mem (by simp))) _
    (List.mem_append_left _ (List.mem_map_of_mem (by simp))) heq
  exact List.tail_eq_of_cons_eq hinput

namespace Ledger

variable {S : Suite} {L L' L₁ L₂ : Ledger} {record : Record}

theorem Accepted.unique (h₁ : Accepted S L record L₁) (h₂ : Accepted S L record L₂) : L₁ = L₂ := by
  -- the kind of the record tells the steps apart, and a key has one chain
  cases h₁ <;> cases h₂ <;> grind [Tombstone.toRecord, Tombstone.toRecord_injective, TipOf]

/-- By induction on the log, from its end: the last records are equal, and so are the ledgers
before them. -/
theorem Reaches.eq_of_store (hL : KeysIndexed L) (h₁ : Reaches S L L₁) (h₂ : Reaches S L L₂)
    (hstore : L₁.store = L₂.store) : L₁ = L₂ := by
  induction h₁ generalizing L₂ with
  | refl =>
    cases h₂ with
    | refl => rfl
    | tail hreach hlast =>
      obtain ⟨record, haccepted⟩ := hlast
      have hle := (Reaches.later hreach hL).store.length_le
      simp [hstore, haccepted.log.1] at hle
  | tail hreach hlast ih =>
    obtain ⟨record, haccepted⟩ := hlast
    cases h₂ with
    | refl =>
      have hle := (Reaches.later hreach hL).store.length_le
      simp [← hstore, haccepted.log.1] at hle
    | tail hreach' hlast' =>
      obtain ⟨record', haccepted'⟩ := hlast'
      rw [haccepted.log.1, haccepted'.log.1] at hstore
      obtain ⟨hsame, hlast⟩ := List.append_inj' hstore rfl
      obtain rfl := ih hreach' hsame
      obtain rfl := List.singleton_inj.mp hlast
      exact haccepted.unique haccepted'

theorem leaves_run (S : Suite) (params : LedgerParams) (ops : List Op) :
    (run S params ops).leaves =
      ((run S params ops).store.map Record.encode).map (leafHash S.sha256) := by
  rw [(logged_run S params ops).leaves, List.map_map]
  rfl

/-- Two replicas that show the same tree head are in the same state, whatever they were sent, in
whatever order, by whatever clock. -/
theorem run_eq_of_head (S : Suite) (params : LedgerParams) (ops ops' : List Op)
    (hfree : CollisionFree S.sha256 (consistencyInputs S.sha256
      ((run S params ops).store.map Record.encode) ((run S params ops').store.map Record.encode) []))
    (hhead : (run S params ops).head S = (run S params ops').head S) :
    run S params ops = run S params ops' := by
  have hnew := KeysIndexed.new params
  apply Reaches.eq_of_store hnew (reaches_exec hnew ops) (reaches_exec hnew ops')
  apply List.map_injective_iff.mpr @Record.encode_injective
  obtain ⟨hsize, hroot⟩ := TreeHead.mk.inj hhead
  rw [leaves_run, leaves_run] at hsize hroot
  exact eq_of_root S.sha256 _ _ hfree (by simpa using hsize) hroot

/-- One replica is offered the record twice, the other later and once. -/
theorem run_eq_of_head_announced :
    let record := sampleAnnounce (sampleKey 1) 1000
    run sampleSuite sampleParams [.append record 1000, .append record 1000] =
      run sampleSuite sampleParams [.append record 5000] :=
  run_eq_of_head sampleSuite sampleParams _ _ (by decide +kernel) (by decide +kernel)

/-- The position of the record with this id, and its audit path. -/
def inclusionProof (L : Ledger) (S : Suite) (id : RecordId) : Option (Nat × List Hash) := do
  let index ← L.byId.lookup id
  let path ← Merkle.inclusionProof S.sha256 index L.leaves
  return (index, path)

theorem idsIndexed_run (S : Suite) (params : LedgerParams) (ops : List Op) :
    IdsIndexed S (run S params ops) := by
  refine (run_induction (fun L => Logged S L ∧ IdsIndexed S L) params ops
    ⟨Logged.new S params, fun _ => .nil _⟩ ?_).2
  rintro L L' record hstep hL ⟨hlogged, hindexed⟩
  exact ⟨hstep.logged hL hlogged, hstep.idsIndexed hL hlogged hindexed⟩

/-- The ledger has an audit path for every record of its log and for no other, and the path leads
to its tree head. -/
theorem inclusionProof_run (S : Suite) (params : LedgerParams) (ops : List Op) (record : Record)
    (hfree : CollisionFree S.sha256 (record.encode :: (run S params ops).store.map Record.encode))
    (index : Nat) :
    let L := run S params ops
    L.store[index]? = some record ↔ ∃ path, L.inclusionProof S (record.id S) = some (index, path) ∧
      verifyInclusion S.sha256 index (L.head S).size (leafHash S.sha256 record.encode) path
        (L.head S).root = true := by
  have hids := idsIndexed_run S params ops (hfree.subset _ fun _ => List.mem_cons_of_mem _)
  have hleaves := (logged_run S params ops).leaves
  intro L
  constructor
  · intro hstore
    obtain ⟨hindex, hget⟩ := List.getElem?_eq_some_iff.mp hstore
    have hlen : index < L.leaves.length := by simpa [L, hleaves] using hindex
    have hleaf : L.leaves[index] = leafHash S.sha256 record.encode := by simp [L, hleaves, hget]
    obtain ⟨path, hproof, hroot⟩ := @rootFromInclusion_inclusionProof S.sha256 _ _ hlen
    have hlookup := (hids _ _).mpr ⟨record, hstore, rfl⟩
    exact ⟨path, by simp [inclusionProof, L, hlookup, hproof],
      by simp [verifyInclusion, head, ← hleaf, hroot]⟩
  · rintro ⟨path, hproof, -⟩
    obtain ⟨_, hlookup, hproof⟩ := Option.bind_eq_some_iff.mp hproof
    obtain ⟨_, -, hpair⟩ := Option.bind_eq_some_iff.mp hproof
    cases hpair
    obtain ⟨found, hfound, hid⟩ := (hids _ _).mp hlookup
    have hmem := List.mem_map_of_mem (f := Record.encode) (List.mem_of_getElem? hfound)
    have hsame := hfree _ (List.mem_cons_of_mem _ hmem) _ List.mem_cons_self hid
    rwa [← Record.encode_injective hsame]

theorem inclusionProof_announced :
    let record := sampleAnnounce (sampleKey 1) 1000
    let L := run sampleSuite sampleParams [.append record 1000]
    L.store[0]? = some record ↔ ∃ path,
      L.inclusionProof sampleSuite (record.id sampleSuite) = some (0, path) ∧
        verifyInclusion sampleSuite.sha256 0 (L.head sampleSuite).size
          (leafHash sampleSuite.sha256 record.encode) path (L.head sampleSuite).root = true :=
  inclusionProof_run sampleSuite sampleParams _ _ (by decide +kernel) 0

end Ledger

end Dante
