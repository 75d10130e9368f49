import Dante.Core.Joining

/-!
The supply of key packages. The loop that makes them counts each one twice, so that it stops
half-way to the target; and a package stays with the client also if the relay has refused it, and
counts like one that others can use.
-/

namespace Dante.Core

open Crypto Dm

/-- A package that the client holds, and whether the relay has accepted it. -/
structure Package (Pending : Type) where
  pending : Pending
  accepted : Bool

section Pool

variable {Pending : Type}

/-- The loop of `refresh_mls_key_package`, with the number of packages held before it. Each turn
adds a package to the held ones and to the fresh ones. -/
def topUp (make : Nat → Except String Pending) (held : Nat) (fresh : List Pending) :
    Except String Unit × List Pending :=
  if held + fresh.length + fresh.length < mlsKeypkgPool then
    match make fresh.length with
    | .error e => (.error e, fresh)
    | .ok package => topUp make held (fresh ++ [package])
  else (.ok (), fresh)
termination_by mlsKeypkgPool - fresh.length

def refreshPool (make : Nat → Except String Pending) (sent : Reply)
    (pool : List (Package Pending)) : Except String Unit × List (Package Pending) :=
  let (made, fresh) := topUp make pool.length []
  match made with
  | .error e => (.error e, pool ++ fresh.map fun package => ⟨package, false⟩)
  | .ok () =>
    let pool := pool ++ fresh.map fun package => ⟨package, sent.effective⟩
    if fresh ≠ [] ∧ sent ≠ .done then (.error "publish failed", pool)
    else (.ok (), pool.drop (pool.length - 2 * mlsKeypkgPool))

/-- The packages that can bring the client into a group: held, and known to the relay. -/
def usable (pool : List (Package Pending)) : List (Package Pending) :=
  pool.filter Package.accepted

theorem topUp_length {make : Nat → Except String Pending} {held : Nat} {fresh result : List Pending}
    (h : topUp make held fresh = (.ok (), result)) : mlsKeypkgPool ≤ held + 2 * result.length := by
  fun_induction topUp make held fresh with
  | case1 => cases h
  | case2 fresh _ package _ ih => exact ih h
  | case3 fresh hfull =>
    cases h
    omega

/-- The loop does not go beyond the target by more than the last package. -/
theorem length_topUp_le (make : Nat → Except String Pending) {held : Nat} {fresh : List Pending}
    (hfresh : held + 2 * fresh.length ≤ mlsKeypkgPool + 1) :
    held + 2 * (topUp make held fresh).2.length ≤ mlsKeypkgPool + 1 := by
  fun_induction topUp make held fresh with
  | case1 => exact hfresh
  | case2 fresh hroom package _ ih =>
    apply ih
    rw [List.length_append, List.length_singleton]
    omega
  | case3 => exact hfresh

theorem topUp_ok (fresh : Nat → Pending) (held made : Nat)
    (hmade : made ≤ (mlsKeypkgPool - held + 1) / 2) :
    topUp (fun i => .ok (fresh i)) held ((List.range made).map fresh) =
      (.ok (), (List.range ((mlsKeypkgPool - held + 1) / 2)).map fresh) := by
  rw [topUp, List.length_map, List.length_range]
  split
  · have hnext : (List.range made).map fresh ++ [fresh made] = (List.range (made + 1)).map fresh := by
      rw [List.range_succ, List.map_append, List.map_singleton]
    dsimp only
    rw [hnext]
    exact topUp_ok fresh held (made + 1) (by omega)
  · have hall : made = (mlsKeypkgPool - held + 1) / 2 := by omega
    rw [hall]
termination_by mlsKeypkgPool - made

variable {pool : List (Package Pending)}

/-- The pool grows by some fresh packages; after a success it has grown by half of what was
missing, all of it accepted. -/
theorem refreshPool_cases (make : Nat → Except String Pending) (sent : Reply)
    (hpool : pool.length ≤ mlsKeypkgPool) :
    ∃ fresh : List Pending, ∃ accepted : Bool,
      pool.length + 2 * fresh.length ≤ mlsKeypkgPool + 1 ∧
      (refreshPool make sent pool).2 = pool ++ fresh.map (fun package => ⟨package, accepted⟩) ∧
      ((refreshPool make sent pool).1 = .ok () →
        mlsKeypkgPool ≤ pool.length + 2 * fresh.length ∧ (fresh ≠ [] → accepted = true)) := by
  have hlength : pool.length + 2 * (topUp make pool.length []).2.length ≤ mlsKeypkgPool + 1 :=
    length_topUp_le make (hpool.trans (Nat.le_succ _))
  unfold refreshPool
  rcases hmade : topUp make pool.length [] with ⟨_ | u, fresh⟩
  · rw [hmade] at hlength
    exact ⟨fresh, false, hlength, rfl, fun hok => (nomatch hok)⟩
  · rw [hmade] at hlength
    refine ⟨fresh, sent.effective, hlength, ?_⟩
    dsimp only at hlength ⊢
    split
    · exact ⟨rfl, fun hok => (nomatch hok)⟩
    · rename_i hpublished
      -- there are never so many that the oldest are dropped
      have hdrop : (pool ++ fresh.map fun package => (⟨package, sent.effective⟩ : Package Pending)
          ).length - 2 * mlsKeypkgPool = 0 := by
        rw [List.length_append, List.length_map]
        omega
      rw [hdrop, List.drop_zero]
      refine ⟨rfl, fun _ => ⟨topUp_length hmade, fun hfresh => ?_⟩⟩
      have hdone : sent = .done := by
        by_contra hsent
        exact hpublished ⟨hfresh, hsent⟩
      rw [hdone]
      rfl

theorem length_usable_append (pool : List (Package Pending)) (fresh : List Pending)
    (accepted : Bool) :
    (usable (pool ++ fresh.map fun package => ⟨package, accepted⟩)).length =
      (usable pool).length + if accepted then fresh.length else 0 := by
  cases accepted <;> simp [usable, List.filter_map, Function.comp_def]

theorem length_usable_eq_iff : (usable pool).length = pool.length ↔
    ∀ package ∈ pool, package.accepted = true :=
  List.length_filter_eq_length_iff

/-- After a success the target is met exactly if one package at most was missing, and the relay
has accepted all those that were held. -/
theorem length_usable_refreshPool_iff {make : Nat → Except String Pending} {sent : Reply}
    (hpool : pool.length ≤ mlsKeypkgPool) (hok : (refreshPool make sent pool).1 = .ok ()) :
    mlsKeypkgPool ≤ (usable (refreshPool make sent pool).2).length ↔
      mlsKeypkgPool ≤ pool.length + 1 ∧ ∀ package ∈ pool, package.accepted = true := by
  obtain ⟨fresh, accepted, hmost, hgrown, hsuccess⟩ := refreshPool_cases make sent hpool
  obtain ⟨hleast, haccepted⟩ := hsuccess hok
  have hle : (usable pool).length ≤ pool.length := List.length_filter_le _ _
  rw [hgrown, length_usable_append, ← length_usable_eq_iff]
  cases accepted with
  | true =>
    rw [if_pos rfl]
    omega
  | false =>
    have hnone : fresh = [] := by
      by_contra hfresh
      exact Bool.false_ne_true (haccepted hfresh)
    rw [hnone, List.length_nil] at hleast
    rw [if_neg Bool.false_ne_true]
    omega

end Pool

/-- The MLS library with a note at each package. -/
abbrev JoinMls.packaged (M : JoinMls) : JoinMls where
  toMls := M.toMls
  Pending := Package M.Pending
  join package welcome :=
    match M.join package.pending welcome with
    | .ok mls => .ok mls
    | .error pending => .error ⟨pending, package.accepted⟩
  memberBindings := M.memberBindings
  memberIndices := M.memberIndices

/-- What changes the supply: a refresh, or a Welcome that may use up packages. -/
inductive PoolOp (M : JoinMls) where
  | refresh (make : Nat → Except String M.Pending) (sent : Reply)
  | join (ledger : Ledger) (welcome : Bytes)

def poolStep (S : Suite) {M : JoinMls} (pool : List (Package M.Pending)) :
    PoolOp M → List (Package M.Pending)
  | .refresh make sent => (refreshPool make sent pool).2
  | .join ledger welcome => (joinFirst S ledger welcome (M := M.packaged) pool).2

section Runs

variable {S : Suite} {M : JoinMls}

theorem length_joinFirst_le (L : Ledger) (welcome : Bytes) (packages : List M.Pending) :
    (joinFirst S L welcome packages).2.length ≤ packages.length := by
  induction packages with
  | nil => exact Nat.le_refl 0
  | cons pending rest ih =>
    rw [joinFirst]
    cases M.join pending welcome with
    | ok mls =>
      dsimp only
      split
      · exact Nat.le_succ _
      · exact ih.trans (Nat.le_succ _)
    | error kept => exact Nat.succ_le_succ ih

/-- The loop never goes beyond the target, and a join only takes away. -/
theorem length_pool_le (S : Suite) (ops : List (PoolOp M)) :
    (Steps.exec (poolStep S) [] ops).length ≤ mlsKeypkgPool := by
  refine Steps.exec_invariant (fun pool : List (Package M.Pending) => pool.length ≤ mlsKeypkgPool) ?_
    (Nat.zero_le _) (Steps.along_of_forall fun _ _ => trivial)
  intro pool op hpool _
  cases op with
  | refresh make sent =>
    obtain ⟨fresh, accepted, hmost, hgrown, -⟩ := refreshPool_cases make sent hpool
    rw [poolStep, hgrown, List.length_append, List.length_map]
    omega
  | join ledger welcome => exact (length_joinFirst_le ledger welcome _).trans hpool

/-- Without the notes, the refresh is that of the client that joins channels. -/
theorem pending_refreshPool (g : Guest M) (fresh : Nat → M.Pending) (sent : Reply)
    {pool : List (Package M.Pending)} (hpool : pool.map Package.pending = g.mlsPending) :
    (refreshPool (fun i => .ok (fresh i)) sent pool).2.map Package.pending =
      (g.refreshMlsKeyPackage fresh sent).mlsPending := by
  have hlen : g.mlsPending.length = pool.length := by rw [← hpool, List.length_map]
  have hfresh := topUp_ok fresh pool.length 0 (Nat.zero_le _)
  rw [List.range_zero, List.map_nil] at hfresh
  have hcount : (List.range ((mlsKeypkgPool - pool.length + 1) / 2)).map fresh ≠ [] ↔
      (mlsKeypkgPool - pool.length + 1) / 2 > 0 := by
    rw [ne_eq, List.map_eq_nil_iff, List.range_eq_nil]
    exact Nat.pos_iff_ne_zero.symm
  rw [refreshPool, hfresh, Guest.refreshMlsKeyPackage, hlen, ← hpool]
  simp only [hcount]
  split
  · simp [Function.comp_def]
  · simp [Function.comp_def, List.map_drop]

theorem pending_joinFirst (L : Ledger) (welcome : Bytes) (pool : List M.packaged.Pending) :
    (joinFirst S L welcome pool).2.map Package.pending =
      (joinFirst S L welcome (pool.map Package.pending)).2 := by
  induction pool with
  | nil => rfl
  | cons package rest ih =>
    have hmatch (mls : M.Member) : memberBindingsMatchLedger S L (M := M.packaged) mls =
        memberBindingsMatchLedger S L (M := M) mls := rfl
    rw [joinFirst, List.map_cons, joinFirst]
    cases hjoin : M.join package.pending welcome with
    | ok mls =>
      have hpackaged : M.packaged.join package welcome = .ok mls := by
        simp only [hjoin]
      rw [hpackaged]
      dsimp only
      rw [hmatch]
      split
      · rfl
      · exact ih
    | error kept =>
      have hpackaged : M.packaged.join package welcome = .error ⟨kept, package.accepted⟩ := by
        simp only [hjoin]
      rw [hpackaged]
      exact congrArg (kept :: ·) ih

/-- After any run, a refresh that returns a success leaves a full supply exactly if one package at
most was missing before it, and the relay has accepted all those that were held. -/
theorem supply_full_iff (S : Suite) (ops : List (PoolOp M)) (make : Nat → Except String M.Pending)
    (sent : Reply) :
    let pool := Steps.exec (poolStep S) [] ops
    (refreshPool make sent pool).1 = .ok () →
      (mlsKeypkgPool ≤ (usable (refreshPool make sent pool).2).length ↔
        mlsKeypkgPool ≤ pool.length + 1 ∧ ∀ package ∈ pool, package.accepted = true) :=
  fun hok => length_usable_refreshPool_iff (length_pool_le S ops) hok

end Runs

/-- Three refreshes that the relay accepts, and a fourth. -/
theorem supply_full_sample :
    let refresh : PoolOp soloMls := .refresh (fun _ => .ok ()) .done
    let pool := Steps.exec (poolStep sampleSuite) [] [refresh, refresh, refresh]
    mlsKeypkgPool ≤ (usable (refreshPool (fun _ => .ok ()) .done pool).2).length := by
  intro refresh pool
  exact (supply_full_iff sampleSuite [refresh, refresh, refresh] (fun _ => .ok ()) .done
    (by decide +kernel)).mpr (by decide +kernel)

/-- The first refresh returns a success and leaves half of the supply; after five refusals the
supply is full of packages that nobody can use. -/
theorem supply_not_full :
    (refreshPool (fun i => .ok i) .done []).1 = .ok () ∧
      (usable (refreshPool (fun i => .ok i) .done []).2).length = 6 ∧
      let refused : PoolOp soloMls := .refresh (fun _ => .ok ()) .failed
      let pool := Steps.exec (poolStep sampleSuite) [] (List.replicate 5 refused)
      (refreshPool (fun _ => .ok ()) .done pool).1 = .ok () ∧
        (usable (refreshPool (fun _ => .ok ()) .done pool).2).length = 0 := by
  decide +kernel

end Dante.Core
