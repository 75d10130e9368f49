import Dante.Net.Failover
import Dante.Crypto.Hash
import Mathlib.Data.List.Sort

/-!
Which relays a channel's requests go to. Every client sorts the relays it knows by their hash with
the channel, so that clients agree on one relay that numbers the channel's frames, in whatever
order each of them has found the relays.
-/

namespace Dante.Net

open Crypto

variable (S : Suite) (channelId : ByteArr 32)

/-- The relays in the order in which a request for the channel tries them. -/
def routes (candidates : List Cand) : List Bytes :=
  (channelOrder S candidates channelId).map fun i => (candidates[i]?.map Cand.peer).getD []

/-- A client's view of a relay, and whether it takes the relay for dead. -/
def Cand.view (cand : Cand) : Bytes × Bool := (cand.peer, cand.score ≥ maxScore)

/-- A relay with what it is sorted by. -/
def ranked (view : Bytes × Bool) : Bytes × Bytes :=
  ((if view.2 then 1 else 0) :: (hrw S view.1 channelId).toList, view.1)

theorem exists_ranked (candidates : List Cand) :
    ∃ sorted : List (Bytes × Bytes), routes S channelId candidates = sorted.map Prod.snd ∧
      sorted.Pairwise (fun a b => a.1 ≤ b.1) ∧
        sorted.Perm ((candidates.map Cand.view).map (ranked S channelId)) := by
  let entry (i : Nat) : Bytes × Bytes :=
    (channelKey S candidates channelId i, (candidates[i]?.map Cand.peer).getD [])
  let before (i j : Nat) : Prop :=
    channelKey S candidates channelId i ≤ channelKey S candidates channelId j
  have htotal : Std.Total before := ⟨fun _ _ => List.le_total _ _⟩
  have htrans : IsTrans Nat before := ⟨fun _ _ _ => List.le_trans⟩
  have hall : (List.range candidates.length).map entry =
      (candidates.map Cand.view).map (ranked S channelId) := by
    apply List.ext_getElem (by simp)
    intro i hi hi'
    simp at hi
    simp [entry, channelKey, scoreOf, ranked, Cand.view, hi]
  refine ⟨(channelOrder S candidates channelId).map entry, by simp [routes, entry], ?_, ?_⟩
  · exact List.pairwise_map.mpr (List.pairwise_insertionSort before _)
  · exact hall ▸ (List.perm_insertionSort before _).map entry

/-- Relays with one key have one hash, and so are one relay. -/
theorem ranked_inj {all : List Cand} {c d : Cand}
    (hfree : CollisionFree S.sha256 (all.map fun cand => cand.peer ++ channelId.toList))
    (hc : c ∈ all) (hd : d ∈ all)
    (hkey : (ranked S channelId c.view).1 = (ranked S channelId d.view).1) :
    ranked S channelId c.view = ranked S channelId d.view := by
  have hhash := ByteArr.toList_injective (List.tail_eq_of_cons_eq hkey)
  have hpeer := List.append_cancel_right
    (hfree _ (List.mem_map_of_mem hc) _ (List.mem_map_of_mem hd) hhash)
  exact Prod.ext hkey hpeer

/-- A client that knows some of the relays tries them in the order of a client that knows all, if
both take the same ones for dead. -/
theorem routes_filter (keep : Bytes → Bool) {all known : List Cand}
    (hfree : CollisionFree S.sha256 (all.map fun cand => cand.peer ++ channelId.toList))
    (hknown : (known.map Cand.view).Perm ((all.map Cand.view).filter fun view => keep view.1)) :
    routes S channelId known = (routes S channelId all).filter keep := by
  obtain ⟨sorted, hroutes, hsorted, hperm⟩ := exists_ranked S channelId all
  obtain ⟨few, hroutes', hsorted', hperm'⟩ := exists_ranked S channelId known
  have hfew : few.Perm (sorted.filter fun entry => keep entry.2) := by
    refine hperm'.trans ((hknown.map _).trans (.trans (.of_eq ?_) (hperm.filter _).symm))
    simp [List.filter_map, Function.comp_def, ranked]
  have hanti : ∀ a b, a ∈ few → b ∈ sorted.filter (fun entry => keep entry.2) →
      a.1 ≤ b.1 → b.1 ≤ a.1 → a = b := by
    intro a b ha hb hab hba
    have hmem {entry : Bytes × Bytes} (h : entry ∈ sorted) :
        ∃ cand ∈ all, ranked S channelId cand.view = entry := by simpa using hperm.mem_iff.mp h
    obtain ⟨c, hc, rfl⟩ := hmem (List.mem_filter.mp (hfew.mem_iff.mp ha)).1
    obtain ⟨d, hd, rfl⟩ := hmem (List.mem_filter.mp hb).1
    exact ranked_inj S channelId hfree hc hd (List.le_antisymm hab hba)
  rw [hroutes, hroutes', hfew.eq_of_pairwise hanti hsorted' (hsorted.filter _), List.filter_map]
  rfl

theorem routes_without_first :
    let relays : List Cand := [.new [3], .new [1], .new [2]]
    routes sampleSuite (.fill 32 0) [.new [2], .new [1]] =
      (routes sampleSuite (.fill 32 0) relays).filter (· ≠ [3]) :=
  routes_filter sampleSuite _ _ (by decide +kernel) (by decide +kernel)

end Dante.Net
